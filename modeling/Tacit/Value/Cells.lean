import Tacit.Value

/-! Arrays of values taken apart into cells and put together from them. The cells of rank zero are
the bare elements, never arrays of rank zero. -/
namespace Tacit.Value

def cells (grid : Grid Value) (rank : Nat) : Shape × List Value :=
  if rank = 0 then (grid.shape, grid.data)
  else if grid.rank ≤ rank then ([], [array grid])
  else
    let (frame, cells) := grid.cells rank
    (frame, cells.map array)

/-- The cells along the leading axis; without one, the single element. -/
def majorCells (grid : Grid Value) : List Value :=
  if grid.rank ≤ 1 then grid.data else (cells grid (grid.rank - 1)).2

/-- The array with the given cells along its leading axis. Values that are no arrays make a vector,
and arrays have to share one shape. -/
def stack (cells : List Value) : Result (Grid Value) :=
  match cells.filterMap grid? with
  | [] => .ok (Grid.vector cells)
  | first :: others =>
    if (first :: others).length ≠ cells.length then .error (.shapeMismatch .mixedCells)
    else
      match others.find? (·.shape ≠ first.shape) with
      | some other => .error (.shapeMismatch (.raggedCells first.shape other.shape))
      | none => .ok ⟨cells.length :: first.shape, (first :: others).flatMap Grid.data⟩

end Tacit.Value
