import Tacit.Value.Cells

/-! Applying a function along arrays: to each element, as a fold from the right, and as the folds of
all prefixes. The function is given by what calling it does. -/
namespace Tacit.Iteration

abbrev Call := List Value → Result Value

/-- Pairs the elements of two lists. Where the second one is too short, an element is its own
partner. -/
def pairs : List Value → List Value → List (Value × Value)
  | [], _ => []
  | x :: xs, [] => (x, x) :: pairs xs []
  | x :: xs, y :: ys => (x, y) :: pairs xs ys

/-- Calls one level into arrays: arrays are walked together, and anything else is held fixed. -/
def each (call : Call) : List Value → Result Value
  | [.array ⟨shape, data⟩] => do return .array ⟨shape, ← data.mapM fun x => call [x]⟩
  | [.array ⟨shape, data⟩, .array ⟨otherShape, otherData⟩] =>
    if shape = otherShape then do
      return .array ⟨shape, ← (pairs data otherData).mapM fun (x, y) => call [x, y]⟩
    else .error (.shapeMismatch (.eachPairing shape otherShape))
  | [.array ⟨shape, data⟩, y] => do return .array ⟨shape, ← data.mapM fun x => call [x, y]⟩
  | [x, .array ⟨shape, data⟩] => do return .array ⟨shape, ← data.mapM fun y => call [x, y]⟩
  | args => call args

/-- Folds a list from the right; its last element is where the fold starts. -/
def foldFromRight (call : Call) : List Value → Result Value
  | [] => .error (.invalidArgument .reducedEmpty)
  | [last] => .ok last
  | x :: xs => do call [x, ← foldFromRight call xs]

def reduce (call : Call) (x : Value) : Result Value := do
  foldFromRight call (Value.majorCells (← x.expectArray "reduce"))

/-- The fold of every prefix. Nothing is left to fold in an array without a leading axis or with an
empty one. -/
def scan (call : Call) (x : Value) : Result Value := do
  let grid ← x.expectArray "scan"
  if grid.rank = 0 ∨ grid.length = 0 then return x
  let cells := Value.majorCells grid
  let folds ← (List.range cells.length).mapM fun i => foldFromRight call (cells.take (i + 1))
  if grid.rank = 1 then return .array (Grid.vector folds)
  return .array (← Value.stack folds)

end Tacit.Iteration
