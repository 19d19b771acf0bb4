import Tacit.Value

/-! Joining values: pairs, and catenation along the leading axis. -/
namespace Tacit.Value

def pair (x y : Value) : Value := array (Grid.vector [x, y])

/-- An array without axes counts as a vector of its element. -/
def promoted (grid : Grid Value) : Result (Grid Value) :=
  if grid.rank = 0 then grid.reshaped [1] else .ok grid

def asOnlyCell (grid : Grid Value) : Result (Grid Value) := grid.reshaped (1 :: grid.shape)

def filledCell (fill : Value) (partner : Grid Value) : Result (Grid Value) := do
  let shape := 1 :: partner.shape.drop 1
  let size ← Shape.boundedSize shape
  Grid.ofShape shape (List.replicate size fill)

/-- Two arrays, the one of lower rank extended by a leading axis if that makes the ranks equal. -/
def levelled (x y : Grid Value) : Result (Grid Value × Grid Value) := do
  if x.rank = y.rank + 1 then return (x, ← asOnlyCell y)
  else if x.rank + 1 = y.rank then return (← asOnlyCell x, y)
  else return (x, y)

def join (x y : Grid Value) : Result (Grid Value) := do
  let (x, y) ← levelled (← promoted x) (← promoted y)
  if x.rank ≠ y.rank ∨ x.shape.drop 1 ≠ y.shape.drop 1 then
    throw (.shapeMismatch (.catenated x.shape y.shape))
  Grid.ofShape ((x.length + y.length) :: x.shape.drop 1) (x.data ++ y.data)

/-- Joins two values along the leading axis. A value that is no array becomes one cell of its
partner, and two such values a vector. -/
def catenate : (x y : Value) → Result Value
  | array x, array y => array <$> join x y
  | array x, y => do return array (← join x (← filledCell y x))
  | x, array y => do return array (← join (← filledCell x y) y)
  | x, y => .ok (pair x y)

end Tacit.Value
