import Tacit.Number.Integer
import Tacit.Value

/-! Making and reading shapes: ranges, lengths, shapes, flattening and reshaping. -/
namespace Tacit.Value

def expectShape (action : String) : Value → Result Shape
  | number x => do return [← Number.toSize x]
  | value@(array grid) =>
    if grid.rank = 1 then grid.data.mapM fun element => do
      Number.toSize (← element.expectNumber action)
    else .error (.typeError (.unary action value.kind))
  | value => .error (.typeError (.unary action value.kind))

/-- The numbers from zero in row-major order, in the shape given. -/
def iota (y : Value) : Result Value := do
  let shape ← y.expectShape "take the range of"
  let size ← Shape.boundedSize shape
  let data ← (List.range size).mapM fun i => number <$> Number.ofSize i
  return array (← Grid.ofShape shape data)

/-- The length of the leading axis; what is no array has length zero. -/
def length (y : Value) : Result Value :=
  number <$> Number.ofSize ((y.grid?.map Grid.length).getD 0)

def axisVector (grid : Grid Value) : Result (Grid Value) := do
  return Grid.vector (← grid.shape.mapM fun axis => number <$> Number.ofSize axis)

def shape : Value → Result Value
  | array grid => array <$> axisVector grid
  | _ => .ok (array (Grid.vector []))

def elements : Value → List Value
  | array grid => grid.data
  | value => [value]

def flat (y : Value) : Value := array (Grid.vector y.elements)

/-- The first `size` elements of a list repeated without end. -/
def cycled (size : Nat) (source : List Value) : List Value :=
  (List.replicate (size / source.length + 1) source).flatten.take size

/-- Fills a shape with the elements of `y`, from the start again whenever they run out. -/
def reshape (x y : Value) : Result Value := do
  let shape ← x.expectShape "reshape by"
  let size ← Shape.boundedSize shape
  if y.elements.isEmpty ∧ 0 < size then throw (.invalidArgument .reshapedEmpty)
  return array (← Grid.ofShape shape (cycled size y.elements))

end Tacit.Value
