import Tacit.Value

/-! Scalar operations reach into arrays. One argument is descended into at every depth; two
arguments are descended into together, and an argument that is no array is held fixed against all
elements of the other. -/
namespace Tacit.Pervasion

mutual

def monadic (op : Value → Result Value) : Value → Result Value
  | .array ⟨shape, data⟩ => do return .array ⟨shape, ← monadicAll op data⟩
  | x => op x

def monadicAll (op : Value → Result Value) : List Value → Result (List Value)
  | [] => return []
  | x :: xs => do
    let first ← monadic op x
    let others ← monadicAll op xs
    return first :: others

end

mutual

/-- Applies an operation to the pairs of values, no arrays, at equal places of `x` and `y`. -/
def dyadic (op : Value → Value → Result Value) : (x y : Value) → Result Value
  | .array ⟨shape, data⟩, .array ⟨otherShape, otherData⟩ =>
    if shape = otherShape then do return .array ⟨shape, ← dyadicPairs op data otherData⟩
    else .error (.shapeMismatch (.pairing shape otherShape))
  | .array ⟨shape, data⟩, y => do return .array ⟨shape, ← dyadicLeft op y data⟩
  | x, y => monadic (op x) y

def dyadicPairs (op : Value → Value → Result Value) : (xs ys : List Value) → Result (List Value)
  | [], _ => return []
  | _ :: _, [] => .error (.shapeMismatch .dataEndedEarly)
  | x :: xs, y :: ys => do
    let first ← dyadic op x y
    let others ← dyadicPairs op xs ys
    return first :: others

/-- The left argument is an array with these elements, the right one is held fixed. -/
def dyadicLeft (op : Value → Value → Result Value) (y : Value) :
    (xs : List Value) → Result (List Value)
  | [] => return []
  | x :: xs => do
    let first ← dyadic op x y
    let others ← dyadicLeft op y xs
    return first :: others

end

end Tacit.Pervasion
