import Tacit.Scalar.Arithmetic
import Tacit.Scalar.Comparison
import Tacit.Scalar.Pervasion
import Tacit.Value.Equality
import Tacit.Value.Indexing
import Tacit.Value.Joining
import Tacit.Value.Shaping

/-! What the primitives do. Scalar primitives are given by what they do to values that are no arrays
and pervade everything else; the other ones treat their arguments as wholes. -/
namespace Tacit.Primitive

/-- The operation on one scalar that a primitive pervades with. -/
def scalarMonadic? : Primitive → Option (Value → Result Value)
  | negate => some (Arithmetic.onNumber "negate" fun x => -x)
  | complement => some (Arithmetic.onNumber "take NOT of" Arithmetic.complement)
  | absolute => some (Arithmetic.onNumber "take the absolute value of" Float.abs)
  | floor => some (Arithmetic.onNumber "take the floor of" Float.floor)
  | round => some (Arithmetic.onNumber "round" Arithmetic.round)
  | ceiling => some (Arithmetic.onNumber "take the ceiling of" Float.ceil)
  | _ => none

def scalarDyadic? : Primitive → Option (Value → Value → Result Value)
  | equal => some fun x y => .ok (.ofBool (Comparison.equal x y))
  | notEqual => some fun x y => .ok (.ofBool (!Comparison.equal x y))
  | greater => some (Comparison.ordered Ordering.isGT)
  | greaterEqual => some (Comparison.ordered Ordering.isGE)
  | less => some (Comparison.ordered Ordering.isLT)
  | lessEqual => some (Comparison.ordered Ordering.isLE)
  | add => some Arithmetic.add
  | subtract => some Arithmetic.subtract
  | multiply => some (Arithmetic.onNumbers "multiply" fun x y => x * y)
  | divide => some (Arithmetic.onNumbers "divide" fun x y => x / y)
  | modulo => some (Arithmetic.onNumbers "take the modulo of" Number.modulo)
  | power => some (Arithmetic.onNumbers "raise" Float.pow)
  | maximum => some Arithmetic.maximum
  | minimum => some Arithmetic.minimum
  | _ => none

/-- A primitive of two arguments refuses one. -/
def applyMonadic (primitive : Primitive) (x : Value) : Result Value :=
  match scalarMonadic? primitive with
  | some op => Pervasion.monadic op x
  | none =>
    match primitive with
    | identity => .ok x
    | iota => x.iota
    | length => x.length
    | shape => x.shape
    | flat => .ok x.flat
    | _ => .error (.argumentCount 2 1)

def applyDyadic (primitive : Primitive) (x y : Value) : Result Value :=
  match scalarDyadic? primitive with
  | some op => Pervasion.dyadic op x y
  | none =>
    match primitive with
    | left => .ok x
    | right => .ok y
    | same => .ok (.ofBool (x.same y))
    | different => .ok (.ofBool (!x.same y))
    | pair => .ok (x.pair y)
    | catenate => x.catenate y
    | reshape => x.reshape y
    | select => x.select y
    | pick => x.pick y
    | _ => .error (.argumentCount 1 2)

def apply (primitive : Primitive) (args : List Value) : Result Value :=
  match primitive.arity, args with
  | .monadic, [x] => primitive.applyMonadic x
  | .dyadic, [x, y] => primitive.applyDyadic x y
  | arity, _ => .error (.argumentCount arity.count args.length)

end Tacit.Primitive
