import Tacit.Grid
import Tacit.Modifier
import Tacit.Number.Double
import Tacit.Primitive

/-! Values: numbers, characters, arrays of values, and functions. A function is a description of how
it was built, so functions can be inspected and compared. -/
namespace Tacit

mutual

inductive Value where
  | number (value : Float)
  | character (value : Char)
  | array (grid : Grid Value)
  | function (fn : Fn)

inductive Fn where
  | primitive (primitive : Primitive)
  /-- A value as a function of no arguments. -/
  | constant (value : Value)
  | each (fn : Fn)
  | backwards (fn : Fn)
  | selfApply (fn : Fn)
  | reduce (fn : Fn)
  | scan (fn : Fn)
  /-- The outer function after the inner one. -/
  | atop (outer inner : Fn)
  /-- The inner function on each argument of the outer one. -/
  | over (outer inner : Fn)
  /-- The center between what the two sides give. -/
  | fork (left center right : Fn)

end

namespace Fn

def arity : Fn → Arity
  | primitive p => p.arity
  | constant _ => .niladic
  | each fn | backwards fn => fn.arity
  | selfApply _ | reduce _ | scan _ => .monadic
  | atop outer inner =>
    if outer.arity = .dyadic then inner.arity.sup .monadic else inner.arity
  | .over outer inner => if outer.arity = .dyadic then .dyadic else inner.arity
  | fork left _ right => left.arity.sup right.arity

def ofValue : Value → Fn
  | .function fn => fn
  | value => .constant value

end Fn

namespace Value

def arity : Value → Arity
  | function fn => fn.arity
  | _ => .niladic

def kind : Value → Kind
  | number _ => .number
  | character _ => .character
  | array _ => .array
  | function _ => .function

def grid? : Value → Option (Grid Value)
  | array grid => some grid
  | _ => none

def ofBool (b : Bool) : Value := number (Number.ofBool b)

def ofText (text : List Char) : Value := array (Grid.vector (text.map character))

/-- The number, or the complaint that `action` needs one. -/
def expectNumber (action : String) : Value → Result Float
  | number x => .ok x
  | value => .error (.typeError (.unary action value.kind))

def expectArray (action : String) : Value → Result (Grid Value)
  | array grid => .ok grid
  | value => .error (.typeError (.unary action value.kind))

def expectFunction (role : String) : Value → Result Fn
  | function fn => .ok fn
  | value => .error (.expectedFunction (.notFunction role value.kind))

def asCharacter? : Value → Option Char
  | character c => some c
  | _ => none

/-- Strings are vectors of at least one character and nothing else. -/
def isString (grid : Grid Value) : Bool :=
  grid.rank = 1 ∧ grid.data ≠ [] ∧ grid.data.all (·.asCharacter?.isSome)

def isArray : Value → Bool
  | array _ => true
  | _ => false

end Value

end Tacit
