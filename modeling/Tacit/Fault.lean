import Tacit.Arity
import Tacit.Located
import Tacit.Shape

/-! The causes a computation can fail for, and their wording. Operations fail with a bare cause; the
evaluator adds the line. -/
namespace Tacit

inductive Kind where
  | number
  | character
  | array
  | function
  deriving DecidableEq

def Kind.name : Kind → String
  | .number => "number"
  | .character => "character"
  | .array => "array"
  | .function => "function"

/-- A value of a kind that the operation is not defined for. -/
inductive TypeFault where
  | unary (action : String) (kind : Kind)
  | binary (action : String) (left right : Kind)
  | comparedFunctions
  | selectFromRankZero
  deriving DecidableEq

def TypeFault.details : TypeFault → String
  | .unary action kind => s!"Cannot {action} {kind.name}"
  | .binary action left right => s!"Cannot {action} {left.name} and {right.name}"
  | .comparedFunctions => "Cannot compare functions"
  | .selectFromRankZero => "Cannot select from a rank 0 array"

inductive ShapeFault where
  | elements (shape : Shape) (needed found : Nat)
  | mixedCells
  | raggedCells (first other : Shape)
  | pairing (left right : Shape)
  | dataEndedEarly
  | eachPairing (left right : Shape)
  | catenated (left right : Shape)
  | pickRank (indices rank : Nat)
  deriving DecidableEq

def ShapeFault.details : ShapeFault → String
  | .elements shape needed found =>
    s!"Shape {shape.describe} needs {needed} elements, found {found}"
  | .mixedCells => "Cannot mix arrays and non-arrays in an array"
  | .raggedCells first other =>
    s!"Array elements have different shapes: {first.describe} vs {other.describe}"
  | .pairing left right => s!"Cannot pair arrays of shapes {left.describe} and {right.describe}"
  | .dataEndedEarly => "Array data ended early"
  | .eachPairing left right =>
    s!"Each needs arrays of equal shape, found {left.describe} and {right.describe}"
  | .catenated left right =>
    "Arguments to catenate must have matching cells, found shapes " ++
      s!"{left.describe} and {right.describe}"
  | .pickRank indices rank => s!"Index of length {indices} cannot pick from an array of rank {rank}"

inductive OperandFault where
  | notFunction (role : String) (kind : Kind)
  | notDyadic (role : String) (arity : Arity)
  | composedValues
  | overTwoDyadics
  | overNiladic
  deriving DecidableEq

def OperandFault.details : OperandFault → String
  | .notFunction role kind => s!"{role} must be a function, found {kind.name}"
  | .notDyadic role arity => s!"{role} must be a dyadic function, found a {arity.name} function"
  | .composedValues => "Cannot compose two non-functions"
  | .overTwoDyadics => "Over cannot combine two dyadic functions"
  | .overNiladic => "Operands to over must take arguments"

inductive NonFinite where
  | nan
  | infinity
  | negativeInfinity
  deriving DecidableEq

def NonFinite.name : NonFinite → String
  | .nan => "NaN"
  | .infinity => "inf"
  | .negativeInfinity => "-inf"

/-- An argument of the right kind with a value that has no meaning here. -/
inductive ArgumentFault where
  | notFinite (value : NonFinite)
  | negative (value : Int)
  | noCharacter (code : Int)
  | reducedEmpty
  | reshapedEmpty
  | emptyTrain
  deriving DecidableEq

def ArgumentFault.details : ArgumentFault → String
  | .notFinite value => s!"cannot use {value.name} as an integer"
  | .negative value => s!"expected a non-negative integer, found {value}"
  | .noCharacter code => s!"{code} is not a character code point"
  | .reducedEmpty => "Cannot reduce an empty array"
  | .reshapedEmpty => "Cannot reshape an empty array into a non-empty shape"
  | .emptyTrain => "Cannot resolve an empty train"

inductive Fault where
  | unknownVariable (name : String)
  | typeError (fault : TypeFault)
  | shapeMismatch (fault : ShapeFault)
  | indexOutOfBounds (index : Int) (length : Nat)
  | niladOutsideOfFork
  | expectedFunction (fault : OperandFault)
  | argumentCount (expected found : Nat)
  | arityMismatch (name : String) (declared actual : Arity)
  | invalidArgument (fault : ArgumentFault)
  | fractional
  | tooLarge
  deriving DecidableEq

def Fault.message : Fault → String
  | .unknownVariable name => s!"Unknown variable '{name}'."
  | .typeError fault => s!"Type error: {fault.details}."
  | .shapeMismatch fault => s!"Shape mismatch: {fault.details}."
  | .indexOutOfBounds index length => s!"Index {index} is out of bounds for length {length}."
  | .niladOutsideOfFork => "Nilad outside of fork."
  | .expectedFunction fault => s!"Expected function: {fault.details}."
  | .argumentCount expected found => s!"Function takes {expected} arguments but received {found}."
  | .arityMismatch name declared actual =>
    s!"'{name}' was declared with arity {declared.count} but its value has arity {actual.count}."
  | .invalidArgument fault => s!"Invalid argument: {fault.details}."
  | .fractional => "Value is fractional and cannot be used as an integer."
  | .tooLarge => "Number is too large."

abbrev Result (α : Type) := Except Fault α

abbrev RuntimeError := Located Fault

end Tacit
