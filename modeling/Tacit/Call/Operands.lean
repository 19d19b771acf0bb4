import Tacit.Call

/-! What the modifiers make of their operands. -/
namespace Tacit.Modifier

def expectDyadic (role : String) (operand : Value) : Result Fn := do
  let fn ← operand.expectFunction role
  if fn.arity ≠ .dyadic then throw (.expectedFunction (.notDyadic role fn.arity))
  return fn

/-- Swapping the arguments of a function that has less than two changes nothing. -/
def swapped (operand : Value) : Result Value := do
  let fn ← operand.expectFunction "Operand to backwards"
  return if fn.arity = .dyadic then .function (.backwards fn) else operand

/-- Composes two functions, or binds a value to a function: a function of one argument is applied
to the value at once, and one of two arguments keeps it as the argument on the value's side. -/
def composed : (left right : Value) → Result Value
  | .function f, .function g => (Fn.atop f g).toValue
  | .function f, value =>
    if f.arity = .dyadic then .ok (.function (.atop f (.constant value)))
    else f.callWithLast [value]
  | value, .function g =>
    if g.arity = .dyadic then .ok (.function (.atop (.backwards g) (.constant value)))
    else g.callWithLast [value]
  | _, _ => .error (.expectedFunction .composedValues)

/-- At most one of the two functions may take two arguments. -/
def preprocessed (left right : Value) : Result Value := do
  let f ← left.expectFunction "Left operand to over"
  let g ← right.expectFunction "Right operand to over"
  if f.arity = .dyadic ∧ g.arity = .dyadic then throw (.expectedFunction .overTwoDyadics)
  if f.arity = .niladic ∨ g.arity = .niladic then throw (.expectedFunction .overNiladic)
  return .function (.over f g)

def applyMonadic (modifier : Modifier) (operand : Value) : Result Value :=
  match modifier with
  | each => do return .function (.each (← operand.expectFunction "Operand to each"))
  | backwards => swapped operand
  | selfApply => do return .function (.selfApply (← expectDyadic "Operand to self" operand))
  | reduce => do return .function (.reduce (← expectDyadic "Operand to reduce" operand))
  | scan => do return .function (.scan (← expectDyadic "Operand to scan" operand))
  | .atop | .over => .error (.argumentCount 2 1)

def applyDyadic (modifier : Modifier) (left right : Value) : Result Value :=
  match modifier with
  | atop => composed left right
  | .over => preprocessed left right
  | _ => .error (.argumentCount 1 2)

end Tacit.Modifier
