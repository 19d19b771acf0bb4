import Tacit.Call.Operands
import Tacit.Env
import Tacit.Node
import Tacit.Train
import Tacit.Value.Cells

/-! Evaluation of programs. Bindings take effect as they are made, so those made before a failure
stay in the environment. -/
namespace Tacit

/-- A computation that may bind names and may fail; a failure keeps the names bound so far. -/
abbrev Eval := ExceptT RuntimeError (StateM Env)

namespace Eval

variable {α : Type}

def liftAt (line : Nat) (result : Result α) : Eval α := ExceptT.mk (pure (atLine line result))

def lookup (name : String) (line : Nat) : Eval Value := do
  match (← get).get? name with
  | some value => return value
  | none => throw ⟨.unknownVariable name, line⟩

def bindName (name : String) (declared : Option Arity) (value : Value) (line : Nat) :
    Eval Value := do
  match declared with
  | some arity =>
    if value.arity ≠ arity then throw ⟨.arityMismatch name arity value.arity, line⟩
  | none => pure ()
  modify (·.insert name value)
  return value

end Eval

mutual

def Node.eval : Node → Eval Value
  | .number value _ => return .number value
  | .string text _ => return .ofText text.toList
  | .character value _ => return .character value
  | .reference name line => Eval.lookup name line
  | .glyph primitive _ _ => return .function (.primitive primitive)
  | .modified modifier operand line => do
    let operand ← operand.eval
    Eval.liftAt line (modifier.applyMonadic operand)
  | .combined modifier left right line => do
    let left ← left.eval
    let right ← right.eval
    Eval.liftAt line (modifier.applyDyadic left right)
  | .binding name arity value line => do
    let value ← value.eval
    Eval.bindName name arity value line
  | .train tines line => do
    let tines ← Node.evalAll tines
    Eval.liftAt line (Train.resolve tines)
  | .strand elements _ | .list elements _ => do
    return .array (Grid.vector (← Node.evalAll elements))
  | .array elements line => do
    let cells ← Node.evalAll elements
    return .array (← Eval.liftAt line (Value.stack cells))

def Node.evalAll : List Node → Eval (List Value)
  | [] => return []
  | node :: nodes => do
    let first ← node.eval
    let others ← Node.evalAll nodes
    return first :: others

end

def evalProgram (program : List Node) : Eval (Option Value) := do
  return (← Node.evalAll program).getLast?

end Tacit
