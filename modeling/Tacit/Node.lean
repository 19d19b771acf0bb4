import Tacit.Modifier
import Tacit.Primitive

/-! Programs as trees. Every node keeps the line that errors of its evaluation are reported at. -/
namespace Tacit

inductive Node where
  | number (value : Float) (line : Nat)
  | string (text : String) (line : Nat)
  | character (value : Char) (line : Nat)
  | reference (name : String) (line : Nat)
  | glyph (primitive : Primitive) (arity : Arity) (line : Nat)
  | modified (modifier : Modifier) (operand : Node) (line : Nat)
  | combined (modifier : Modifier) (left right : Node) (line : Nat)
  | binding (name : String) (arity : Option Arity) (value : Node) (line : Nat)
  /-- Juxtaposed functions and values. -/
  | train (tines : List Node) (line : Nat)
  /-- Elements joined by ligatures. -/
  | strand (elements : List Node) (line : Nat)
  /-- Elements stacked along a new leading axis. -/
  | array (elements : List Node) (line : Nat)
  /-- Elements kept apart, whatever their shapes. -/
  | list (elements : List Node) (line : Nat)

def Node.line : Node → Nat
  | number _ line | string _ line | character _ line | reference _ line | glyph _ _ line
  | modified _ _ line | combined _ _ _ line | binding _ _ _ line | train _ line | strand _ line
  | array _ line | list _ line => line

end Tacit
