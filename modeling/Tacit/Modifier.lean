import Tacit.Arity

/-! The modifiers, which build functions from one or two operands. -/
namespace Tacit

inductive Modifier where
  | each
  | backwards
  | selfApply
  | reduce
  | scan
  | atop
  | over
  deriving DecidableEq

namespace Modifier

def arity : Modifier → Arity
  | .atop | .over => .dyadic
  | _ => .monadic

end Modifier

end Tacit
