/-! The number of arguments a function takes. Every function has exactly one arity, and
juxtaposed functions and values are grouped by their arities alone. -/
namespace Tacit

inductive Arity where
  | niladic
  | monadic
  | dyadic
  deriving DecidableEq

namespace Arity

def count : Arity → Nat
  | niladic => 0
  | monadic => 1
  | dyadic => 2

def name : Arity → String
  | niladic => "niladic"
  | monadic => "monadic"
  | dyadic => "dyadic"

/-- The larger of two arities: what is needed to feed both from one list of arguments. -/
def sup (a b : Arity) : Arity :=
  if a.count ≤ b.count then b else a

theorem count_sup (a b : Arity) : (a.sup b).count = max a.count b.count := by
  cases a <;> cases b <;> rfl

end Arity

end Tacit
