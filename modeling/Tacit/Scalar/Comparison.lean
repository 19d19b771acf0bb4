import Tacit.Value

/-! Comparison of values that are no arrays. Equality is defined between all of them; the order only
between two numbers and between two characters. -/
namespace Tacit.Comparison

def equal : (x y : Value) → Bool
  | .number a, .number b => Number.equal a b
  | .character c, .character d => c = d
  | _, _ => false

def order : (x y : Value) → Result Ordering
  | .number a, .number b => .ok (Number.order a b)
  | .character c, .character d => .ok (compare c.toNat d.toNat)
  | .function _, _ | _, .function _ => .error (.typeError .comparedFunctions)
  | x, y => .error (.typeError (.binary "compare" x.kind y.kind))

def ordered (accept : Ordering → Bool) (x y : Value) : Result Value := do
  return .ofBool (accept (← order x y))

end Tacit.Comparison
