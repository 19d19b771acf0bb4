/-! Shapes of arrays. -/
namespace Tacit

/-- The lengths of the axes of an array, outermost first. -/
abbrev Shape := List Nat

def Shape.describe (shape : Shape) : String :=
  "[" ++ String.intercalate ", " (shape.map Nat.repr) ++ "]"

def Shape.size (shape : Shape) : Nat := shape.foldr (· * ·) 1

namespace Shape

@[simp] theorem size_nil : size [] = 1 := rfl

@[simp] theorem size_cons (axis : Nat) (shape : Shape) : size (axis :: shape) = axis * size shape :=
  rfl

theorem size_append (frame cell : Shape) : size (frame ++ cell) = size frame * size cell := by
  induction frame with
  | nil => simp
  | cons axis frame ih => simp [ih, Nat.mul_assoc]

theorem size_eq_zero_iff (shape : Shape) : size shape = 0 ↔ 0 ∈ shape := by
  induction shape with
  | nil => simp
  | cons axis shape ih => rw [size_cons, Nat.mul_eq_zero, ih, List.mem_cons, eq_comm]

end Shape

end Tacit
