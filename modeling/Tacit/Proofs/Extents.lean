import Mathlib.Algebra.BigOperators.Group.List.Lemmas
import Tacit.Proofs.Sizes

/-! The check of a size is exact. The axes are multiplied up in words, which a product may outgrow long before the last
axis is reached. No axis that counts is empty, so a product that is too large on the way is too large at the end, and
what is refused is exactly what is beyond the limit. So the order of the axes does not matter, and axes may be left out
of a shape that is accepted. -/
namespace Tacit.Shape

/-- Axes left out of a shape leave a divisor of its product. -/
theorem Within.of_sublist {part shape : Shape} (within : shape.Within) (among : part.Sublist shape) : part.Within := by
  have divides : size (part.filter (· ≠ 0)) ∣ size (shape.filter (· ≠ 0)) := (among.filter _).prod_dvd_prod
  exact Nat.le_trans (Nat.le_of_dvd (size_filter_pos shape) divides) within

theorem boundedSize_of_perm {shape other : Shape} (rearranged : other.Perm shape) :
    other.boundedSize = shape.boundedSize := by
  have sizes : other.size = shape.size := rearranged.prod_eq
  have extents : size (other.filter (· ≠ 0)) = size (shape.filter (· ≠ 0)) := (rearranged.filter _).prod_eq
  rw [boundedSize_eq, boundedSize_eq, sizes, extents]

/-- A shape is accepted exactly if the product of its axes that are not empty is within the limit. It is accepted with
the product of all its axes, and refused as too large. The answer does not depend on the order of the axes, and any of
them may be left out. -/
theorem boundedSize_exact (shape : Shape) :
    (∀ n, shape.boundedSize = .ok n ↔ (shape.filter (· ≠ 0)).prod ≤ 2 ^ 24 ∧ n = shape.prod) ∧
    (∀ fault, shape.boundedSize = .error fault ↔ 2 ^ 24 < (shape.filter (· ≠ 0)).prod ∧ fault = .tooLarge) ∧
    (∀ other : Shape, other.Perm shape → other.boundedSize = shape.boundedSize) ∧
    ∀ part : Shape, part.Sublist shape → (∃ n, shape.boundedSize = .ok n) → ∃ n, part.boundedSize = .ok n := by
  refine ⟨fun n => ?_, fun fault => ?_, fun _ => boundedSize_of_perm, fun part among ⟨n, accepted⟩ => ?_⟩
  · constructor
    · exact fun accepted => ⟨within_of_boundedSize accepted, eq_size_of_boundedSize accepted⟩
    · rintro ⟨within, rfl⟩
      exact boundedSize_of_within within
  · rw [boundedSize_eq, ← Nat.not_le]
    change (if shape.Within then _ else _) = _ ↔ ¬ shape.Within ∧ _
    by_cases within : shape.Within
    · simp [within]
    · simp [within, eq_comm]
  · exact ⟨_, boundedSize_of_within ((within_of_boundedSize accepted).of_sublist among)⟩

-- The first product outgrows a word and the last axis is empty: neither makes the shape acceptable.
example : boundedSize [2 ^ 32, 2 ^ 32, 2, 0] = .error .tooLarge := by decide

theorem boundedSize_exact_of_empty_planes :
    boundedSize [4096, 0, 4096] = .ok 0 ∧ boundedSize [0, 4096, 4096] = .ok 0 ∧
      (∃ n, boundedSize [4096, 4096] = .ok n) ∧ boundedSize [4096, 0, 4097] = .error .tooLarge := by
  obtain ⟨accepts, -, rearranged, shortened⟩ := boundedSize_exact [4096, 0, 4096]
  obtain ⟨-, refuses, -, -⟩ := boundedSize_exact [4096, 0, 4097]
  have accepted : boundedSize [4096, 0, 4096] = .ok 0 := (accepts 0).mpr (by decide)
  have moved : List.Perm [0, 4096, 4096] [4096, 0, 4096] := by decide
  have among : List.Sublist [4096, 4096] [4096, 0, 4096] := by decide
  exact ⟨accepted, (rearranged _ moved).trans accepted, shortened _ among ⟨0, accepted⟩,
    (refuses _).mpr (by decide)⟩

end Tacit.Shape
