import Tacit.Fault

/-! Rectangular arrays in row-major order. A grid of rank zero has one element. Grids are plain
data; the operations keep the number of elements equal to the product of the shape. -/
namespace Tacit

namespace Shape

/-- The most elements that an array made by a computation may have. -/
def sizeLimit : Nat := Nat.pow 2 24

def product? (m n : Nat) : Option Nat := if m * n < Nat.pow 2 64 then some (m * n) else none

/-- The product of the axes that are not empty, if it is within the limit. It is multiplied up word by
word and compared with the limit only at the end. -/
def extent? (shape : Shape) : Option Nat :=
  ((shape.filter (· ≠ 0)).foldlM product? 1).filter (· ≤ sizeLimit)

/-- The number of elements of a shape within the limit. The limit counts only the axes that are not
empty, so that no part of an accepted shape is beyond it. -/
def boundedSize (shape : Shape) : Result Nat :=
  match extent? shape with
  | some extent => .ok (if 0 ∈ shape then 0 else extent)
  | none => .error .tooLarge

/-- A product that has outgrown a word stays too large, as no axis that follows is empty. -/
theorem foldlM_product? {axes : Shape} (proper : 0 ∉ axes) {start : Nat} (fits : start < Nat.pow 2 64) :
    axes.foldlM product? start =
      if start * size axes < Nat.pow 2 64 then some (start * size axes) else none := by
  induction axes generalizing start with
  | nil => simp [fits]
  | cons axis axes ih =>
    have others : 0 ∉ axes := fun member => proper (List.mem_cons_of_mem axis member)
    have positive : 0 < size axes := Nat.pos_of_ne_zero (mt (size_eq_zero_iff axes).mp others)
    rw [List.foldlM_cons, size_cons, ← Nat.mul_assoc, product?]
    by_cases room : start * axis < Nat.pow 2 64
    · rw [if_pos room]
      exact ih others room
    · have grown : start * axis ≤ start * axis * size axes := Nat.le_mul_of_pos_right _ positive
      rw [if_neg room, if_neg (by omega)]
      rfl

theorem extent?_eq (shape : Shape) :
    extent? shape =
      if size (shape.filter (· ≠ 0)) ≤ sizeLimit then some (size (shape.filter (· ≠ 0))) else none := by
  have limits : sizeLimit < Nat.pow 2 64 := by decide
  rw [extent?, foldlM_product? (by simp) (by decide), Nat.one_mul]
  by_cases fits : size (shape.filter (· ≠ 0)) < Nat.pow 2 64
  · rw [if_pos fits, Option.filter_some]
    simp
  · rw [if_neg fits, if_neg (by omega), Option.filter_none]

/-- The check of a shape in one comparison: no product outgrows a word before it outgrows the limit. -/
theorem boundedSize_eq (shape : Shape) :
    boundedSize shape =
      if size (shape.filter (· ≠ 0)) ≤ sizeLimit then .ok (size shape) else .error .tooLarge := by
  have whole : (if 0 ∈ shape then 0 else size (shape.filter (· ≠ 0))) = size shape := by
    by_cases empty : 0 ∈ shape
    · rw [if_pos empty, (size_eq_zero_iff shape).mpr empty]
    · have proper : ∀ axis ∈ shape, decide (axis ≠ 0) = true := by
        intro axis member
        exact decide_eq_true fun isEmpty => empty (isEmpty ▸ member)
      rw [if_neg empty, List.filter_eq_self.mpr proper]
  rw [boundedSize, extent?_eq]
  by_cases within : size (shape.filter (· ≠ 0)) ≤ sizeLimit
  · rw [if_pos within, if_pos within]
    exact congrArg Except.ok whole
  · rw [if_neg within, if_neg within]

end Shape

structure Grid (α : Type) where
  shape : Shape
  data : List α

namespace Grid

variable {α : Type}

def ofShape (shape : Shape) (data : List α) : Result (Grid α) := do
  let size ← Shape.boundedSize shape
  if size ≠ data.length then
    throw (.shapeMismatch (.elements shape size data.length))
  return ⟨shape, data⟩

def vector (data : List α) : Grid α := ⟨[data.length], data⟩

def rank (grid : Grid α) : Nat := grid.shape.length

def length (grid : Grid α) : Nat := grid.shape.head?.getD 0

def reshaped (grid : Grid α) (shape : Shape) : Result (Grid α) := ofShape shape grid.data

def chunks : (count size : Nat) → List α → List (List α)
  | 0, _, _ => []
  | count + 1, size, data => data.take size :: chunks count size (data.drop size)

@[simp] theorem length_chunks (count size : Nat) (data : List α) :
    (chunks count size data).length = count := by
  induction count generalizing data with
  | zero => rfl
  | succ count ih => simp [chunks, ih]

theorem flatten_chunks (count size : Nat) (data : List α) (even : data.length = count * size) :
    (chunks count size data).flatten = data := by
  induction count generalizing data with
  | zero => simp [chunks, List.eq_nil_of_length_eq_zero (by simpa using even)]
  | succ count ih =>
    have rest : (data.drop size).length = count * size := by
      rw [List.length_drop, even, Nat.succ_mul, Nat.add_sub_cancel]
    rw [chunks, List.flatten_cons, ih _ rest, List.take_append_drop]

/-- The frame and the cells of the trailing `rank` axes, in order. -/
def cells (grid : Grid α) (rank : Nat) : Shape × List (Grid α) :=
  let frame := grid.shape.take (grid.rank - rank)
  let cellShape := grid.shape.drop (grid.rank - rank)
  (frame, (chunks (Shape.size frame) (Shape.size cellShape) grid.data).map (⟨cellShape, ·⟩))

end Grid

end Tacit
