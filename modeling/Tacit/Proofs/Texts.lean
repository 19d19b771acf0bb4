import Tacit.Proofs.RoundTrip

/-! The texts of values. Equal numbers are written alike, only characters are written as characters are, and
a stack is written as its cells with brackets around them, whether the cells are arrays or not. -/
namespace Tacit

theorem Number.text_of_equal {x y : Float} (same : equal x y = true) : text x = text y := by
  by_cases nan : isNaN x = true
  · simp [equal, position, nan] at same
  by_cases nan' : isNaN y = true
  · simp [equal, position, nan'] at same
  simp only [equal, position, nan, nan', Bool.false_eq_true, if_false, decide_eq_true_eq] at same
  have magnitudes : magnitude x = magnitude y := by
    split_ifs at same <;> omega
  by_cases zero : magnitude y = 0
  · simp only [text, nan, nan', magnitudes, zero, if_true]
  have signs : isNegative x = isNegative y := by
    cases negative : isNegative x <;> cases negative' : isNegative y <;>
      simp only [negative, negative', if_true, Bool.false_eq_true, if_false] at same ⊢ <;> omega
  rw [text, text, isNaN, isFinite, isNaN, isFinite, magnitudes, signs]

theorem Number.text_of_not_finite {x : Float} (infinite : ¬ isFinite x = true) :
    text x = ['N', 'a', 'N'] ∨ text x = ['∞'] ∨ text x = ['¯', '∞'] := by
  have zero : ¬ magnitude x = 0 := by
    intro zero
    rw [isFinite, zero] at infinite
    exact infinite (decide_eq_true (Nat.mul_pos (by omega) binade_pos))
  rw [text]
  simp only [zero, infinite, if_false]
  split
  · exact .inl rfl
  · split <;> simp

theorem Display.head_layout (shape : Shape) (items : List Item) : (layout shape items).head? ≠ some '\x27' := by
  fun_cases layout shape items with
  | case1 | case2 | case4 => simp [bracketed]
  | case3 =>
    unfold row
    split <;> simp [Quoted.enclose, bracketed]

/-- Only the text of a character begins with its quote. -/
theorem Value.head_text_of_not_character {value : Value} (other : value.asCharacter? = none) :
    value.text.head? ≠ some '\x27' := by
  cases value with
  | number x =>
    rw [text]
    by_cases finite : Number.isFinite x = true
    · obtain ⟨c, more, isText, begins⟩ := Number.head_text finite
      rw [isText]
      rintro ⟨⟩
      simp at begins
    · rcases Number.text_of_not_finite finite with isText | isText | isText <;> simp [isText]
  | character c => cases other
  | array grid =>
    rw [text]
    exact Display.head_layout grid.shape (items grid.data)
  | function fn =>
    rw [text]
    cases fn.arity <;> simp [Arity.name]

theorem Value.head_text_of_character {value : Value} {c : Char} (isCharacter : value.asCharacter? = some c) :
    value.text.head? = some '\x27' := by
  cases value <;> cases isCharacter
  rfl

theorem Grid.chunks_flatten {α : Type} {size : Nat} {pieces : List (List α)}
    (each : ∀ piece ∈ pieces, piece.length = size) : chunks pieces.length size pieces.flatten = pieces := by
  induction pieces with
  | nil => rfl
  | cons piece pieces ih =>
    obtain ⟨first, others⟩ := List.forall_mem_cons.mp each
    rw [List.length_cons, List.flatten_cons, chunks, List.take_left' first, List.drop_left' first, ih others]

namespace Value

/-- An array that has an axis and as many elements as its shape says. -/
def Proper : Value → Prop
  | array grid => grid.shape ≠ [] ∧ grid.data.length = Shape.size grid.shape
  | _ => True

theorem mapM_asCharacter?_eq_none {data : List Value} :
    data.mapM asCharacter? = none ↔ ∃ value ∈ data, value.asCharacter? = none := by
  induction data with
  | nil => simp
  | cons value data ih =>
    rw [List.mapM_cons, List.exists_mem_cons_iff, ← ih]
    cases value.asCharacter? <;> cases data.mapM asCharacter? <;> simp

theorem row_items_of_mixed {data : List Value} (mixed : ∃ value ∈ data, value.asCharacter? = none) :
    Display.row (items data) = Display.bracketed (data.map text) := by
  rw [row_items, mapM_asCharacter?_eq_none.mpr mixed]

theorem eq_map_array {cells : List Value} (all : (cells.filterMap grid?).length = cells.length) :
    cells = (cells.filterMap grid?).map array := by
  induction cells with
  | nil => rfl
  | cons cell cells ih =>
    have fewer := List.length_filterMap_le grid? cells
    cases cell with
    | array grid =>
      have isArray : grid? (array grid) = some grid := rfl
      rw [List.filterMap_cons_some isArray] at all ⊢
      rw [List.map_cons, ← ih (Nat.succ.inj all)]
    | number | character | function =>
      rw [List.filterMap_cons_none rfl, List.length_cons] at all
      omega

/-- A stack is a vector of values that are no arrays, or arrays of one shape one after the other. -/
theorem stack_cases {cells : List Value} {grid : Grid Value} (stacked : stack cells = .ok grid) :
    (grid = Grid.vector cells ∧ ∀ cell ∈ cells, cell.grid? = none) ∨
      ∃ (shape : Shape) (pieces : List (List Value)), cells = pieces.map (fun data => array ⟨shape, data⟩) ∧
        grid = ⟨pieces.length :: shape, pieces.flatten⟩ := by
  unfold stack at stacked
  split at stacked
  · rename_i bare
    exact .inl ⟨(Except.ok.inj stacked).symm, List.filterMap_eq_nil_iff.mp bare⟩
  · rename_i first others grids
    split_ifs at stacked with count
    cases found : others.find? (·.shape ≠ first.shape) with
    | some other =>
      rw [found] at stacked
      cases stacked
    | none =>
      rw [found] at stacked
      have isGrid := (Except.ok.inj stacked).symm
      have sameShape : ∀ grid ∈ first :: others, grid = ⟨first.shape, grid.data⟩ := by
        have others : ∀ grid ∈ others, grid.shape = first.shape := by simpa using found
        rintro ⟨shape, data⟩ member
        rcases List.mem_cons.mp member with rfl | member
        · rfl
        · simpa using others _ member
      have count : (cells.filterMap grid?).length = cells.length := by
        rw [grids]
        exact not_not.mp count
      have isCells := eq_map_array count
      rw [grids] at isCells
      refine .inr ⟨first.shape, (first :: others).map Grid.data, ?_, ?_⟩
      · rw [isCells, List.map_map]
        exact List.map_congr_left fun grid member => congrArg array (sameShape grid member)
      · rw [isGrid, isCells]
        simp [List.flatMap_def]

/-- A stack is written as its cells between brackets, unless it makes a string. -/
theorem text_stack {cells : List Value} {grid : Grid Value} (stacked : stack cells = .ok grid)
    (proper : ∀ cell ∈ cells, cell.Proper) (mixed : ∃ cell ∈ cells, cell.asCharacter? = none) :
    (array grid).text = Display.bracketed (cells.map text) ∧ (array grid).Proper := by
  have some : 1 ≤ cells.length := by
    obtain ⟨cell, member, -⟩ := mixed
    exact List.length_pos_of_mem member
  rcases stack_cases stacked with ⟨rfl, -⟩ | ⟨shape, pieces, rfl, rfl⟩
  · constructor
    · rw [Grid.vector, text, Display.layout_row some, row_items_of_mixed mixed]
    · simp [Proper, Grid.vector]
  · rw [List.length_map] at some
    have each : ∀ piece ∈ pieces, shape ≠ [] ∧ piece.length = Shape.size shape := by
      intro piece isPiece
      exact proper _ (List.mem_map_of_mem isPiece)
    have filled : ∀ piece ∈ pieces, piece.length = Shape.size shape := fun piece isPiece => (each piece isPiece).2
    constructor
    · obtain ⟨piece, isPiece⟩ := List.exists_mem_of_length_pos some
      obtain ⟨axis, axes, rfl⟩ := List.exists_cons_of_ne_nil (each piece isPiece).1
      rw [text, Display.layout_pieces some, chunks_items, Grid.chunks_flatten filled, List.map_map, List.map_map]
      rfl
    · refine ⟨by simp, ?_⟩
      rw [List.length_flatten, List.map_congr_left filled]
      simp

end Value

end Tacit
