import Tacit.Proofs.Literals
import Tacit.Proofs.Sizes
import Tacit.Value.Equality

/-! What a value shows is a program that gives the value again. Numbers and characters are literals.
An array is written with a bracket for each axis, its rows of characters as strings; the literals along
an axis have one shape, so they are stacked to the array that they came from. -/
namespace Tacit

theorem Grid.chunks_map {α β : Type} (f : α → β) (count size : Nat) (data : List α) :
    chunks count size (data.map f) = (chunks count size data).map (List.map f) := by
  induction count generalizing data with
  | zero => rfl
  | succ count ih => rw [chunks, chunks, List.map_cons, ← List.map_drop, ← List.map_take, ih]

theorem Grid.mem_of_mem_chunks {α : Type} {count size : Nat} {data piece : List α} {a : α}
    (member : piece ∈ chunks count size data) (inside : a ∈ piece) : a ∈ data := by
  obtain ⟨i, -, rfl⟩ := Grid.mem_chunks member
  exact List.mem_of_mem_drop (List.mem_of_mem_take inside)

theorem Shape.length_of_mem_chunks {axis : Nat} {axes : Shape} {data piece : List Value}
    (count : data.length = size (axis :: axes)) (member : piece ∈ Grid.chunks axis (size axes) data) :
    piece.length = size axes := by
  obtain ⟨i, inside, rfl⟩ := Grid.mem_chunks member
  rw [List.length_take, List.length_drop, count]
  exact piece_eq_size inside

namespace Value

/-- A finite number or a character. -/
def isPlain : Value → Bool
  | number x => Number.isFinite x
  | character _ => true
  | array _ | function _ => false

def onNumber (f : Float → Float) : Value → Value
  | number x => number (f x)
  | value => value

theorem items_eq (data : List Value) :
    items data = data.map fun value => ⟨value.asCharacter?, value.text⟩ := by
  induction data with
  | nil => rfl
  | cons value data ih => rw [items, ih, List.map_cons]

theorem chunks_items (count size : Nat) (data : List Value) :
    Grid.chunks count size (items data) = (Grid.chunks count size data).map items := by
  rw [items_eq, Grid.chunks_map]
  exact List.map_congr_left fun piece _ => (items_eq piece).symm

theorem row_items (data : List Value) :
    Display.row (items data) =
      match data.mapM asCharacter? with
      | some (c :: rest) => Quoted.enclose '\x22' (c :: rest)
      | _ => Display.bracketed (data.map text) := by
  have characters : (items data).mapM Display.Item.character = data.mapM asCharacter? := by
    rw [items_eq, List.mapM_map]
    rfl
  have texts : (items data).map Display.Item.text = data.map text := by
    rw [items_eq, List.map_map]
    rfl
  change (match (items data).mapM Display.Item.character with
    | some (c :: rest) => Quoted.enclose '\x22' (c :: rest)
    | _ => Display.bracketed ((items data).map Display.Item.text)) = _
  rw [characters, texts]

theorem grid?_onNumber {value : Value} (plain : value.isPlain = true) (f : Float → Float) :
    (value.onNumber f).grid? = none := by
  cases value with
  | number x => rfl
  | character c => rfl
  | array grid => cases plain
  | function fn => cases plain

theorem eq_characters {data : List Value} {text : List Char} (all : data.mapM asCharacter? = some text) :
    data = text.map character := by
  induction data generalizing text with
  | nil =>
    cases all
    rfl
  | cons value data ih =>
    rw [List.mapM_cons] at all
    obtain ⟨c, isFirst, rest⟩ := Option.bind_eq_some_iff.mp all
    obtain ⟨others, areOthers, ⟨⟩⟩ := Option.bind_eq_some_iff.mp rest
    cases value <;> cases isFirst
    rw [ih areOthers, List.map_cons]

theorem stack_of_no_arrays {cells : List Value} (bare : ∀ cell ∈ cells, cell.grid? = none) :
    stack cells = .ok (Grid.vector cells) := by
  rw [stack, List.filterMap_eq_nil_iff.mpr bare]

/-- Arrays of one shape make an array with one more axis. -/
theorem stack_arrays {shape : Shape} {cells : List (List Value)} (some : cells ≠ []) :
    stack (cells.map fun data => array ⟨shape, data⟩) = .ok ⟨cells.length :: shape, cells.flatten⟩ := by
  have grids : (cells.map fun data => array ⟨shape, data⟩).filterMap grid? =
      cells.map fun data => ⟨shape, data⟩ := by
    simp only [List.filterMap_map, Function.comp_def, grid?, List.filterMap_eq_map']
  obtain ⟨first, others, rfl⟩ := List.exists_cons_of_ne_nil some
  have sameShape : (others.map fun data => (⟨shape, data⟩ : Grid Value)).find? (·.shape ≠ shape) = none := by
    simp
  have elements : ((first :: others).map fun data => (⟨shape, data⟩ : Grid Value)).flatMap Grid.data =
      (first :: others).flatten := by
    rw [List.flatMap_map]
    exact List.flatMap_id'
  rw [List.map_cons] at elements
  rw [stack, grids, List.map_cons]
  simp only [sameShape, elements, List.length_cons, List.length_map, ne_eq, not_true_eq_false, if_false]

/-- An array is the stack of its pieces along the leading axis. -/
theorem stack_chunks {axis : Nat} {axes : Shape} {data : List Value} (notEmpty : 1 ≤ axis)
    (count : data.length = Shape.size (axis :: axes)) :
    stack ((Grid.chunks axis (Shape.size axes) data).map fun piece => array ⟨axes, piece⟩) =
      .ok ⟨axis :: axes, data⟩ := by
  have some : Grid.chunks axis (Shape.size axes) data ≠ [] := by
    apply List.ne_nil_of_length_pos
    rw [Grid.length_chunks]
    exact notEmpty
  rw [Shape.size_cons] at count
  rw [stack_arrays some, Grid.length_chunks, Grid.flatten_chunks _ _ _ count]

theorem equal_onNumber {f : Float → Float} (same : ∀ x, Number.isFinite x = true → Number.equal (f x) x = true)
    {value : Value} (plain : value.isPlain = true) : (value.onNumber f).equal value = true := by
  cases value with
  | number x => simpa [onNumber, equal] using same x plain
  | character c => simp [onNumber, equal]
  | array grid => cases plain
  | function fn => cases plain

theorem equalAll_onNumber {f : Float → Float} (same : ∀ x, Number.isFinite x = true → Number.equal (f x) x = true)
    {data : List Value} (plain : ∀ value ∈ data, value.isPlain = true) :
    equalAll (data.map (onNumber f)) data = true := by
  induction data with
  | nil => rfl
  | cons value data ih =>
    obtain ⟨first, others⟩ := List.forall_mem_cons.mp plain
    rw [List.map_cons, equalAll, equal_onNumber same first, ih others]
    rfl

end Value

namespace Display

theorem layout_row {axis : Nat} (notEmpty : 1 ≤ axis) (items : List Item) :
    layout [axis] items = row items := by
  obtain ⟨n, rfl⟩ := Nat.exists_eq_add_of_le' notEmpty
  rfl

theorem layout_pieces {axis : Nat} (notEmpty : 1 ≤ axis) (second : Nat) (axes : Shape) (items : List Item) :
    layout (axis :: second :: axes) items =
      bracketed ((Grid.chunks axis (Shape.size (second :: axes)) items).map
        (layout (second :: axes))) := by
  obtain ⟨n, rfl⟩ := Nat.exists_eq_add_of_le' notEmpty
  rfl

end Display

section Numerals

variable {f : Float → Float} {levels : Nat}
  (reads : ∀ x levels, Number.isFinite x = true → Denotes levels (Number.text x) (.number (f x)))

include reads

theorem denotes_plain {value : Value} (plain : value.isPlain = true) :
    Denotes levels value.text (value.onNumber f) := by
  cases value with
  | number x => exact reads x levels plain
  | character c => exact (literal_character c).denotes levels
  | array grid => cases plain
  | function fn => cases plain

theorem denotes_row {data : List Value} (some : data ≠ []) (plain : ∀ value ∈ data, value.isPlain = true) :
    Denotes (levels + 1) (Display.row (Value.items data)) (.array (Grid.vector (data.map (Value.onNumber f)))) := by
  rw [Value.row_items]
  cases all : data.mapM Value.asCharacter? with
  | none =>
    have literals : List.Forall₂ (Denotes levels) (data.map Value.text) (data.map (Value.onNumber f)) := by
      rw [List.forall₂_map_left_iff, List.forall₂_map_right_iff, List.forall₂_same]
      intro value member
      exact denotes_plain reads (plain value member)
    refine denotes_bracketed (by simpa using some) literals (Value.stack_of_no_arrays fun cell member => ?_)
    obtain ⟨value, isValue, rfl⟩ := List.mem_map.mp member
    exact Value.grid?_onNumber (plain value isValue) f
  | some text =>
    obtain rfl := Value.eq_characters all
    have same : (text.map Value.character).map (Value.onNumber f) = text.map Value.character := by
      rw [List.map_map]
      rfl
    obtain ⟨c, rest, rfl⟩ := List.exists_cons_of_ne_nil (show text ≠ [] by simpa using some)
    rw [same]
    exact (literal_string (c :: rest)).denotes (levels + 1)

/-- The text of an array denotes the array. Every axis takes one level of brackets. -/
theorem denotes_layout {axis : Nat} {axes : Shape} {data : List Value} (fits : axes.length ≤ levels)
    (filled : ∀ length ∈ axis :: axes, 1 ≤ length) (count : data.length = Shape.size (axis :: axes))
    (plain : ∀ value ∈ data, value.isPlain = true) :
    Denotes (levels + 1) (Display.layout (axis :: axes) (Value.items data))
      (.array ⟨axis :: axes, data.map (Value.onNumber f)⟩) := by
  have notEmpty : 1 ≤ axis := filled axis List.mem_cons_self
  induction axes generalizing axis levels data with
  | nil =>
    have isLength : data.length = axis := by
      rw [count, Shape.size_cons, Shape.size_nil, Nat.mul_one]
    have some : data ≠ [] := by
      apply List.ne_nil_of_length_pos
      omega
    have denotes : Denotes (levels + 1) _ _ := denotes_row reads some plain
    rw [Grid.vector, List.length_map, isLength] at denotes
    rwa [Display.layout_row notEmpty]
  | cons second axes ih =>
    rw [List.length_cons] at fits
    obtain ⟨inner, rfl⟩ : ∃ inner, levels = inner + 1 := ⟨levels - 1, by omega⟩
    let pieces := Grid.chunks axis (Shape.size (second :: axes)) data
    have inside (piece : List Value) (member : piece ∈ pieces) :
        Denotes (inner + 1) (Display.layout (second :: axes) (Value.items piece))
          (.array ⟨second :: axes, piece.map (Value.onNumber f)⟩) := by
      have filledInside := (List.forall_mem_cons.mp filled).2
      refine ih (by omega) filledInside (Shape.length_of_mem_chunks count member) ?_
        (filledInside second List.mem_cons_self)
      intro value isValue
      exact plain value (Grid.mem_of_mem_chunks member isValue)
    have stacked : Value.stack (pieces.map fun piece => .array ⟨second :: axes, piece.map (Value.onNumber f)⟩) =
        .ok ⟨axis :: second :: axes, data.map (Value.onNumber f)⟩ := by
      rw [← Value.stack_chunks notEmpty (by rwa [List.length_map]), Grid.chunks_map, List.map_map]
      rfl
    have some : pieces ≠ [] := by
      apply List.ne_nil_of_length_pos
      rwa [Grid.length_chunks]
    rw [Display.layout_pieces notEmpty, Value.chunks_items, List.map_map]
    refine denotes_bracketed (mt List.map_eq_nil_iff.mp some) ?_ stacked
    rw [List.forall₂_map_left_iff, List.forall₂_map_right_iff, List.forall₂_same]
    exact inside

end Numerals

/-- Arrays that brackets can spell: they have an axis and no more axes than levels can be nested, no axis
is empty, and the elements are finite numbers and characters. -/
structure Grid.Spellable (grid : Grid Value) : Prop where
  someAxis : 1 ≤ grid.rank
  rank : grid.rank ≤ defaultLimit
  filled : ∀ length ∈ grid.shape, 1 ≤ length
  count : grid.data.length = Shape.size grid.shape
  plain : ∀ value ∈ grid.data, value.isPlain = true

/-- A finite number, a character, or an array of them that brackets can spell. -/
inductive Value.Spellable : Value → Prop
  | plain {value : Value} (plain : value.isPlain = true) : Spellable value
  | array {grid : Grid Value} (spellable : grid.Spellable) : Spellable (.array grid)

/-- What a value shows gives the value again and leaves the environment alone. -/
theorem submit_display {value : Value} (spellable : value.Spellable) (env : Env) :
    ∃ again, submit value.display env = (.ok (some again), env) ∧ again.equal value = true := by
  -- The numbers may come back with the other sign of zero, so each of them is replaced by what it reads as.
  choose! f denotes same using exists_denotes_number
  have reads (x : Float) (levels : Nat) (finite : Number.isFinite x = true) :
      Denotes levels (Number.text x) (.number (f x)) := denotes x finite levels
  cases spellable with
  | plain plain =>
    have whole : Denotes defaultLimit value.text (value.onNumber f) := denotes_plain reads plain
    exact ⟨_, whole.submit env, Value.equal_onNumber same plain⟩
  | @array grid spellable =>
    obtain ⟨axis | ⟨axis, axes⟩, data⟩ := grid
    · cases spellable.someAxis
    have whole := denotes_layout reads (Nat.le_of_succ_le_succ spellable.rank) spellable.filled spellable.count
      spellable.plain
    refine ⟨_, Denotes.submit whole env, ?_⟩
    simpa [Value.equal] using Value.equalAll_onNumber same spellable.plain

theorem submit_display_of_matrix :
    let value : Value := .array ⟨[2, 2], [.character '\x22', .character '\n', .number (-2.5), .number (-0.0)]⟩
    value.Spellable ∧ value.display = "[\x22\\\x22\\n\x22 ⋄ [¯2.5 ⋄ 0]]" ∧
      ∃ again, submit value.display .empty = (.ok (some again), .empty) ∧ again.equal value = true := by
  have spellable : Value.Spellable (.array ⟨[2, 2],
      [.character '\x22', .character '\n', .number (-2.5), .number (-0.0)]⟩) := by
    refine .array ⟨by decide, by decide, by decide, by decide, by decide⟩
  refine ⟨spellable, by decide +kernel, submit_display spellable .empty⟩

end Tacit
