import Tacit.Proofs.Sizes
import Tacit.Proofs.Texts

/-! A scan is the fold of every prefix. Taking an array apart into its major cells and putting cells together
are inverse to each other, so the folds can be read off the scan again: each is the major cell at the place of
the last cell of its prefix, and the last of all, which an index of minus one selects, is the reduction of the
whole array. -/
namespace Tacit

namespace Shape

theorem within_nil : Within [] := by decide

theorem Within.drop_leading {shape : Shape} (within : shape.Within) : Within shape.tail := by
  cases shape with
  | nil => exact within
  | cons axis axes => exact within.tail

theorem Within.length_le {α : Type} {grid : Grid α} (within : grid.shape.Within) : grid.length ≤ sizeLimit := by
  obtain ⟨shape, data⟩ := grid
  cases shape with
  | nil => exact Nat.zero_le _
  | cons axis axes =>
    obtain ⟨frame, -⟩ := Within.of_append (show Within ([axis] ++ axes) from within)
    simpa [Grid.length] using frame.size_le

end Shape

namespace Grid

theorem getElem?_chunks {α : Type} {count size i : Nat} (data : List α) (inside : i < count) :
    (chunks count size data)[i]? = some ((data.drop (i * size)).take size) := by
  induction count generalizing i data with
  | zero => omega
  | succ count ih =>
    cases i with
    | zero => simp [chunks]
    | succ i =>
      have later := ih (data.drop size) (Nat.lt_of_succ_lt_succ inside)
      rw [List.drop_drop, Nat.add_comm, ← Nat.succ_mul] at later
      exact later

theorem ofShape_of_within {α : Type} {shape : Shape} {data : List α} (within : shape.Within)
    (filled : data.length = shape.size) : ofShape shape data = .ok ⟨shape, data⟩ := by
  have bounded : shape.boundedSize = .ok shape.size := Shape.boundedSize_of_within within
  simp [ofShape, bounded, filled, bind, Except.bind, pure, Except.pure]

end Grid

namespace Value

theorem majorCells_vector (cells : List Value) : majorCells (Grid.vector cells) = cells := by
  simp [majorCells, Grid.vector, Grid.rank]

/-- Full pieces put one after the other are the major cells of what they make up. -/
theorem majorCells_of_pieces {shape : Shape} {pieces : List (List Value)} (axes : shape ≠ [])
    (full : ∀ piece ∈ pieces, piece.length = shape.size) :
    majorCells ⟨pieces.length :: shape, pieces.flatten⟩ = pieces.map fun piece => array ⟨shape, piece⟩ := by
  obtain ⟨second, others, rfl⟩ := List.exists_cons_of_ne_nil axes
  rw [majorCells_of_axes, Grid.chunks_flatten full]

/-- A stack gives back the cells it is made of, if some of them has an axis. -/
theorem majorCells_stack {cells : List Value} {stacked first : Grid Value} (made : stack cells = .ok stacked)
    (filled : ∀ cell ∈ cells, cell.WellFormed) (isCell : array first ∈ cells) (axes : first.shape ≠ []) :
    majorCells stacked = cells ∧
      ∃ shape, stacked.shape = cells.length :: shape ∧ (shape = [] ∨ shape = first.shape) := by
  rcases stack_cases made with ⟨rfl, -⟩ | ⟨shape, pieces, rfl, rfl⟩
  · exact ⟨majorCells_vector cells, [], rfl, .inl rfl⟩
  · obtain ⟨piece, -, same⟩ := List.mem_map.mp isCell
    cases same
    have full : ∀ piece ∈ pieces, piece.length = shape.size := by
      intro piece isPiece
      exact (meets_array.mp (filled _ (List.mem_map_of_mem isPiece))).1
    exact ⟨majorCells_of_pieces axes full, shape, by simp, .inr rfl⟩

theorem length_majorCells {axis : Nat} {axes : Shape} {data : List Value}
    (filled : data.length = Shape.size (axis :: axes)) : (majorCells ⟨axis :: axes, data⟩).length = axis := by
  cases axes with
  | nil => simpa [majorCells, Grid.rank] using filled
  | cons second axes => simp [majorCells_of_axes]

theorem length_majorCells_of_axis {grid : Grid Value} (filled : (array grid).WellFormed) (axes : 1 ≤ grid.rank) :
    (majorCells grid).length = grid.length := by
  obtain ⟨axis, others, same⟩ := List.exists_cons_of_length_pos axes
  obtain ⟨shape, data⟩ := grid
  subst same
  exact length_majorCells (meets_array.mp filled).1

/-- Above rank one the major cells are arrays, of the axes behind the leading one. -/
theorem majorCells_eq_cons {grid : Grid Value} (above : 2 ≤ grid.rank) (nonempty : 0 < grid.length) :
    ∃ first others, majorCells grid = array first :: others ∧ first.shape = grid.shape.tail := by
  obtain ⟨shape, data⟩ := grid
  match shape, above with
  | axis :: second :: axes, _ =>
    obtain ⟨count, rfl⟩ := Nat.exists_eq_add_of_lt nonempty
    rw [majorCells_of_axes, Nat.zero_add]
    exact ⟨_, _, rfl, rfl⟩

theorem select_number {index : Float} {i : Int} {axis position : Nat} {axes : Shape} {data : List Value}
    {cell : Value} (isIndex : Number.toInteger index = .ok i)
    (isPosition : Number.axisPosition i axis = .ok position)
    (filled : data.length = Shape.size (axis :: axes)) (within : axes.Within)
    (isCell : (majorCells ⟨axis :: axes, data⟩)[position]? = some cell) :
    (number index).select (array ⟨axis :: axes, data⟩) = .ok cell := by
  have taken : cellData ⟨axis :: axes, data⟩ (number index) =
      .ok ((data.drop (position * axes.size)).take axes.size) := by
    simp [cellData, expectIndex, expectNumber, isIndex, isPosition, Grid.length, bind, Except.bind, pure,
      Except.pure]
  have inside : position < axis := by
    obtain ⟨below, -⟩ := List.getElem?_eq_some_iff.mp isCell
    rwa [length_majorCells filled] at below
  cases axes with
  | nil =>
    have element : data[position]? = some cell := by simpa [majorCells, Grid.rank] using isCell
    have single : (data.drop (position * Shape.size [])).take (Shape.size []) = [cell] := by
      simp [List.take_one, element]
    rw [single] at taken
    simp [select, expectArray, Grid.rank, taken, bind, Except.bind, pure, Except.pure]
  | cons second axes =>
    rw [majorCells_of_axes, List.getElem?_map, Grid.getElem?_chunks data inside] at isCell
    cases isCell
    have full : ((data.drop (position * Shape.size (second :: axes))).take (Shape.size (second :: axes))).length =
        Shape.size (second :: axes) := by
      rw [List.length_take, List.length_drop, filled]
      exact Shape.piece_eq_size inside
    have made := Grid.ofShape_of_within within full
    simp [select, expectArray, Grid.rank, taken, made, bind, Except.bind, pure, Except.pure, -Shape.size_cons]

end Value

namespace Iteration

/-- The cells `before` with a function put between them from the right, beginning at `last`. -/
def foldOnto (call : Call) (before : List Value) (last : Value) : Result Value :=
  before.foldrM (fun cell folded => call [cell, folded]) last

theorem foldFromRight_append (call : Call) (before : List Value) (last : Value) :
    foldFromRight call (before ++ [last]) = foldOnto call before last := by
  induction before with
  | nil => rfl
  | cons cell before ih =>
    rw [foldOnto, List.foldrM_cons, ← foldOnto, ← ih, List.cons_append, foldFromRight]
    simp

/-- At the place of each cell stands the fold of the prefix that ends with it. -/
structure PrefixFolds (call : Call) (cells folds : List Value) : Prop where
  count : folds.length = cells.length
  fold : ∀ before cell after, cells = before ++ cell :: after →
    ∃ folded, folds[before.length]? = some folded ∧ foldOnto call before cell = .ok folded

def foldPrefixes (call : Call) (cells : List Value) : Result (List Value) :=
  (List.range cells.length).mapM fun i => foldFromRight call (cells.take (i + 1))

theorem prefixFolds_of_ok {call : Call} {cells folds : List Value}
    (ran : foldPrefixes call cells = .ok folds) : PrefixFolds call cells folds := by
  have pairs := mapM_eq_ok.mp ran
  have count := pairs.length_eq
  rw [List.length_range] at count
  refine ⟨count.symm, ?_⟩
  rintro before cell after rfl
  have inside : before.length < folds.length := by simp [← count]
  refine ⟨folds[before.length], List.getElem?_eq_getElem inside, ?_⟩
  have ended := (List.forall₂_iff_get.mp pairs).2 before.length (by simp) inside
  have whole : (before ++ cell :: after).take (before.length + 1) = before ++ [cell] := by
    rw [List.append_cons]
    exact List.take_left' (by simp)
  simpa [whole, foldFromRight_append] using ended

theorem split_of_error {call : Call} {cells : List Value} {e : Fault}
    (failed : foldPrefixes call cells = .error e) :
    ∃ before cell after, cells = before ++ cell :: after ∧ foldOnto call before cell = .error e := by
  obtain ⟨i, reached, failed⟩ := mapM_eq_error failed
  have inside : i < cells.length := List.mem_range.mp (mem_of_mem_untilFailure reached)
  refine ⟨cells.take i, cells[i], cells.drop (i + 1), ?_, ?_⟩
  · rw [List.getElem_cons_drop, List.take_append_drop]
  · rwa [List.take_succ_eq_append_getElem inside, foldFromRight_append] at failed

/-- Where there is something to fold, a scan folds all prefixes and puts the folds together. -/
theorem scan_of_axis (call : Call) {grid : Grid Value} (axes : 1 ≤ grid.rank) (nonempty : 0 < grid.length) :
    scan call (.array grid) = (do
      let folds ← foldPrefixes call (Value.majorCells grid)
      if grid.rank = 1 then return .array (Grid.vector folds)
      return .array (← Value.stack folds)) := by
  have proper : ¬ (grid.rank = 0 ∨ grid.length = 0) := by omega
  exact if_neg proper

theorem foldPrefixes_majorCells (call : Call) {grid : Grid Value} (axes : 1 ≤ grid.rank)
    (nonempty : 0 < grid.length) :
    foldPrefixes call (Value.majorCells grid) = (scanPrefixes grid).mapM (foldFromRight call) := by
  have proper : ¬ (grid.rank = 0 ∨ grid.length = 0) := by omega
  simp [foldPrefixes, scanPrefixes, proper, List.mapM_map, Function.comp_def]

/-- The fold of the first cell alone is that cell, which above rank one is an array with axes. -/
theorem PrefixFolds.exists_array {call : Call} {grid : Grid Value} {folds : List Value}
    (folded : PrefixFolds call (Value.majorCells grid) folds) (above : 2 ≤ grid.rank) (nonempty : 0 < grid.length) :
    ∃ first : Grid Value, .array first ∈ folds ∧ first.shape ≠ [] ∧ first.shape = grid.shape.tail := by
  obtain ⟨first, others, begins, isTail⟩ := Value.majorCells_eq_cons above nonempty
  obtain ⟨v, isFold, same⟩ := folded.fold [] (.array first) others begins
  cases same
  have axes : first.shape ≠ [] := by
    apply List.ne_nil_of_length_pos
    rw [isTail, List.length_tail]
    exact Nat.sub_pos_of_lt above
  exact ⟨first, List.mem_of_getElem? isFold, axes, isTail⟩

theorem PrefixFolds.last {call : Call} {cells folds : List Value} (folded : PrefixFolds call cells folds)
    (nonempty : cells ≠ []) :
    ∃ v, folds[cells.length - 1]? = some v ∧ foldFromRight call cells = .ok v := by
  have ended := List.dropLast_append_getLast nonempty
  obtain ⟨v, isFold, yields⟩ := folded.fold cells.dropLast (cells.getLast nonempty) [] ended.symm
  rw [List.length_dropLast] at isFold
  rw [← foldFromRight_append, ended] at yields
  exact ⟨v, isFold, yields⟩

theorem keeps_wellFormed {f : Fn} (function : (Value.function f).WellFormed) (calls : List (List Value)) :
    Keeps .wellFormed f.call calls := by
  intro args _ held v yields
  have constants := (Value.meets_function.mp function).2
  exact Fn.call_meets closed_wellFormed constants held (f.yieldsOnly_anything args) yields

/-- The major cells of a scan are the folds. Above rank one the first of them is the first major cell, so all
of them have its shape. -/
theorem majorCells_scan {f : Fn} {grid : Grid Value} {s : Value} (function : (Value.function f).WellFormed)
    (filled : (Value.array grid).WellFormed) (axes : 1 ≤ grid.rank) (nonempty : 0 < grid.length)
    (yields : scan f.call (.array grid) = .ok s) :
    ∃ result, s = .array result ∧ PrefixFolds f.call (Value.majorCells grid) (Value.majorCells result) ∧
      ∃ shape, result.shape = grid.length :: shape ∧ (shape = [] ∨ shape = grid.shape.tail) := by
  rw [scan_of_axis f.call axes nonempty, bind_eq_ok] at yields
  obtain ⟨folds, ran, yields⟩ := yields
  have folded := prefixFolds_of_ok ran
  have count : folds.length = grid.length := by
    rw [folded.count, Value.length_majorCells_of_axis filled axes]
  split at yields
  · cases yields
    refine ⟨Grid.vector folds, rfl, ?_, [], by rw [Grid.vector, count], .inl rfl⟩
    rwa [Value.majorCells_vector]
  · rename_i notVector
    simp only [bind_eq_ok, pure_eq_ok] at yields
    obtain ⟨stacked, made, rfl⟩ := yields
    have met : ∀ fold ∈ folds, fold.WellFormed := by
      rw [foldPrefixes_majorCells f.call axes nonempty] at ran
      exact scanFolds_meet closed_wellFormed filled (keeps_wellFormed function _) ran
    obtain ⟨first, isFold, notEmpty, isTail⟩ := folded.exists_array (by omega) nonempty
    obtain ⟨cells, shape, isShape, among⟩ := Value.majorCells_stack made met isFold notEmpty
    rw [count] at isShape
    rw [isTail] at among
    exact ⟨stacked, rfl, by rwa [cells], shape, isShape, among⟩

end Iteration

theorem Number.axisPosition_last {length : Nat} (nonempty : 0 < length) (bound : length ≤ maxLength) :
    axisPosition (-1) length = .ok (length - 1) := by
  have fits : ¬ maxLength < length := by omega
  have inside : ¬ ((-1 : Int) + length < 0 ∨ (length : Int) ≤ -1 + length) := by omega
  have negative : (-1 : Int) < 0 := by omega
  simp only [axisPosition, if_neg fits, if_pos negative, if_neg inside]
  congr 1
  omega

theorem Value.select_last {grid : Grid Value} {axis : Nat} {axes : Shape} {cell : Value}
    (filled : (array grid).WellFormed) (isShape : grid.shape = axis :: axes) (within : axes.Within)
    (nonempty : 0 < axis) (bound : axis ≤ Number.maxLength)
    (isCell : (majorCells grid)[axis - 1]? = some cell) : (number (-1)).select (array grid) = .ok cell := by
  obtain ⟨shape, data⟩ := grid
  cases isShape
  have isIndex : Number.toInteger (-1) = .ok (-1) := by decide +kernel
  have isPosition := Number.axisPosition_last nonempty bound
  exact select_number isIndex isPosition (meets_array.mp filled).1 within isCell

namespace Iteration

/-- All arrays being well-formed, those held by the function included: a scan that succeeds has the folds of
all prefixes for its major cells, and the last of them, selected by minus one, is the reduction of the whole
array. One that fails does so because the fold of some prefix does, or because the folds of an array of several
axes do not stack. -/
theorem scan_eq_prefixFolds {f : Fn} {grid : Grid Value} (function : (Value.function f).WellFormed)
    (filled : (Value.array grid).WellFormed) (within : grid.shape.Within) (axes : 1 ≤ grid.rank)
    (nonempty : 0 < grid.length) :
    (∀ s, scan f.call (.array grid) = .ok s →
      ∃ result, s = .array result ∧ (Value.majorCells result).length = grid.length ∧
        PrefixFolds f.call (Value.majorCells grid) (Value.majorCells result) ∧
        ∃ v, reduce f.call (.array grid) = .ok v ∧ (Value.number (-1)).select s = .ok v) ∧
    ∀ e, scan f.call (.array grid) = .error e →
      (∃ before cell after, Value.majorCells grid = before ++ cell :: after ∧
        foldOnto f.call before cell = .error e) ∨
      (2 ≤ grid.rank ∧ ∃ folds, PrefixFolds f.call (Value.majorCells grid) folds ∧
        Value.stack folds = .error e) := by
  have count := Value.length_majorCells_of_axis filled axes
  constructor
  · intro s yields
    obtain ⟨result, rfl, folded, shape, isShape, among⟩ := majorCells_scan function filled axes nonempty yields
    have made : (Value.array result).WellFormed :=
      scan_meets closed_wellFormed filled (keeps_wellFormed function _) yields fun _ _ => trivial
    have notEmpty : Value.majorCells grid ≠ [] := List.ne_nil_of_length_pos (count ▸ nonempty)
    obtain ⟨v, isLast, reduced⟩ := folded.last notEmpty
    rw [count] at isLast
    have cellWithin : Shape.Within shape := by
      rcases among with rfl | rfl
      · exact Shape.within_nil
      · exact within.drop_leading
    have bound : grid.length ≤ Number.maxLength := Nat.le_trans within.length_le (by decide)
    have selected := Value.select_last made isShape cellWithin nonempty bound isLast
    exact ⟨result, rfl, by rw [folded.count, count], folded, v, reduced, selected⟩
  · intro e failed
    rw [scan_of_axis f.call axes nonempty, bind_eq_error] at failed
    rcases failed with failed | ⟨folds, ran, failed⟩
    · exact .inl (split_of_error failed)
    · split at failed
      · cases failed
      · rename_i notVector
        simp only [bind_eq_error, pure_eq_error, and_false, exists_false, or_false] at failed
        exact .inr ⟨by omega, folds, prefixFolds_of_ok ran, failed⟩

theorem scan_eq_prefixFolds_of_pairs :
    let pair (x y : Value) : Value := .array (Grid.vector [x, y])
    let letters : Grid Value := Grid.vector [.character 'a', .character 'b', .character 'c']
    let nested : Value := pair (.character 'a') (pair (.character 'b') (.character 'c'))
    let result : Grid Value := Grid.vector [.character 'a', pair (.character 'a') (.character 'b'), nested]
    (Value.function (.primitive .pair)).WellFormed ∧ (Value.array letters).WellFormed ∧ letters.shape.Within ∧
      1 ≤ letters.rank ∧ 0 < letters.length ∧
      scan (Fn.primitive .pair).call (.array letters) = .ok (.array result) ∧
      PrefixFolds (Fn.primitive .pair).call (Value.majorCells letters) (Value.majorCells result) ∧
      (Value.number (-1)).select (.array result) = .ok nested := by
  intro pair letters nested result
  have function : (Value.function (.primitive .pair)).WellFormed := Value.meets_function.mpr ⟨trivial, trivial⟩
  have filled : (Value.array letters).WellFormed := Value.meets_array.mpr ⟨rfl, by simp [letters, Grid.vector]⟩
  have within : letters.shape.Within := by decide
  have ran : scan (Fn.primitive .pair).call (.array letters) = .ok (.array result) := rfl
  obtain ⟨_, same, -, folded, v, reduced, selected⟩ :=
    (scan_eq_prefixFolds function filled within (by decide) (by decide)).1 _ ran
  have isNested : reduce (Fn.primitive .pair).call (.array letters) = .ok nested := rfl
  rw [isNested] at reduced
  cases same
  cases reduced
  exact ⟨function, filled, within, by decide, by decide, ran, folded, selected⟩

end Iteration

end Tacit
