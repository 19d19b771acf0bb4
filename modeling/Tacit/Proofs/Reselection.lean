import Tacit.Proofs.Selection

/-! Selecting from a selection. What an array of indices selects has the axes of the indices in front of those of the
cells, and its pieces are the pieces that the indices mean, one for each. So an index into a selection is an index into
its indices: it takes the pieces of just those indices that it selects. -/
namespace Tacit

theorem Shape.Within.leading_le {axis : Nat} {axes : Shape} (within : Within (axis :: axes)) : axis ≤ sizeLimit :=
  Within.length_le (show (⟨axis :: axes, []⟩ : Grid Unit).shape.Within from within)

namespace Grid

variable {α : Type} {size : Nat} {pieces : List (List α)}

theorem drop_flatten (full : ∀ piece ∈ pieces, piece.length = size) (count : Nat) :
    pieces.flatten.drop (count * size) = (pieces.drop count).flatten := by
  induction pieces generalizing count with
  | nil => simp
  | cons piece pieces ih =>
    obtain ⟨first, others⟩ := List.forall_mem_cons.mp full
    cases count with
    | zero => simp
    | succ count =>
      rw [Nat.succ_mul, Nat.add_comm, ← List.drop_drop, List.flatten_cons, List.drop_left' first, ih others,
        List.drop_succ_cons]

theorem take_flatten (full : ∀ piece ∈ pieces, piece.length = size) (count : Nat) :
    pieces.flatten.take (count * size) = (pieces.take count).flatten := by
  induction pieces generalizing count with
  | nil => simp
  | cons piece pieces ih =>
    obtain ⟨first, others⟩ := List.forall_mem_cons.mp full
    cases count with
    | zero => simp
    | succ count =>
      rw [Nat.succ_mul, Nat.add_comm, List.flatten_cons, ← first, List.take_length_add_append, first, ih others,
        List.take_succ_cons, List.flatten_cons]

end Grid

namespace Value

/-- The elements of the cells that the indices of a list mean along the leading axis, cell after cell. -/
def gather (source : Grid Value) (indices : List Value) : Result (List Value) :=
  List.flatten <$> indices.mapM (cellData source)

theorem gather_nil (source : Grid Value) : gather source [] = .ok [] := rfl

theorem gather_append (source : Grid Value) (some others : List Value) :
    gather source (some ++ others) = (do
      let first ← gather source some
      let second ← gather source others
      return first ++ second) := by
  rw [gather, gather, gather, List.mapM_append]
  cases some.mapM (cellData source) with
  | error e => rfl
  | ok first =>
    cases others.mapM (cellData source) with
    | error e => rfl
    | ok second => exact congrArg Except.ok List.flatten_append

theorem gather_singleton (source : Grid Value) (index : Value) : gather source [index] = cellData source index := by
  cases read : cellData source index with
  | error e => simp [gather, read, bind, Except.bind, Functor.map, Except.map]
  | ok piece => simp [gather, read, bind, Except.bind, Functor.map, Except.map, pure, Except.pure]

theorem gather_cons (source : Grid Value) (index : Value) (indices : List Value) :
    gather source (index :: indices) = (do
      let first ← cellData source index
      let second ← gather source indices
      return first ++ second) := by
  rw [← gather_singleton, ← gather_append]
  rfl

theorem exists_gather_of_subset {source : Grid Value} {indices part : List Value} {data : List Value}
    (gathered : gather source indices = .ok data) (among : part ⊆ indices) : ∃ data, gather source part = .ok data := by
  obtain ⟨pieces, read, -⟩ := map_eq_ok.mp gathered
  have each := exists_mapM_eq_ok_iff.mp ⟨pieces, read⟩
  obtain ⟨pieces, read⟩ := exists_mapM_eq_ok_iff.mpr fun index member => each index (among member)
  exact ⟨pieces.flatten, map_eq_ok.mpr ⟨pieces, read, rfl⟩⟩

theorem isArray_of_cellData {source : Grid Value} {index : Value} {piece : List Value}
    (read : cellData source index = .ok piece) : index.isArray = false := by
  simp only [cellData, bind_eq_ok, expectIndex_eq_ok] at read
  obtain ⟨_, ⟨_, rfl, -⟩, -⟩ := read
  rfl

section Selected

variable {axis : Nat} {axes : Shape} {data : List Value} (filled : data.length = Shape.size (axis :: axes))
  {indices gathered : List Value} {length : Nat} {inner : Shape}

section Bounded

variable (bound : axis ≤ Shape.sizeLimit)

include filled bound

/-- What is gathered is made of full pieces, one for each index. -/
theorem exists_pieces_of_gather (read : gather ⟨axis :: axes, data⟩ indices = .ok gathered) :
    ∃ pieces, indices.mapM (cellData ⟨axis :: axes, data⟩) = .ok pieces ∧ gathered = pieces.flatten ∧
      pieces.length = indices.length ∧ ∀ piece ∈ pieces, piece.length = axes.size := by
  obtain ⟨pieces, taken, rfl⟩ := map_eq_ok.mp read
  exact ⟨pieces, taken, rfl, forall_of_mapM_eq_ok taken fun _ _ _ => length_of_cellData filled bound⟩

theorem length_of_gather (read : gather ⟨axis :: axes, data⟩ indices = .ok gathered) :
    gathered.length = indices.length * axes.size := by
  obtain ⟨pieces, -, rfl, count, full⟩ := exists_pieces_of_gather filled bound read
  rw [List.length_flatten, List.map_congr_left full, ← count]
  simp

/-- What an index reads from a selection is what the indices that it selects read from the source. -/
theorem cellData_selected {count : Nat} {cell : Shape} (read : gather ⟨axis :: axes, data⟩ indices = .ok gathered)
    (index : Value) :
    cellData ⟨count :: (cell ++ axes), gathered⟩ index =
      cellData ⟨count :: cell, indices⟩ index >>= gather ⟨axis :: axes, data⟩ := by
  obtain ⟨pieces, taken, rfl, -, full⟩ := exists_pieces_of_gather filled bound read
  cases isIndex : index.expectIndex with
  | error e => simp [cellData, isIndex, bind, Except.bind]
  | ok k =>
    cases isPosition : Number.axisPosition k count with
    | error e => simp [cellData, isIndex, isPosition, Grid.length, bind, Except.bind]
    | ok position =>
      -- Both sides take the same pieces, counted in elements here and in pieces there.
      have part : ((indices.drop (position * cell.size)).take cell.size).mapM (cellData ⟨axis :: axes, data⟩) =
          .ok ((pieces.drop (position * cell.size)).take cell.size) :=
        mapM_eq_ok.mpr (List.forall₂_take _ (List.forall₂_drop _ (mapM_eq_ok.mp taken)))
      have cut : (pieces.flatten.drop (position * Shape.size (cell ++ axes))).take (Shape.size (cell ++ axes)) =
          ((pieces.drop (position * cell.size)).take cell.size).flatten := by
        rw [Shape.size_append, ← Nat.mul_assoc, Grid.drop_flatten full,
          Grid.take_flatten fun piece member => full piece (List.mem_of_mem_drop member)]
      simp [cellData, isIndex, isPosition, Grid.length, gather, part, cut, bind, Except.bind, pure, Except.pure,
        Functor.map, Except.map]

/-- Gathering from what was gathered is gathering by the gathered indices. -/
theorem gather_selected {count : Nat} {cell : Shape} (read : gather ⟨axis :: axes, data⟩ indices = .ok gathered)
    (places : List Value) :
    gather ⟨count :: (cell ++ axes), gathered⟩ places =
      gather ⟨count :: cell, indices⟩ places >>= gather ⟨axis :: axes, data⟩ := by
  induction places with
  | nil => rfl
  | cons place places ih =>
    rw [gather_cons, gather_cons, cellData_selected filled bound read, ih]
    cases first : cellData ⟨count :: cell, indices⟩ place with
    | error e => rfl
    | ok part =>
      obtain ⟨piece, yields⟩ := exists_gather_of_subset read (mem_cellData first)
      cases gather ⟨count :: cell, indices⟩ places with
      | error e => simp [yields, bind, Except.bind]
      | ok parts => simp [gather_append, yields, bind, Except.bind, pure, Except.pure]

theorem select_array_iff {indices : Grid Value} (count : indices.data.length = indices.shape.size) {v : Value} :
    (array indices).select (array ⟨axis :: axes, data⟩) = .ok v ↔
      Shape.Within (indices.shape ++ axes) ∧
        ∃ gathered, gather ⟨axis :: axes, data⟩ indices.data = .ok gathered ∧
          array ⟨indices.shape ++ axes, gathered⟩ = v := by
  simp only [select_array_eq_ok filled bound count, gather, map_eq_ok]
  constructor
  · rintro ⟨within, pieces, read, rfl⟩
    exact ⟨within, _, ⟨pieces, read, rfl⟩, rfl⟩
  · rintro ⟨within, _, ⟨pieces, read, rfl⟩, rfl⟩
    exact ⟨within, pieces, read, rfl⟩

theorem length_of_selected (count : indices.length = Shape.size (length :: inner))
    (read : gather ⟨axis :: axes, data⟩ indices = .ok gathered) :
    gathered.length = Shape.size (length :: (inner ++ axes)) := by
  rw [length_of_gather filled bound read, count, ← Shape.size_append]
  rfl

theorem select_array_selected (count : indices.length = Shape.size (length :: inner))
    (fits : Shape.Within (length :: inner ++ axes))
    (read : gather ⟨axis :: axes, data⟩ indices = .ok gathered) {index : Grid Value}
    (indexCount : index.data.length = index.shape.size) (w : Value) :
    (array index).select (array ⟨length :: (inner ++ axes), gathered⟩) = .ok w ↔
      ∃ k, (array index).select (array ⟨length :: inner, indices⟩) = .ok k ∧
        k.select (array ⟨axis :: axes, data⟩) = .ok w := by
  have size := length_of_selected filled bound count read
  have short : length ≤ Shape.sizeLimit := fits.leading_le
  rw [select_array_iff size short indexCount, gather_selected filled bound read]
  simp only [select_array_iff count short indexCount, bind_eq_ok]
  have chosenCount {chosen : List Value} (choice : gather ⟨length :: inner, indices⟩ index.data = .ok chosen) :
      chosen.length = Shape.size (index.shape ++ inner) := by
    rw [length_of_gather count short choice, indexCount, Shape.size_append]
  constructor
  · rintro ⟨within, _, ⟨chosen, choice, taken⟩, rfl⟩
    rw [← List.append_assoc] at within ⊢
    refine ⟨_, ⟨(Shape.Within.of_append within).1, chosen, choice, rfl⟩, ?_⟩
    exact (select_array_iff filled bound (chosenCount choice)).mpr ⟨within, _, taken, rfl⟩
  · rintro ⟨_, ⟨-, chosen, choice, rfl⟩, yields⟩
    obtain ⟨within, elements, taken, rfl⟩ := (select_array_iff filled bound (chosenCount choice)).mp yields
    rw [List.append_assoc] at within ⊢
    exact ⟨within, elements, ⟨chosen, choice, taken⟩, rfl⟩

end Bounded

section Within

variable (within : Shape.Within (axis :: axes))

include filled within

/-- An index that is no array selects the cell that it means, if it means one. -/
theorem select_plain {index : Value} (plain : index.isArray = false) :
    index.select (array ⟨axis :: axes, data⟩) = cellOf axes <$> cellData ⟨axis :: axes, data⟩ index := by
  cases index with
  | number x => exact select_number_eq filled within within.leading_le x
  | array grid => cases plain
  | character | function =>
    simp [select, expectArray, Grid.rank, cellData, expectIndex, expectNumber, bind, Except.bind, Functor.map,
      Except.map]

/-- A cell of indices selects the cell of what they gather. -/
theorem select_cellOf {cell : Shape} (fits : Shape.Within (cell ++ axes)) {part gathered : List Value}
    (full : part.length = cell.size) (read : gather ⟨axis :: axes, data⟩ part = .ok gathered) :
    (cellOf cell part).select (array ⟨axis :: axes, data⟩) = .ok (cellOf (cell ++ axes) gathered) := by
  cases cell with
  | nil =>
    obtain ⟨index, rfl⟩ := List.length_eq_one_iff.mp full
    rw [gather_singleton] at read
    have plain := isArray_of_cellData read
    change index.select _ = _
    rw [select_plain filled within plain, read]
    rfl
  | cons second others =>
    rw [cellOf_of_axes (by simp), cellOf_of_axes (by simp)]
    exact (select_array_iff filled within.leading_le full).mpr ⟨fits, gathered, read, rfl⟩

theorem select_plain_selected (count : indices.length = Shape.size (length :: inner))
    (fits : Shape.Within (length :: inner ++ axes)) (read : gather ⟨axis :: axes, data⟩ indices = .ok gathered)
    {index : Value} (plain : index.isArray = false) (w : Value) :
    index.select (array ⟨length :: (inner ++ axes), gathered⟩) = .ok w ↔
      ∃ k, index.select (array ⟨length :: inner, indices⟩) = .ok k ∧
        k.select (array ⟨axis :: axes, data⟩) = .ok w := by
  have bound := within.leading_le
  have size := length_of_selected filled bound count read
  have short : length ≤ Shape.sizeLimit := fits.leading_le
  rw [select_plain size fits plain, select_plain count (Shape.Within.of_append fits).1 plain,
    cellData_selected filled bound read]
  simp only [map_eq_ok, bind_eq_ok]
  have selects {part : List Value} (isPart : cellData ⟨length :: inner, indices⟩ index = .ok part) :
      ∃ elements, gather ⟨axis :: axes, data⟩ part = .ok elements ∧
        (cellOf inner part).select (array ⟨axis :: axes, data⟩) = .ok (cellOf (inner ++ axes) elements) := by
    obtain ⟨elements, taken⟩ := exists_gather_of_subset read (mem_cellData isPart)
    exact ⟨elements, taken, select_cellOf filled within fits.tail (length_of_cellData count short isPart) taken⟩
  constructor
  · rintro ⟨elements, ⟨part, isPart, taken⟩, rfl⟩
    obtain ⟨_, again, yields⟩ := selects isPart
    cases again.symm.trans taken
    exact ⟨_, ⟨part, isPart, rfl⟩, yields⟩
  · rintro ⟨_, ⟨part, isPart, rfl⟩, yields⟩
    obtain ⟨elements, taken, same⟩ := selects isPart
    cases same.symm.trans yields
    exact ⟨elements, ⟨part, isPart, taken⟩, rfl⟩

end Within

end Selected

/-- Selecting from a selection is selecting by the indices selected: whatever `i` is, it selects a value from the
cells at the indices `j` exactly when it selects indices from `j`, and these select that value from the source. -/
theorem select_composes {i : Value} {j source : Grid Value} {z : Value} (index : i.WellFormed)
    (indices : (array j).WellFormed) (formed : (array source).WellFormed) (within : source.shape.Within)
    (axes : 1 ≤ j.rank) (selected : (array j).select (array source) = .ok z) (w : Value) :
    i.select z = .ok w ↔ ∃ k, i.select (array j) = .ok k ∧ k.select (array source) = .ok w := by
  have filled : source.data.length = source.shape.size := (meets_array.mp formed).1
  have bound : source.length ≤ Shape.sizeLimit := within.length_le
  have count : j.data.length = j.shape.size := (meets_array.mp indices).1
  obtain ⟨shape, data⟩ := source
  cases shape with
  | nil => simp [select, expectArray, Grid.rank, bind_eq_ok] at selected
  | cons axis cell =>
    obtain ⟨length, inner, isShape⟩ := List.exists_cons_of_length_pos axes
    obtain ⟨shape, places⟩ := j
    subst isShape
    obtain ⟨fits, gathered, read, rfl⟩ := (select_array_iff filled bound count).mp selected
    cases i with
    | array grid => exact select_array_selected filled bound count fits read (meets_array.mp index).1 w
    | number | character | function => exact select_plain_selected filled within count fits read rfl w

theorem select_composes_of_rows :
    let rows : Grid Value := ⟨[2, 2], [character 'a', character 'b', character 'c', character 'd']⟩
    let indices : Grid Value := ⟨[2, 2], [number (-1), number 0, number 0, number (-1)]⟩
    let selected : Grid Value := ⟨[2, 2, 2], [character 'c', character 'd', character 'a', character 'b',
      character 'a', character 'b', character 'c', character 'd']⟩
    (array rows).WellFormed ∧ rows.shape.Within ∧ (array indices).WellFormed ∧ 1 ≤ indices.rank ∧
      (array indices).select (array rows) = .ok (array selected) ∧
      (number (-1)).select (array selected) = .ok (array rows) ∧
      ∃ k, (number (-1)).select (array indices) = .ok k ∧ k.select (array rows) = .ok (array rows) := by
  intro rows indices selected
  have formed : (array rows).WellFormed := by simp [rows, WellFormed, Meets, AllMeet, Demand.wellFormed]
  have within : rows.shape.Within := by decide
  have chosen : (array indices).WellFormed := by simp [indices, WellFormed, Meets, AllMeet, Demand.wellFormed]
  have last : Number.toInteger (-1) = .ok (-1) := by decide +kernel
  have first : Number.toInteger 0 = .ok 0 := by decide +kernel
  have selects : (array indices).select (array rows) = .ok (array selected) := by
    have lastRow : cellData rows (number (-1)) = .ok [character 'c', character 'd'] := by
      simp only [cellData, expectIndex, expectNumber, last, bind, Except.bind]
      rfl
    have firstRow : cellData rows (number 0) = .ok [character 'a', character 'b'] := by
      simp only [cellData, expectIndex, expectNumber, first, bind, Except.bind]
      rfl
    have gathers : gather rows indices.data = .ok selected.data := by
      simp only [gather_cons, gather_nil, indices, lastRow, firstRow, bind, Except.bind]
      rfl
    exact (select_array_iff rfl (by decide) rfl).mpr ⟨by decide, _, gathers, rfl⟩
  have again : (number (-1)).select (array selected) = .ok (array rows) := by
    have lastMatrix : cellData selected (number (-1)) = .ok rows.data := by
      simp only [cellData, expectIndex, expectNumber, last, bind, Except.bind]
      rfl
    rw [select_plain rfl (by decide) rfl, lastMatrix]
    rfl
  exact ⟨formed, within, chosen, by decide, selects, again,
    (select_composes (meets_number _) chosen formed within (by decide) selects (array rows)).mp again⟩

end Value

end Tacit
