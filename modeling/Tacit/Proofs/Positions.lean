import Tacit.Proofs.Integers
import Tacit.Proofs.Reselection

/-! Picking by positions. A position has one index for each axis. Followed axis by axis, the indices narrow the elements
to a cell, to a cell of that cell, and in the end to one element, which is why picking is selecting by one index after
the other. The positions without negative indices, in lexicographic order, lead to the elements in their own order. -/
namespace Tacit

namespace Shape

/-- The positions in an array of this shape in lexicographic order: for each axis, a number below its length. -/
def positions : Shape → List (List Nat)
  | [] => [[]]
  | axis :: axes => (List.range axis).flatMap fun first => (positions axes).map (first :: ·)

theorem mem_positions {shape : Shape} {position : List Nat} :
    position ∈ shape.positions ↔ List.Forall₂ (· < ·) position shape := by
  induction shape generalizing position with
  | nil => simp [positions]
  | cons axis axes ih =>
    simp only [positions, List.mem_flatMap, List.mem_range, List.mem_map, ih, List.forall₂_cons_right_iff]
    constructor
    · rintro ⟨first, inside, others, below, rfl⟩
      exact ⟨first, others, inside, below, rfl⟩
    · rintro ⟨first, others, inside, below, rfl⟩
      exact ⟨first, inside, others, below, rfl⟩

theorem positions_ordered (shape : Shape) : shape.positions.Pairwise (· < ·) := by
  induction shape with
  | nil => simp [positions]
  | cons axis axes ih =>
    refine List.pairwise_flatMap.mpr ⟨fun first _ => ?_, ?_⟩
    · refine List.pairwise_map.mpr (ih.imp fun before => ?_)
      exact List.cons_lt_cons_iff.mpr (.inr ⟨rfl, before⟩)
    · refine List.pairwise_lt_range.imp fun before position isBefore other isAfter => ?_
      obtain ⟨_, -, rfl⟩ := List.mem_map.mp isBefore
      obtain ⟨_, -, rfl⟩ := List.mem_map.mp isAfter
      exact List.cons_lt_cons_iff.mpr (.inl before)

end Shape

namespace Value

def indexVector (indices : List Float) : Value := array (Grid.vector (indices.map number))

/-- Selects by one number after the other, each from what the one before it selected. -/
def selectEach (indices : List Float) (source : Value) : Result Value :=
  indices.foldlM (fun cell index => (number index).select cell) source

/-- The numbers are a position, and it leads from the cell at `start` to the element at `place`: each of them indexes
its axis, and narrows the cell to one of its own cells. -/
inductive LeadsTo : List Float → Shape → (start place : Nat) → Prop
  | here {place : Nat} : LeadsTo [] [] place place
  | inside {index : Float} {indices : List Float} {axis : Nat} {axes : Shape} {start place : Nat} {k : Int}
    (isIndex : (number index).IsIndex axis k)
    (led : LeadsTo indices axes (start * axis + Number.fromStart axis k) place) :
    LeadsTo (index :: indices) (axis :: axes) start place

theorem leadsTo_nil {start place : Nat} : LeadsTo [] [] start place ↔ start = place := by
  constructor
  · rintro ⟨⟩
    rfl
  · rintro rfl
    exact .here

theorem leadsTo_cons {index : Float} {indices : List Float} {axis : Nat} {axes : Shape} {start place : Nat} :
    LeadsTo (index :: indices) (axis :: axes) start place ↔
      ∃ k, (number index).IsIndex axis k ∧ LeadsTo indices axes (start * axis + Number.fromStart axis k) place := by
  constructor
  · rintro (_ | ⟨isIndex, led⟩)
    exact ⟨_, isIndex, led⟩
  · rintro ⟨k, isIndex, led⟩
    exact .inside isIndex led

theorem exists_leadsTo_iff {indices : List Float} {axes : Shape} (start : Nat) :
    (∃ place, LeadsTo indices axes start place) ↔
      List.Forall₂ (fun index axis => ∃ k, (number index).IsIndex axis k) indices axes := by
  constructor
  · rintro ⟨place, led⟩
    induction led with
    | here => exact .nil
    | inside isIndex _ ih => exact .cons ⟨_, isIndex⟩ ih
  · intro each
    induction each generalizing start with
    | nil => exact ⟨start, .here⟩
    | cons first _ ih =>
      obtain ⟨k, isIndex⟩ := first
      obtain ⟨place, led⟩ := ih _
      exact ⟨place, .inside isIndex led⟩

theorem LeadsTo.place_lt {indices : List Float} {axes : Shape} {start place : Nat}
    (led : LeadsTo indices axes start place) : place < (start + 1) * axes.size := by
  induction led with
  | here => simp
  | @inside _ _ axis axes start place k isIndex _ ih =>
    have inside := Number.fromStart_lt isIndex.2.1 isIndex.2.2
    calc place < (start * axis + Number.fromStart axis k + 1) * axes.size := ih
      _ ≤ (start * axis + axis) * axes.size := Nat.mul_le_mul_right _ (by omega)
      _ = (start + 1) * Shape.size (axis :: axes) := by rw [Shape.size_cons, ← Nat.mul_assoc, Nat.succ_mul]

theorem number_isIndex {x : Float} {length : Nat} {k : Int} (bound : length ≤ Shape.sizeLimit) :
    (number x).IsIndex length k ↔
      Number.toInteger x = .ok k ∧ Number.axisPosition k length = .ok (Number.fromStart length k) := by
  have short : length ≤ Number.maxLength := Nat.le_trans bound (by decide)
  have safe : Shape.sizeLimit ≤ Number.maxSafe := by decide
  simp only [IsIndex, Number.toInteger_eq_ok, Number.axisPosition_eq_ok short, number.injEq, exists_eq_left', and_true]
  constructor
  · rintro ⟨isInteger, inside⟩
    exact ⟨⟨isInteger, by omega⟩, inside⟩
  · rintro ⟨⟨isInteger, -⟩, inside⟩
    exact ⟨isInteger, inside⟩

/-- Where a position leads is its offset in row-major order. -/
theorem leadsTo_iff_offset {indices : List Float} {axes : Shape} (within : axes.Within) {start place : Nat} :
    LeadsTo indices axes start place ↔
      ∃ position, indices.mapM Number.toInteger = .ok position ∧ position.length = axes.length ∧
        offset start position axes = .ok place := by
  constructor
  · intro led
    induction led with
    | here => exact ⟨[], rfl, rfl, rfl⟩
    | @inside index indices axis axes start place k isIndex _ ih =>
      obtain ⟨isInteger, isPosition⟩ := (number_isIndex within.leading_le).mp isIndex
      obtain ⟨position, read, count, led⟩ := ih within.tail
      refine ⟨k :: position, ?_, congrArg Nat.succ count, ?_⟩
      · simp [isInteger, read, bind, Except.bind, pure, Except.pure]
      · rw [offset, isPosition]
        exact led
  · rintro ⟨position, read, count, led⟩
    have integers := mapM_eq_ok.mp read
    clear read
    induction integers generalizing axes start with
    | nil =>
      obtain rfl := List.eq_nil_of_length_eq_zero count.symm
      cases led
      exact .here
    | cons isInteger _ ih =>
      obtain ⟨axis, axes, rfl⟩ := List.exists_cons_of_length_eq_add_one count.symm
      rw [offset, bind_eq_ok] at led
      obtain ⟨first, isPosition, led⟩ := led
      have short : axis ≤ Number.maxLength := Nat.le_trans within.leading_le (by decide)
      obtain ⟨-, rfl⟩ := (Number.axisPosition_eq_ok short).mp isPosition
      exact .inside ((number_isIndex within.leading_le).mpr ⟨isInteger, isPosition⟩)
        (ih within.tail (Nat.succ.inj count) led)

theorem pick_indexVector (indices : List Float) (source : Grid Value) :
    (indexVector indices).pick (array source) = indices.mapM Number.toInteger >>= elementAt source := by
  have plain : (indices.map number).any isArray = false := by simp [isArray]
  have read : (indices.map number).mapM expectIndex = indices.mapM Number.toInteger := by
    rw [List.mapM_map]
    rfl
  simp only [pick, expectArray, indexVector, Grid.vector, pickFrom, plain, read]
  rfl

theorem elementAt_eq_ok {source : Grid Value} {position : List Int} {v : Value} :
    elementAt source position = .ok v ↔
      position.length = source.shape.length ∧
        ∃ place, offset 0 position source.shape = .ok place ∧ source.data[place]? = some v := by
  by_cases count : position.length = source.shape.length
  · cases led : offset 0 position source.shape with
    | error e => simp [elementAt, Grid.rank, count, led, bind, Except.bind]
    | ok place =>
      cases found : source.data[place]? <;>
        simp [elementAt, Grid.rank, count, led, found, bind, Except.bind, pure, Except.pure]
  · simp [elementAt, Grid.rank, count, bind_eq_ok]

theorem pick_eq_ok {indices : List Float} {source : Grid Value} (within : source.shape.Within) {v : Value} :
    (indexVector indices).pick (array source) = .ok v ↔
      ∃ place, LeadsTo indices source.shape 0 place ∧ source.data[place]? = some v := by
  simp only [pick_indexVector, bind_eq_ok, elementAt_eq_ok, leadsTo_iff_offset within]
  constructor
  · rintro ⟨position, read, count, place, led, found⟩
    exact ⟨place, ⟨position, read, count, led⟩, found⟩
  · rintro ⟨place, ⟨position, read, count, led⟩, found⟩
    exact ⟨position, read, count, place, led, found⟩

/-- The cell at `start`, of cells of this shape that lie side by side. -/
def cellAt (axes : Shape) (data : List Value) (start : Nat) : Value :=
  cellOf axes ((data.drop (start * axes.size)).take axes.size)

/-- An index selects, from a cell of several side by side, one of the smaller cells that all of them consist of. -/
theorem select_cellAt {axis : Nat} {axes : Shape} {data : List Value} {count start : Nat}
    (filled : data.length = count * Shape.size (axis :: axes)) (isCell : start < count)
    (within : Shape.Within (axis :: axes)) {index : Float} {v : Value} :
    (number index).select (cellAt (axis :: axes) data start) = .ok v ↔
      ∃ k, (number index).IsIndex axis k ∧ cellAt axes data (start * axis + Number.fromStart axis k) = v := by
  have bound := within.leading_le
  have full : ((data.drop (start * Shape.size (axis :: axes))).take (Shape.size (axis :: axes))).length =
      Shape.size (axis :: axes) := by
    rw [List.length_take, List.length_drop, filled]
    exact Shape.piece_eq_size isCell
  rw [cellAt, cellOf_of_axes (by simp), select_number_eq full within bound]
  simp only [map_eq_ok, cellData_eq_ok bound]
  have cut {k : Int} (isIndex : (number index).IsIndex axis k) :
      (Grid.chunks axis axes.size ((data.drop (start * Shape.size (axis :: axes))).take
        (Shape.size (axis :: axes))))[Number.fromStart axis k]? =
      some ((data.drop ((start * axis + Number.fromStart axis k) * axes.size)).take axes.size) := by
    have inside := Number.fromStart_lt isIndex.2.1 isIndex.2.2
    rw [Grid.getElem?_chunks _ inside, List.drop_take, List.take_take, Shape.piece_eq_size inside, List.drop_drop,
      Shape.size_cons, ← Nat.mul_assoc, ← Nat.add_mul]
  constructor
  · rintro ⟨piece, ⟨k, isIndex, isPiece⟩, rfl⟩
    rw [cut isIndex] at isPiece
    cases isPiece
    exact ⟨k, isIndex, rfl⟩
  · rintro ⟨k, isIndex, rfl⟩
    exact ⟨_, ⟨k, isIndex, cut isIndex⟩, rfl⟩

theorem selectEach_cellAt {axes : Shape} {data : List Value} {count start : Nat}
    (filled : data.length = count * axes.size) (isCell : start < count) (within : axes.Within) {indices : List Float}
    (full : indices.length = axes.length) {v : Value} :
    selectEach indices (cellAt axes data start) = .ok v ↔
      ∃ place, LeadsTo indices axes start place ∧ data[place]? = some v := by
  induction axes generalizing indices count start with
  | nil =>
    obtain rfl := List.eq_nil_of_length_eq_zero full
    have element : data[start]? = some (cellAt [] data start) := by
      have inside : start < data.length := by simpa [filled] using isCell
      simp [cellAt, List.take_one, List.getElem?_eq_getElem inside, cellOf]
    simp only [leadsTo_nil, exists_eq_left', element, Option.some.injEq]
    exact pure_eq_ok
  | cons axis axes ih =>
    obtain ⟨index, indices, rfl⟩ := List.exists_cons_of_length_eq_add_one full
    have smaller : data.length = count * axis * Shape.size axes := by rw [filled, Shape.size_cons, Nat.mul_assoc]
    have inside {k : Int} (isIndex : (number index).IsIndex axis k) :
        start * axis + Number.fromStart axis k < count * axis := by
      have below := Number.fromStart_lt isIndex.2.1 isIndex.2.2
      calc start * axis + Number.fromStart axis k < (start + 1) * axis := by
            rw [Nat.succ_mul]
            omega
        _ ≤ count * axis := Nat.mul_le_mul_right axis isCell
    rw [selectEach, List.foldlM_cons, bind_eq_ok]
    simp only [select_cellAt filled isCell within, leadsTo_cons]
    constructor
    · rintro ⟨_, ⟨k, isIndex, rfl⟩, yields⟩
      obtain ⟨place, led, found⟩ := (ih smaller (inside isIndex) within.tail (Nat.succ.inj full)).mp yields
      exact ⟨place, ⟨k, isIndex, led⟩, found⟩
    · rintro ⟨place, ⟨k, isIndex, led⟩, found⟩
      have yields := (ih smaller (inside isIndex) within.tail (Nat.succ.inj full)).mpr ⟨place, led, found⟩
      exact ⟨_, ⟨k, isIndex, rfl⟩, yields⟩

theorem isIndex_ofNat {n length : Nat} (inside : n < length) (bound : length ≤ Shape.sizeLimit) :
    (number (Number.ofNat n)).IsIndex length n := by
  have safe : Shape.sizeLimit ≤ Number.maxSafe := by decide
  exact ⟨⟨_, rfl, Number.isInteger_ofNat (by omega)⟩, by omega, by omega⟩

/-- Numbers below the lengths of the axes lead, in lexicographic order, to one place after the other. -/
theorem positions_lead {axes : Shape} (within : axes.Within) (start : Nat) :
    List.Forall₂ (fun position place => LeadsTo (position.map Number.ofNat) axes start place) axes.positions
      (List.range' (start * axes.size) axes.size) := by
  induction axes generalizing start with
  | nil => simp [Shape.positions, leadsTo_nil]
  | cons axis axes ih =>
    -- The positions that begin below a bound fill as many cells, and the next ones fill the next cell.
    have begins (bound : Nat) (below : bound ≤ axis) :
        List.Forall₂ (fun position place => LeadsTo (position.map Number.ofNat) (axis :: axes) start place)
          ((List.range bound).flatMap fun first => (Shape.positions axes).map (first :: ·))
          (List.range' (start * Shape.size (axis :: axes)) (bound * Shape.size axes)) := by
      induction bound with
      | zero => simp
      | succ bound before =>
        rw [List.range_succ, List.flatMap_append, List.flatMap_singleton, Nat.succ_mul, ← List.range'_append_1]
        refine List.rel_append (before (Nat.le_of_succ_le below)) ?_
        rw [List.forall₂_map_left_iff, Shape.size_cons, ← Nat.mul_assoc, ← Nat.add_mul]
        refine (ih within.tail (start * axis + bound)).imp fun position place led => ?_
        exact .inside (isIndex_ofNat below within.leading_le) led
    exact begins axis (Nat.le_refl axis)

theorem length_positions {shape : Shape} (within : shape.Within) : shape.positions.length = shape.size := by
  have count := (positions_lead within 0).length_eq
  rwa [List.length_range'] at count

theorem leadsTo_of_getElem? {shape : Shape} (within : shape.Within) {position : List Nat} {place : Nat}
    (isPosition : shape.positions[place]? = some position) : LeadsTo (position.map Number.ofNat) shape 0 place := by
  obtain ⟨inside, rfl⟩ := List.getElem?_eq_some_iff.mp isPosition
  have each := (List.forall₂_iff_get.mp (positions_lead within 0)).2 place inside
    (by rwa [List.length_range', ← length_positions within])
  simpa using each

/-- The position picks the element with this number in row-major order, whatever the elements are. -/
def PicksAt (shape : Shape) (position : List Nat) (place : Nat) : Prop :=
  ∀ data : List Value, data.length = shape.size →
    ∃ element, data[place]? = some element ∧
      (indexVector (position.map Number.ofNat)).pick (array ⟨shape, data⟩) = .ok element

theorem picksAt_of_getElem? {shape : Shape} (within : shape.Within) {position : List Nat} {place : Nat}
    (isPosition : shape.positions[place]? = some position) : PicksAt shape position place := by
  intro data filled
  obtain ⟨inside, -⟩ := List.getElem?_eq_some_iff.mp isPosition
  rw [length_positions within, ← filled] at inside
  have found := List.getElem?_eq_getElem inside
  exact ⟨data[place], found, (pick_eq_ok within).mpr ⟨place, leadsTo_of_getElem? within isPosition, found⟩⟩

/-- A position picks the same element of every array of a shape. Where all others differ from one, it is no other. -/
theorem PicksAt.place_unique {shape : Shape} {position : List Nat} {place other : Nat}
    (picks : PicksAt shape position place) (again : PicksAt shape position other) : place = other := by
  let marked : List Value := (List.range shape.size).map fun i => character (if i = place then 'a' else 'b')
  obtain ⟨element, isElement, yields⟩ := picks marked (by simp [marked])
  obtain ⟨_, isOther, yieldsAgain⟩ := again marked (by simp [marked])
  cases yields.symm.trans yieldsAgain
  simp only [marked, List.getElem?_map, Option.map_eq_some_iff, List.getElem?_eq_some_iff, List.getElem_range]
    at isElement isOther
  obtain ⟨_, ⟨-, rfl⟩, rfl⟩ := isElement
  obtain ⟨_, ⟨-, rfl⟩, same⟩ := isOther
  by_contra different
  simp [Ne.symm different] at same

theorem picksAt_iff {shape : Shape} (within : shape.Within) {position : List Nat} {place : Nat} :
    List.Forall₂ (· < ·) position shape ∧ PicksAt shape position place ↔ shape.positions[place]? = some position := by
  constructor
  · rintro ⟨inside, picks⟩
    obtain ⟨other, isPosition⟩ := List.mem_iff_getElem?.mp (Shape.mem_positions.mpr inside)
    rwa [picks.place_unique (picksAt_of_getElem? within isPosition)]
  · intro isPosition
    exact ⟨Shape.mem_positions.mp (List.mem_of_getElem? isPosition), picksAt_of_getElem? within isPosition⟩

theorem pick_nested {index : Grid Value} (nested : index.data.any isArray = true) (source : Grid Value) :
    (array index).pick (array source) =
      (fun picked => array ⟨index.shape, picked⟩) <$> index.data.mapM (·.pick (array source)) := by
  have each : (fun inner : Value => inner.pick (array source)) = pickFrom source := rfl
  obtain ⟨shape, data⟩ := index
  simp only [each, ← pickAll_eq_mapM]
  simp only [pick, expectArray, pickFrom, nested, if_true]
  rfl

/-- Picking from an array with axes by a vector of numbers succeeds exactly when there is one of them for every axis,
and each is an integer that counts a position on its axis. What is picked is then what is left of the array when they
select one after the other. The positions without negative indices pick all the elements, in lexicographic order just
as they stand, and each element is picked by one of them. An index that holds arrays picks by each of its elements. -/
theorem pick_reads_positions {source : Grid Value} (formed : (array source).WellFormed) (within : source.shape.Within)
    (axes : 1 ≤ source.rank) :
    (∀ indices : List Float,
      ((∃ v, (indexVector indices).pick (array source) = .ok v) ↔
        List.Forall₂ (fun index axis => ∃ k, (number index).IsIndex axis k) indices source.shape) ∧
      (indices.length = source.rank → ∀ v,
        (indexVector indices).pick (array source) = .ok v ↔ selectEach indices (array source) = .ok v)) ∧
    (source.shape.positions.Pairwise (· < ·) ∧
      (∀ position, position ∈ source.shape.positions ↔ List.Forall₂ (· < ·) position source.shape) ∧
      List.Forall₂ (fun position element =>
        (indexVector (position.map Number.ofNat)).pick (array source) = .ok element)
        source.shape.positions source.data ∧
      ∀ place < source.data.length,
        ∃! position, List.Forall₂ (· < ·) position source.shape ∧ PicksAt source.shape position place) ∧
    ∀ index : Grid Value, index.data.any isArray = true →
      (array index).pick (array source) =
        (fun picked => array ⟨index.shape, picked⟩) <$> index.data.mapM (·.pick (array source)) := by
  have filled : source.data.length = source.shape.size := (meets_array.mp formed).1
  have count := length_positions within
  refine ⟨fun indices => ⟨?_, fun full v => ?_⟩, ⟨source.shape.positions_ordered, fun position => Shape.mem_positions,
    ?_, fun place inside => ?_⟩, fun index nested => pick_nested nested source⟩
  · simp only [pick_eq_ok within, ← exists_leadsTo_iff 0]
    constructor
    · rintro ⟨v, place, led, -⟩
      exact ⟨place, led⟩
    · rintro ⟨place, led⟩
      have inside := led.place_lt
      rw [Nat.zero_add, Nat.one_mul, ← filled] at inside
      exact ⟨_, place, led, List.getElem?_eq_getElem inside⟩
  · have whole : array source = cellAt source.shape source.data 0 := by
      have some : source.shape ≠ [] := List.ne_nil_of_length_pos axes
      rw [cellAt, cellOf_of_axes some, Nat.zero_mul, List.drop_zero, ← filled, List.take_length]
    rw [pick_eq_ok within, whole, selectEach_cellAt (by rw [filled, Nat.one_mul]) Nat.one_pos within full]
  · refine List.forall₂_iff_get.mpr ⟨count.trans filled.symm, fun place isPosition isElement => ?_⟩
    have found := List.getElem?_eq_getElem isPosition
    exact (pick_eq_ok within).mpr ⟨place, leadsTo_of_getElem? within found, List.getElem?_eq_getElem isElement⟩
  · rw [filled, ← count] at inside
    simp only [picksAt_iff within, List.getElem?_eq_getElem inside, Option.some.injEq]
    exact existsUnique_eq'

theorem pick_reads_positions_of_rows :
    let rows : Grid Value := ⟨[2, 2], [character 'a', character 'b', character 'c', character 'd']⟩
    let corners : Grid Value := ⟨[2], [indexVector [-1, 0], indexVector [0, -1]]⟩
    (array rows).WellFormed ∧ rows.shape.Within ∧ 1 ≤ rows.rank ∧
      (∃ v, (indexVector [-1, 0]).pick (array rows) = .ok v ∧ selectEach [-1, 0] (array rows) = .ok v) ∧
      rows.shape.positions = [[0, 0], [0, 1], [1, 0], [1, 1]] ∧
      List.Forall₂ (fun position element =>
        (indexVector (position.map Number.ofNat)).pick (array rows) = .ok element)
        [[0, 0], [0, 1], [1, 0], [1, 1]] rows.data ∧
      (∃! position, List.Forall₂ (· < ·) position [2, 2] ∧ PicksAt [2, 2] position 3) ∧
      (array corners).pick (array rows) =
        (fun picked => array ⟨[2], picked⟩) <$> corners.data.mapM (·.pick (array rows)) := by
  intro rows corners
  have formed : (array rows).WellFormed := by simp [rows, WellFormed, Meets, AllMeet, Demand.wellFormed]
  have within : rows.shape.Within := by decide
  have last : (number (-1)).IsIndex 2 (-1) :=
    ⟨⟨-1, rfl, (Number.toInteger_eq_ok.mp (by decide +kernel)).1⟩, by decide, by decide⟩
  have first : (number 0).IsIndex 2 0 :=
    ⟨⟨0, rfl, (Number.toInteger_eq_ok.mp (by decide +kernel)).1⟩, by decide, by decide⟩
  obtain ⟨vectors, ⟨-, -, inOrder, each⟩, nested⟩ := pick_reads_positions formed within (by decide)
  obtain ⟨succeeds, selects⟩ := vectors [-1, 0]
  obtain ⟨v, yields⟩ := succeeds.mpr (.cons ⟨-1, last⟩ (.cons ⟨0, first⟩ .nil))
  exact ⟨formed, within, by decide, ⟨v, yields, (selects rfl v).mp yields⟩, by decide, inOrder, each 3 (by decide),
    nested corners rfl⟩

end Value

end Tacit
