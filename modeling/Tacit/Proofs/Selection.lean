import Tacit.Proofs.Cells

/-! Selection gathers major cells. An index is an integer that counts a position on the leading axis, from its start or,
if it is negative, from behind its end. An array of indices selects the cells at their positions, in the frame
of the indices, and a bare number selects one cell as it is. -/
namespace Tacit

namespace Number

/-- The exact value of a finite number, in units of the smallest positive one. -/
def signedUnits (x : Float) : Int := if isNegative x then -(units (magnitude x) : Int) else units (magnitude x)

/-- The number is exactly the integer `k`. -/
def IsInteger (x : Float) (k : Int) : Prop := isFinite x ∧ signedUnits x = k * oneUnits

theorem oneUnits_pos : 0 < oneUnits := by decide +kernel

theorem signed_eq_mul_iff {negative : Bool} {size one : Nat} {k : Int} (positive : 0 < one) :
    (if negative then -(size : Int) else size) = k * one ↔
      size = k.natAbs * one ∧ (if negative then -(k.natAbs : Int) else k.natAbs) = k := by
  have nonzero : (one : Int) ≠ 0 := by omega
  constructor
  · intro same
    have sizes : size = k.natAbs * one := by
      have := congrArg Int.natAbs same
      cases negative <;> simpa [Int.natAbs_mul] using this
    refine ⟨sizes, ?_⟩
    rw [sizes] at same
    apply Int.eq_of_mul_eq_mul_right nonzero
    cases negative <;> simpa using same
  · rintro ⟨rfl, same⟩
    rw [← same]
    cases negative <;> simp

theorem divided_eq_ok {negative : Bool} {size one limit : Nat} {k : Int} (positive : 0 < one) :
    ((if limit * one < size then .error .tooLarge
      else if size % one ≠ 0 then .error .fractional
      else .ok (if negative then -((size : Int) / one) else (size : Int) / one)) : Result Int) = .ok k ↔
      (size = k.natAbs * one ∧ (if negative then -(k.natAbs : Int) else k.natAbs) = k) ∧ k.natAbs ≤ limit := by
  by_cases even : size % one = 0
  · obtain ⟨n, rfl⟩ := Nat.dvd_of_mod_eq_zero even
    have whole : ((one * n : Nat) : Int) / one = n := by
      rw [← Int.natCast_ediv, Nat.mul_div_cancel_left n positive]
    rw [whole]
    simp only [Nat.mul_comm one n, Nat.mul_lt_mul_right positive, Nat.mul_left_inj positive.ne', Nat.mul_mod_left]
    by_cases beyond : limit < n
    · simp only [beyond, if_true, reduceCtorEq, false_iff]
      omega
    · cases negative <;>
        simp only [beyond, ne_eq, not_true_eq_false, Bool.false_eq_true, if_false, if_true, Except.ok.injEq] <;> omega
  · constructor
    · intro yields
      split at yields <;> cases yields
    · rintro ⟨⟨rfl, -⟩, -⟩
      simp at even

theorem toInteger_eq_ok {x : Float} {k : Int} :
    toInteger x = .ok k ↔ IsInteger x k ∧ k.natAbs ≤ maxSafe := by
  rw [IsInteger, signedUnits, signed_eq_mul_iff oneUnits_pos, and_assoc, ← divided_eq_ok oneUnits_pos, toInteger]
  -- The argument does not depend on how many units make one.
  generalize oneUnits = one
  by_cases finite : isFinite x
  · have notNaN : isNaN x = false := by
      simp only [isFinite, isNaN, decide_eq_true_eq, decide_eq_false_iff_not] at finite ⊢
      omega
    simp [finite, notNaN]
  · by_cases isNaN x <;> simp_all

/-- The position that an index means, counted from the start of an axis. -/
def fromStart (length : Nat) (k : Int) : Nat := (if k < 0 then k + length else k).toNat

theorem fromStart_lt {length : Nat} {k : Int} (above : -(length : Int) ≤ k) (below : k < length) :
    fromStart length k < length := by
  unfold fromStart
  split <;> omega

theorem axisPosition_eq_ok {k : Int} {length position : Nat} (bound : length ≤ maxLength) :
    axisPosition k length = .ok position ↔
      (-(length : Int) ≤ k ∧ k < length) ∧ fromStart length k = position := by
  have fits : ¬ maxLength < length := by omega
  simp only [axisPosition, if_neg fits, fromStart]
  split_ifs <;> simp <;> omega

end Number

namespace Value

/-- The value is the integer `k`, and `k` counts a position on an axis of this length. -/
def IsIndex (value : Value) (length : Nat) (k : Int) : Prop :=
  (∃ x, value = number x ∧ Number.IsInteger x k) ∧ -(length : Int) ≤ k ∧ k < length

def Selects (index : Value) (source : Grid Value) (cell : Value) : Prop :=
  ∃ k, index.IsIndex source.length k ∧ (majorCells source)[Number.fromStart source.length k]? = some cell

theorem expectIndex_eq_ok {index : Value} {k : Int} :
    index.expectIndex = .ok k ↔ ∃ x, index = number x ∧ Number.toInteger x = .ok k := by
  cases index <;> simp [expectIndex, expectNumber, bind, Except.bind]

section Selection

variable {axis : Nat} {axes : Shape} {data : List Value}

/-- An index takes the piece of the elements at the position it means. -/
theorem cellData_eq_ok (bound : axis ≤ Shape.sizeLimit) {index : Value} {piece : List Value} :
    cellData ⟨axis :: axes, data⟩ index = .ok piece ↔
      ∃ k, index.IsIndex axis k ∧ (Grid.chunks axis axes.size data)[Number.fromStart axis k]? = some piece := by
  have short : axis ≤ Number.maxLength := Nat.le_trans bound (by decide)
  simp only [cellData, bind_eq_ok, pure_eq_ok, expectIndex_eq_ok]
  constructor
  · rintro ⟨k, ⟨x, rfl, isInteger⟩, position, isPosition, rfl⟩
    obtain ⟨inside, rfl⟩ := (Number.axisPosition_eq_ok short).mp isPosition
    refine ⟨k, ⟨⟨x, rfl, (Number.toInteger_eq_ok.mp isInteger).1⟩, inside⟩, ?_⟩
    exact Grid.getElem?_chunks data (Number.fromStart_lt inside.1 inside.2)
  · rintro ⟨k, ⟨⟨x, rfl, isInteger⟩, inside⟩, isPiece⟩
    have safe : k.natAbs ≤ Number.maxSafe := by
      have : Shape.sizeLimit ≤ Number.maxSafe := by decide
      omega
    refine ⟨k, ⟨x, rfl, Number.toInteger_eq_ok.mpr ⟨isInteger, safe⟩⟩, _,
      (Number.axisPosition_eq_ok short).mpr ⟨inside, rfl⟩, ?_⟩
    rw [Grid.getElem?_chunks data (Number.fromStart_lt inside.1 inside.2)] at isPiece
    exact Option.some.inj isPiece

theorem length_of_cellData (filled : data.length = Shape.size (axis :: axes)) (bound : axis ≤ Shape.sizeLimit)
    {index : Value} {piece : List Value} (read : cellData ⟨axis :: axes, data⟩ index = .ok piece) :
    piece.length = axes.size := by
  obtain ⟨k, -, isPiece⟩ := (cellData_eq_ok bound).mp read
  exact Shape.length_of_mem_chunks filled (List.mem_of_getElem? isPiece)

theorem selects_iff (filled : data.length = Shape.size (axis :: axes)) (bound : axis ≤ Shape.sizeLimit)
    {index cell : Value} :
    index.Selects ⟨axis :: axes, data⟩ cell ↔
      ∃ piece, cellData ⟨axis :: axes, data⟩ index = .ok piece ∧ cellOf axes piece = cell := by
  simp only [Selects, majorCells_eq_map filled, List.getElem?_map, Option.map_eq_some_iff, cellData_eq_ok bound]
  constructor
  · rintro ⟨k, isIndex, piece, isPiece, isCell⟩
    exact ⟨piece, ⟨k, isIndex, isPiece⟩, isCell⟩
  · rintro ⟨piece, ⟨k, isIndex, isPiece⟩, isCell⟩
    exact ⟨k, isIndex, piece, isPiece, isCell⟩

/-- A position on the axis is all that an index needs to select a cell. -/
theorem exists_cellData_iff (bound : axis ≤ Shape.sizeLimit) {index : Value} :
    (∃ piece, cellData ⟨axis :: axes, data⟩ index = .ok piece) ↔ ∃ k, index.IsIndex axis k := by
  simp only [cellData_eq_ok bound]
  constructor
  · rintro ⟨piece, k, isIndex, -⟩
    exact ⟨k, isIndex⟩
  · rintro ⟨k, isIndex⟩
    exact ⟨_, k, isIndex, Grid.getElem?_chunks data (Number.fromStart_lt isIndex.2.1 isIndex.2.2)⟩

theorem select_number_eq (filled : data.length = Shape.size (axis :: axes)) (within : Shape.Within (axis :: axes))
    (bound : axis ≤ Shape.sizeLimit) (x : Float) :
    (number x).select (array ⟨axis :: axes, data⟩) = cellOf axes <$> cellData ⟨axis :: axes, data⟩ (number x) := by
  cases read : cellData ⟨axis :: axes, data⟩ (number x) with
  | error e => simp [select, expectArray, Grid.rank, read, bind, Except.bind, Functor.map, Except.map]
  | ok piece =>
    simp only [cellData, bind_eq_ok, pure_eq_ok, expectIndex_eq_ok] at read
    obtain ⟨k, ⟨_, ⟨⟩, isInteger⟩, position, isPosition, rfl⟩ := read
    have inside : position < axis := by
      obtain ⟨⟨above, below⟩, rfl⟩ := (Number.axisPosition_eq_ok (Nat.le_trans bound (by decide))).mp isPosition
      exact Number.fromStart_lt above below
    refine select_number isInteger isPosition filled within.tail ?_
    rw [majorCells_eq_map filled, List.getElem?_map, Grid.getElem?_chunks data inside]
    rfl

theorem pieces_full (filled : data.length = Shape.size (axis :: axes)) (bound : axis ≤ Shape.sizeLimit)
    {indices : Grid Value} (count : indices.data.length = indices.shape.size) {pieces : List (List Value)}
    (read : indices.data.mapM (cellData ⟨axis :: axes, data⟩) = .ok pieces) :
    pieces.length = indices.shape.size ∧ ∀ piece ∈ pieces, piece.length = axes.size := by
  obtain ⟨sameLength, full⟩ := forall_of_mapM_eq_ok read fun index _ piece read => length_of_cellData filled bound read
  exact ⟨sameLength.trans count, full⟩

theorem forall₂_selects (filled : data.length = Shape.size (axis :: axes)) (bound : axis ≤ Shape.sizeLimit)
    {indices : List Value} {pieces : List (List Value)}
    (read : indices.mapM (cellData ⟨axis :: axes, data⟩) = .ok pieces) :
    List.Forall₂ (fun index cell => index.Selects ⟨axis :: axes, data⟩ cell) indices (pieces.map (cellOf axes)) := by
  rw [List.forall₂_map_right_iff]
  exact (mapM_eq_ok.mp read).imp fun index piece read => (selects_iff filled bound).mpr ⟨piece, read, rfl⟩

theorem exists_mapM_cellData_iff (bound : axis ≤ Shape.sizeLimit) {indices : List Value} :
    (∃ pieces, indices.mapM (cellData ⟨axis :: axes, data⟩) = .ok pieces) ↔
      ∀ index ∈ indices, ∃ k, index.IsIndex axis k := by
  simp only [exists_mapM_eq_ok_iff, exists_cellData_iff bound]

/-- An array of indices takes the pieces that its elements mean, if the whole is within the limit. -/
theorem select_array_eq_ok (filled : data.length = Shape.size (axis :: axes)) (bound : axis ≤ Shape.sizeLimit)
    {indices : Grid Value} (count : indices.data.length = indices.shape.size) {v : Value} :
    (array indices).select (array ⟨axis :: axes, data⟩) = .ok v ↔
      Shape.Within (indices.shape ++ axes) ∧
        ∃ pieces, indices.data.mapM (cellData ⟨axis :: axes, data⟩) = .ok pieces ∧
          array ⟨indices.shape ++ axes, pieces.flatten⟩ = v := by
  have unfolded : (array indices).select (array ⟨axis :: axes, data⟩) = (do
      let _ ← Shape.boundedSize (indices.shape ++ axes)
      let pieces ← indices.data.mapM (cellData ⟨axis :: axes, data⟩)
      return array (← Grid.ofShape (indices.shape ++ axes) pieces.flatten)) := rfl
  simp only [unfolded, bind_eq_ok, pure_eq_ok]
  constructor
  · rintro ⟨size, bounded, pieces, read, grid, made, rfl⟩
    obtain ⟨-, rfl⟩ := Grid.ofShape_eq_ok.mp made
    exact ⟨Shape.within_of_boundedSize bounded, pieces, read, rfl⟩
  · rintro ⟨within, pieces, read, rfl⟩
    obtain ⟨count, full⟩ := pieces_full filled bound count read
    have size : pieces.flatten.length = Shape.size (indices.shape ++ axes) := by
      rw [List.length_flatten, List.map_congr_left full, Shape.size_append, ← count]
      simp
    have made := Grid.ofShape_of_within within size
    exact ⟨_, Shape.boundedSize_of_within within, pieces, read, _, made, rfl⟩

end Selection

/-- An array of indices selects from an array with axes exactly when the shape of the indices followed by that of the
cells is within the limit and every element is an integer that counts a position on the leading axis. The result is
then cut by the frame of the indices into the major cells that the elements mean, in their order. A bare number
selects under the same condition, and what it selects is the major cell that it means. -/
theorem select_gathers_cells {source : Grid Value} (formed : (array source).WellFormed) (within : source.shape.Within)
    (axes : 1 ≤ source.rank) :
    (∀ indices : Grid Value, indices.data.length = indices.shape.size →
      ((∃ v, (array indices).select (array source) = .ok v) ↔
        Shape.Within (indices.shape ++ source.shape.tail) ∧
          ∀ index ∈ indices.data, ∃ k, index.IsIndex source.length k) ∧
      ∀ v, (array indices).select (array source) = .ok v →
        ∃ result selected, v = array result ∧ result.shape = indices.shape ++ source.shape.tail ∧
          cells result (source.rank - 1) = (indices.shape, selected) ∧
          List.Forall₂ (fun index cell => index.Selects source cell) indices.data selected) ∧
    ∀ x : Float,
      ((∃ v, (number x).select (array source) = .ok v) ↔ ∃ k, (number x).IsIndex source.length k) ∧
      ∀ v, (number x).select (array source) = .ok v → (number x).Selects source v := by
  have filled : source.data.length = source.shape.size := (meets_array.mp formed).1
  have bound : source.length ≤ Shape.sizeLimit := within.length_le
  obtain ⟨axis, others, isShape⟩ := List.exists_cons_of_length_pos axes
  obtain ⟨shape, data⟩ := source
  subst isShape
  constructor
  · intro indices count
    simp only [select_array_eq_ok filled bound count]
    constructor
    · constructor
      · rintro ⟨v, fits, pieces, read, -⟩
        exact ⟨fits, (exists_mapM_cellData_iff bound).mp ⟨pieces, read⟩⟩
      · rintro ⟨fits, each⟩
        obtain ⟨pieces, read⟩ := (exists_mapM_cellData_iff bound).mpr each
        exact ⟨_, fits, pieces, read, rfl⟩
    · rintro v ⟨-, pieces, read, rfl⟩
      obtain ⟨sameCount, full⟩ := pieces_full filled bound count read
      exact ⟨_, _, rfl, rfl, cells_of_pieces sameCount full, forall₂_selects filled bound read⟩
  · intro x
    simp only [select_number_eq filled within bound x, map_eq_ok]
    constructor
    · constructor
      · rintro ⟨v, piece, read, -⟩
        exact (exists_cellData_iff bound).mp ⟨piece, read⟩
      · intro isIndex
        obtain ⟨piece, read⟩ := (exists_cellData_iff bound).mpr isIndex
        exact ⟨_, piece, read, rfl⟩
    · exact fun v => (selects_iff filled bound).mpr

theorem select_gathers_cells_of_rows :
    let rows : Grid Value := ⟨[2, 2], [character 'a', character 'b', character 'c', character 'd']⟩
    let indices : Grid Value := ⟨[1, 2], [number (-1), number 0]⟩
    (array rows).WellFormed ∧ rows.shape.Within ∧
      (∃ result selected, (array indices).select (array rows) = .ok (array result) ∧ result.shape = [1, 2, 2] ∧
        cells result 1 = ([1, 2], selected) ∧
        List.Forall₂ (fun index cell => index.Selects rows cell) indices.data selected) ∧
      ∃ cell, (number (-1)).select (array rows) = .ok cell ∧ (number (-1)).Selects rows cell := by
  intro rows indices
  have formed : (array rows).WellFormed := by simp [rows, WellFormed, Meets, AllMeet, Demand.wellFormed]
  have within : rows.shape.Within := by decide
  have last : (number (-1)).IsIndex 2 (-1) :=
    ⟨⟨-1, rfl, (Number.toInteger_eq_ok.mp (by decide +kernel)).1⟩, by decide, by decide⟩
  have first : (number 0).IsIndex 2 0 :=
    ⟨⟨0, rfl, (Number.toInteger_eq_ok.mp (by decide +kernel)).1⟩, by decide, by decide⟩
  obtain ⟨succeeds, gathers⟩ := (select_gathers_cells formed within (by decide)).1 indices rfl
  have counted : ∀ index ∈ indices.data, ∃ k, index.IsIndex rows.length k := by
    rw [List.forall_mem_cons, List.forall_mem_singleton]
    exact ⟨⟨-1, last⟩, 0, first⟩
  obtain ⟨v, yields⟩ := succeeds.mpr ⟨by decide, counted⟩
  obtain ⟨result, selected, rfl, isShape, cut, each⟩ := gathers v yields
  obtain ⟨alone, takes⟩ := (select_gathers_cells formed within (by decide)).2 (-1)
  obtain ⟨cell, taken⟩ := alone.mpr ⟨-1, last⟩
  exact ⟨formed, within, ⟨result, selected, yields, isShape, cut, each⟩, cell, taken, takes cell taken⟩

end Value

end Tacit
