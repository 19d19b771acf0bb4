import Tacit.Proofs.Cells

/-! Taking arrays apart loses nothing. The cells at any rank are as many as their frame has places and hold the
elements of the array in order, so cells of cells are the cells of the whole: pieces of equal pieces are the smaller
pieces of the list. Stacking the major cells gives the array back, and a stack gives back its cells, except that cells
without axes are only their elements from then on. -/
namespace Tacit

theorem Grid.flatMap_chunks {α : Type} {count inner size : Nat} {data : List α}
    (even : data.length = count * (inner * size)) :
    (chunks count (inner * size) data).flatMap (chunks inner size) = chunks (count * inner) size data := by
  induction count generalizing data with
  | zero => simp [chunks]
  | succ count ih =>
    rw [Nat.succ_mul] at even
    have first : (data.take (inner * size)).length = inner * size := by
      rw [List.length_take, even]
      exact Nat.min_eq_left (Nat.le_add_left _ _)
    have others : (data.drop (inner * size)).length = count * (inner * size) := by
      rw [List.length_drop, even, Nat.add_sub_cancel]
    calc (chunks (count + 1) (inner * size) data).flatMap (chunks inner size)
        = chunks inner size (data.take (inner * size)) ++
            chunks (count * inner) size (data.drop (inner * size)) := by
          rw [chunks, List.flatMap_cons, ih others]
      _ = chunks (inner + count * inner) size (data.take (inner * size) ++ data.drop (inner * size)) :=
          (chunks_append first _ _).symm
      _ = chunks ((count + 1) * inner) size data := by
          rw [List.take_append_drop, Nat.succ_mul, Nat.add_comm]

namespace Value

variable {grid : Grid Value} {rank : Nat}

theorem cells_of_axes {frame cell : Shape} {data : List Value} (axes : cell ≠ [])
    (filled : data.length = Shape.size (frame ++ cell)) :
    cells ⟨frame ++ cell, data⟩ cell.length =
      (frame, (Grid.chunks frame.size cell.size data).map fun piece => array ⟨cell, piece⟩) := by
  rw [Shape.size_append] at filled
  have full : ∀ piece ∈ Grid.chunks frame.size cell.size data, piece.length = cell.size :=
    fun piece member => Shape.length_of_mem_chunks filled member
  have pieces := cells_of_pieces (Grid.length_chunks frame.size cell.size data) full
  rw [Grid.flatten_chunks _ _ _ filled] at pieces
  rw [pieces, List.map_congr_left fun piece _ => cellOf_of_axes axes piece]

theorem cells_beyond (beyond : grid.rank < rank) : cells grid rank = ([], [array grid]) := by
  have proper : rank ≠ 0 := by omega
  rw [cells, if_neg proper, if_pos (Nat.le_of_lt beyond)]

theorem exists_split {shape : Shape} (bound : rank ≤ shape.length) :
    ∃ frame cell : Shape, shape = frame ++ cell ∧ cell.length = rank := by
  refine ⟨shape.take (shape.length - rank), shape.drop (shape.length - rank), ?_, ?_⟩
  · rw [List.take_append_drop]
  · rw [List.length_drop]
    omega

/-- The cells of an array are arrays, of one shape unless the rank is beyond that of the array. -/
structure Decomposition (grid : Grid Value) (rank : Nat) (frame : Shape) (parts : List (Grid Value)) : Prop where
  cells : cells grid rank = (frame, parts.map array)
  count : parts.length = frame.size
  data : parts.flatMap Grid.data = grid.data
  shape : rank ≤ grid.rank → ∃ cell : Shape, cell.length = rank ∧ frame ++ cell = grid.shape ∧
    ∀ part ∈ parts, part.shape = cell
  filled : ∀ part ∈ parts, (array part).WellFormed
  /-- Cells of cells, one after the other, are the cells of the whole. -/
  finer : ∀ inner ≤ rank, parts.flatMap (fun part => (Value.cells part inner).2) = (Value.cells grid inner).2

/-- The cells of full pieces are the smaller pieces of the list that the pieces are cut from. -/
theorem cells_of_chunks {frame outer core : Shape} {data : List Value} (axes : core ≠ [])
    (filled : data.length = Shape.size (frame ++ (outer ++ core))) :
    (Grid.chunks frame.size (Shape.size (outer ++ core)) data).flatMap
        (fun piece => (cells ⟨outer ++ core, piece⟩ core.length).2) =
      (cells ⟨frame ++ (outer ++ core), data⟩ core.length).2 := by
  have even : data.length = frame.size * Shape.size (outer ++ core) := filled.trans (Shape.size_append _ _)
  have inside : ∀ piece ∈ Grid.chunks frame.size (Shape.size (outer ++ core)) data,
      (cells ⟨outer ++ core, piece⟩ core.length).2 =
        (Grid.chunks outer.size core.size piece).map fun part => array ⟨core, part⟩ := by
    intro piece isPiece
    rw [cells_of_axes axes (Shape.length_of_mem_chunks even isPiece)]
  rw [List.flatMap_congr inside, ← List.map_flatMap]
  rw [← List.append_assoc] at filled ⊢
  rw [cells_of_axes axes filled]
  rw [Shape.size_append outer core] at even ⊢
  rw [Grid.flatMap_chunks even, Shape.size_append]

theorem decomposition_of_axes {frame cell : Shape} {data : List Value} (axes : cell ≠ [])
    (filled : (array ⟨frame ++ cell, data⟩).WellFormed) :
    Decomposition ⟨frame ++ cell, data⟩ cell.length frame
      ((Grid.chunks frame.size cell.size data).map (Grid.mk cell)) := by
  obtain ⟨count, elements⟩ := meets_array.mp filled
  have even : data.length = frame.size * cell.size := count.trans (Shape.size_append frame cell)
  have whole : ((Grid.chunks frame.size cell.size data).map (Grid.mk cell)).flatMap Grid.data = data := by
    rw [List.flatMap_map]
    exact List.flatMap_id'.trans (Grid.flatten_chunks _ _ _ even)
  refine ⟨?_, by simp, whole, fun _ => ⟨cell, rfl, rfl, by simp⟩, ?_, ?_⟩
  · rw [cells_of_axes axes count, List.map_map]
    rfl
  · simp only [List.forall_mem_map]
    intro piece isPiece
    exact meets_array.mpr ⟨Shape.length_of_mem_chunks even isPiece,
      fun element inside => elements element (Grid.mem_of_mem_chunks isPiece inside)⟩
  · intro inner deeper
    cases inner with
    | zero => exact whole
    | succ inner =>
      obtain ⟨outer, core, rfl, isRank⟩ := exists_split deeper
      have proper : core ≠ [] := List.ne_nil_of_length_pos (by omega)
      rw [List.flatMap_map, ← isRank]
      exact cells_of_chunks proper count

theorem exists_decomposition (filled : (array grid).WellFormed) (proper : 0 < rank) :
    ∃ frame parts, Decomposition grid rank frame parts := by
  by_cases bound : rank ≤ grid.rank
  · obtain ⟨shape, data⟩ := grid
    obtain ⟨frame, cell, rfl, rfl⟩ := exists_split bound
    exact ⟨frame, _, decomposition_of_axes (List.ne_nil_of_length_pos proper) filled⟩
  · exact ⟨[], [grid], cells_beyond (by omega), rfl, by simp, fun within => absurd within bound,
      by simpa using filled, by simp⟩

theorem stack_majorCells (filled : (array grid).WellFormed) (axes : 2 ≤ grid.rank) (nonempty : 0 < grid.length) :
    stack (majorCells grid) = .ok grid := by
  obtain ⟨shape, data⟩ := grid
  match shape, axes with
  | axis :: second :: others, _ =>
    rw [majorCells_of_axes]
    exact stack_chunks nonempty (meets_array.mp filled).1

/-- An array without axes is its element; anything else is left as it is. -/
def disclosed : Value → Value
  | array ⟨[], [element]⟩ => element
  | value => value

theorem disclosed_of_filled {shape : Shape} {piece : List Value} (full : piece.length = shape.size) :
    disclosed (array ⟨shape, piece⟩) = cellOf shape piece := by
  cases shape with
  | nil =>
    obtain ⟨element, rfl⟩ := List.length_eq_one_iff.mp full
    rfl
  | cons axis axes => rfl

theorem majorCells_of_stack {cells : List Value} {stacked : Grid Value} (filled : ∀ cell ∈ cells, cell.WellFormed)
    (made : stack cells = .ok stacked) : majorCells stacked = cells.map disclosed := by
  rcases stack_cases made with ⟨rfl, bare⟩ | ⟨shape, pieces, rfl, rfl⟩
  · have same : ∀ cell ∈ cells, disclosed cell = cell := by
      intro cell member
      have plain := bare cell member
      cases cell with
      | array => cases plain
      | number | character | function => rfl
    rw [majorCells_vector, List.map_congr_left same, List.map_id']
  · have full : ∀ piece ∈ pieces, piece.length = shape.size :=
      fun piece member => (meets_array.mp (filled _ (List.mem_map_of_mem member))).1
    have count : pieces.flatten.length = Shape.size (pieces.length :: shape) := by
      rw [List.length_flatten, List.map_congr_left full]
      simp
    rw [majorCells_eq_map count, Grid.chunks_flatten full, List.map_map]
    exact List.map_congr_left fun piece member => (disclosed_of_filled (full piece member)).symm

/-- Cells at any rank are the whole array in order, and stacking is inverse to taking the major cells. -/
theorem cells_lossless :
    (∀ grid : Grid Value, (array grid).WellFormed →
      (∀ rank, (cells grid rank).2.length = (cells grid rank).1.size ∧
        ∀ cell ∈ (cells grid rank).2, cell.WellFormed) ∧
      (cells grid 0).2 = grid.data ∧
      (∀ rank, 0 < rank → ∃ frame parts, Decomposition grid rank frame parts) ∧
      (2 ≤ grid.rank → 0 < grid.length → stack (majorCells grid) = .ok grid)) ∧
    ∀ (cells : List Value) (stacked : Grid Value), (∀ cell ∈ cells, cell.WellFormed) →
      stack cells = .ok stacked → majorCells stacked = cells.map disclosed := by
  refine ⟨fun grid filled => ⟨fun rank => ?_, rfl, fun rank => exists_decomposition filled,
    stack_majorCells filled⟩, fun cells stacked => majorCells_of_stack⟩
  rcases Nat.eq_zero_or_pos rank with rfl | proper
  · exact meets_array.mp filled
  · obtain ⟨frame, parts, decomposition⟩ := exists_decomposition filled proper
    rw [decomposition.cells]
    exact ⟨(List.length_map _).trans decomposition.count, List.forall_mem_map.mpr decomposition.filled⟩

theorem cells_lossless_of_plane_and_elements :
    let plane : Grid Value := ⟨[2, 1, 2], [character 'a', character 'b', character 'c', character 'd']⟩
    let elements : List Value := [array ⟨[], [character 'a']⟩, array ⟨[], [character 'b']⟩]
    (array plane).WellFormed ∧ (∃ frame parts, Decomposition plane 2 frame parts) ∧
      stack (majorCells plane) = .ok plane ∧ (∀ cell ∈ elements, cell.WellFormed) ∧
      stack elements = .ok ⟨[2], [character 'a', character 'b']⟩ ∧
      majorCells ⟨[2], [character 'a', character 'b']⟩ = elements.map disclosed := by
  intro plane elements
  have filled : (array plane).WellFormed := meets_array.mpr ⟨rfl, by simp [plane]⟩
  have enclosed : ∀ cell ∈ elements, cell.WellFormed := by
    simp [elements, WellFormed, meets_array, Demand.wellFormed]
  obtain ⟨-, -, decomposed, restacked⟩ := cells_lossless.1 plane filled
  exact ⟨filled, decomposed 2 (by decide), restacked (by decide) (by decide), enclosed, rfl,
    cells_lossless.2 elements _ enclosed rfl⟩

end Value

end Tacit
