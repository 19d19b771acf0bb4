import Tacit.Proofs.Prefixes

/-! Cells as pieces of the elements. Whatever the axes of an array are, its cells are equal pieces of its elements in
order, each seen as an array of the trailing axes; where no axes trail, a piece is a single element and the cell is
that element. So arrays can be cut and put together as lists are. -/
namespace Tacit

theorem Grid.chunks_append {α : Type} {n size : Nat} {xs : List α} (full : xs.length = n * size) (m : Nat)
    (ys : List α) : chunks (n + m) size (xs ++ ys) = chunks n size xs ++ chunks m size ys := by
  induction n generalizing xs with
  | zero =>
    have empty : xs = [] := List.eq_nil_of_length_eq_zero (by simpa using full)
    simp [empty, chunks]
  | succ n ih =>
    have room : size ≤ xs.length := by
      rw [full, Nat.succ_mul]
      exact Nat.le_add_left _ _
    have rest : (xs.drop size).length = n * size := by
      rw [List.length_drop, full, Nat.succ_mul, Nat.add_sub_cancel]
    rw [Nat.succ_add, chunks, chunks, List.take_append_of_le_length room, List.drop_append_of_le_length room,
      ih rest, List.cons_append]

namespace Value

/-- The cell of a shape with the given elements; a cell without axes is its element. -/
def cellOf : Shape → List Value → Value
  | [], [element] => element
  | shape, data => array ⟨shape, data⟩

theorem cellOf_of_axes {shape : Shape} (axes : shape ≠ []) (data : List Value) :
    cellOf shape data = array ⟨shape, data⟩ := by
  cases shape with
  | nil => exact absurd rfl axes
  | cons axis others => rfl

theorem map_cellOf_nil {pieces : List (List Value)} (single : ∀ piece ∈ pieces, piece.length = 1) :
    pieces.map (cellOf []) = pieces.flatten := by
  induction pieces with
  | nil => rfl
  | cons piece pieces ih =>
    obtain ⟨first, others⟩ := List.forall_mem_cons.mp single
    obtain ⟨element, rfl⟩ := List.length_eq_one_iff.mp first
    rw [List.map_cons, ih others]
    rfl

theorem majorCells_eq_map {axis : Nat} {axes : Shape} {data : List Value}
    (filled : data.length = Shape.size (axis :: axes)) :
    majorCells ⟨axis :: axes, data⟩ = (Grid.chunks axis axes.size data).map (cellOf axes) := by
  cases axes with
  | nil =>
    have single : ∀ piece ∈ Grid.chunks axis (Shape.size []) data, piece.length = 1 :=
      fun piece member => Shape.length_of_mem_chunks filled member
    rw [map_cellOf_nil single, Grid.flatten_chunks axis (Shape.size []) data filled]
    rfl
  | cons second axes => exact majorCells_of_axes axis second axes data

/-- Full pieces, as many as a frame has places, are the cells of what they make up. -/
theorem cells_of_pieces {frame cell : Shape} {pieces : List (List Value)} (count : pieces.length = frame.size)
    (full : ∀ piece ∈ pieces, piece.length = cell.size) :
    cells ⟨frame ++ cell, pieces.flatten⟩ cell.length = (frame, pieces.map (cellOf cell)) := by
  by_cases axes : cell = []
  · subst cell
    simp [cells, map_cellOf_nil full]
  · have proper : cell.length ≠ 0 := by simpa using axes
    rw [List.map_congr_left fun piece _ => cellOf_of_axes axes piece]
    by_cases single : frame = []
    · subst frame
      obtain ⟨piece, rfl⟩ := List.length_eq_one_iff.mp count
      simp [cells, Grid.rank, proper]
    · have above : ¬ (frame ++ cell).length ≤ cell.length := by
        have := List.length_pos_of_ne_nil single
        rw [List.length_append]
        omega
      have split : (frame ++ cell).length - cell.length = frame.length := by simp
      simp only [cells, Grid.rank, if_neg proper, if_neg above, Grid.cells, split, List.take_left', List.drop_left',
        ← count, Grid.chunks_flatten full, List.map_map]
      rfl

end Value

end Tacit
