import Tacit.Proofs.Cells

/-! Catenation joins cells. Each of two values brings cells of one shape to a catenation: an array of the larger rank
its major cells, an array of the rank below itself as the only cell, and what is no array one cell like those of its
partner, filled with it. The values can be joined exactly when the cells of both have one shape, and then the
cells of the result are those of the left value followed by those of the right one. -/
namespace Tacit

namespace Shape

theorem Within.shorten {n m : Nat} {axes : Shape} (within : Within (m :: axes)) (shorter : n ≤ m) :
    Within (n :: axes) := by
  by_cases empty : n = 0
  · simpa [Within, empty] using within.tail
  · have proper : m ≠ 0 := by omega
    simp only [Within, ne_eq, empty, proper, not_false_eq_true, decide_true, List.filter_cons_of_pos, size_cons] at *
    exact Nat.le_trans (Nat.mul_le_mul_right _ shorter) within

theorem Within.single {axes : Shape} (within : axes.Within) : Within (1 :: axes) := by
  simpa [Within] using within

end Shape

theorem Grid.ofShape_of_not_within {α : Type} {shape : Shape} {data : List α} (beyond : ¬ shape.Within) :
    ofShape shape data = .error .tooLarge := by
  have bounded : shape.boundedSize = .error .tooLarge := (Shape.boundedSize_eq shape).trans (if_neg beyond)
  simp [ofShape, bounded, bind, Except.bind]

/-- An array without axes as the vector of its element, and any other as it is. -/
def Grid.withAxis {α : Type} : Grid α → Grid α
  | ⟨[], data⟩ => ⟨[1], data⟩
  | grid => grid

def Grid.asCell {α : Type} (grid : Grid α) : Grid α := ⟨1 :: grid.shape, grid.data⟩

/-- An array with an axis, as many elements as its shape says, and a shape within the limit. -/
structure Grid.Joinable (grid : Grid Value) : Prop where
  axes : grid.shape ≠ []
  filled : grid.data.length = grid.shape.size
  within : grid.shape.Within

namespace Value

section Join

variable {x y : Grid Value}

theorem joinable_withAxis (filled : x.data.length = x.shape.size) (within : x.shape.Within) : x.withAxis.Joinable := by
  obtain ⟨shape, data⟩ := x
  cases shape with
  | nil => exact ⟨by simp [Grid.withAxis], filled, Shape.within_nil.single⟩
  | cons axis axes => exact ⟨by simp [Grid.withAxis], filled, within⟩

theorem withAxis_of_axes (axes : x.shape ≠ []) : x.withAxis = x := by
  obtain ⟨shape, data⟩ := x
  cases shape with
  | nil => exact absurd rfl axes
  | cons => rfl

theorem promoted_eq (filled : x.data.length = x.shape.size) : promoted x = .ok x.withAxis := by
  obtain ⟨shape, data⟩ := x
  cases shape with
  | nil => exact Grid.ofShape_of_within (by decide) filled
  | cons axis axes => rfl

theorem asOnlyCell_eq (joinable : x.Joinable) : asOnlyCell x = .ok x.asCell := by
  refine Grid.ofShape_of_within joinable.within.single ?_
  simpa using joinable.filled

def joinCells (x y : Grid Value) : Result (Grid Value) :=
  if x.shape.tail = y.shape.tail then Grid.ofShape ((x.length + y.length) :: x.shape.tail) (x.data ++ y.data)
  else .error (.shapeMismatch (.catenated x.shape y.shape))

theorem join_of_levelled {x' y' : Grid Value} (left : x.data.length = x.shape.size)
    (right : y.data.length = y.shape.size) (level : levelled x.withAxis y.withAxis = .ok (x', y')) :
    join x y =
      if x'.rank = y'.rank then joinCells x' y' else .error (.shapeMismatch (.catenated x'.shape y'.shape)) := by
  rw [join, promoted_eq left, promoted_eq right]
  change (levelled x.withAxis y.withAxis >>= _) = _
  rw [level]
  simp only [joinCells, List.drop_one]
  change (if x'.rank ≠ y'.rank ∨ x'.shape.tail ≠ y'.shape.tail then _ else _) = _
  by_cases rank : x'.rank = y'.rank <;> by_cases cell : x'.shape.tail = y'.shape.tail <;> simp [rank, cell] <;> rfl

theorem levelled_of_unlike (above : x.rank ≠ y.rank + 1) (below : x.rank + 1 ≠ y.rank) :
    levelled x y = .ok (x, y) := by
  simp [levelled, above, below, pure, Except.pure]

/-- Arrays of one rank are joined as they stand. -/
theorem join_of_rank_eq (left : x.data.length = x.shape.size) (right : y.data.length = y.shape.size)
    (same : x.withAxis.rank = y.withAxis.rank) : join x y = joinCells x.withAxis y.withAxis := by
  rw [join_of_levelled left right (levelled_of_unlike (by omega) (by omega))]
  exact if_pos same

theorem levelled_of_above (joinable : y.Joinable) (above : x.rank = y.rank + 1) :
    levelled x y = .ok (x, y.asCell) := by
  simp [levelled, above, asOnlyCell_eq joinable, bind, Except.bind, pure, Except.pure]

theorem levelled_of_below (joinable : x.Joinable) (below : x.rank + 1 = y.rank) :
    levelled x y = .ok (x.asCell, y) := by
  have above : ¬ x.rank = y.rank + 1 := by omega
  simp [levelled, above, below, asOnlyCell_eq joinable, bind, Except.bind, pure, Except.pure]

end Join

/-- The cells that a value brings to a catenation, all of one shape. -/
structure Side where
  shape : Shape
  cells : List Value

/-- An array along whose leading axis the cells stand. -/
structure Presents (grid : Grid Value) (side : Side) : Prop where
  shape : grid.shape = side.cells.length :: side.shape
  filled : grid.data.length = grid.shape.size
  cells : majorCells grid = side.cells

section Presents

variable {x y : Grid Value} {left right : Side}

theorem presents_majorCells (joinable : x.Joinable) : Presents x ⟨x.shape.tail, majorCells x⟩ := by
  obtain ⟨shape, data⟩ := x
  cases shape with
  | nil => exact absurd rfl joinable.axes
  | cons axis axes => exact ⟨by rw [length_majorCells joinable.filled]; rfl, joinable.filled, rfl⟩

theorem presents_single {shape : Shape} {data : List Value} (filled : data.length = shape.size) :
    Presents ⟨1 :: shape, data⟩ ⟨shape, [cellOf shape data]⟩ := by
  have full : data.length = Shape.size (1 :: shape) := by simpa using filled
  refine ⟨rfl, full, ?_⟩
  rw [majorCells_eq_map full, ← filled]
  simp [Grid.chunks]

theorem presents_asCell (joinable : x.Joinable) : Presents x.asCell ⟨x.shape, [array x]⟩ := by
  rw [← cellOf_of_axes joinable.axes x.data]
  exact presents_single joinable.filled

/-- Arrays of cells of one shape, one after the other, make up an array of the cells of both. -/
theorem Presents.append (ofLeft : Presents x left) (ofRight : Presents y right) (same : left.shape = right.shape) :
    Presents ⟨(left.cells.length + right.cells.length) :: left.shape, x.data ++ y.data⟩
      ⟨left.shape, left.cells ++ right.cells⟩ := by
  obtain ⟨shape, data⟩ := x
  obtain ⟨otherShape, others⟩ := y
  obtain ⟨rfl, filled, cells⟩ := ofLeft
  obtain ⟨rfl, otherFilled, otherCells⟩ := ofRight
  rw [majorCells_eq_map filled] at cells
  rw [majorCells_eq_map otherFilled, ← same] at otherCells
  have full : (data ++ others).length = Shape.size ((left.cells.length + right.cells.length) :: left.shape) := by
    rw [List.length_append, filled, otherFilled, ← same]
    simp [Nat.add_mul]
  refine ⟨by simp, full, ?_⟩
  have even : data.length = left.cells.length * left.shape.size := filled
  rw [majorCells_eq_map full, Grid.chunks_append even, List.map_append, cells, otherCells]

/-- Joining arrays of cells: their cells are put together if they have one shape and the whole is within the limit. -/
theorem joinCells_of_presents (ofLeft : Presents x left) (ofRight : Presents y right) :
    (left.shape ≠ right.shape ∧ joinCells x y = .error (.shapeMismatch (.catenated x.shape y.shape))) ∨
    (left.shape = right.shape ∧
      let shape : Shape := (left.cells.length + right.cells.length) :: left.shape
      (¬ shape.Within ∧ joinCells x y = .error .tooLarge ∨
        shape.Within ∧ joinCells x y = .ok ⟨shape, x.data ++ y.data⟩)) := by
  have length : x.length = left.cells.length := by rw [Grid.length, ofLeft.shape]; rfl
  have otherLength : y.length = right.cells.length := by rw [Grid.length, ofRight.shape]; rfl
  by_cases same : left.shape = right.shape
  · right
    refine ⟨same, ?_⟩
    intro shape
    have made : joinCells x y = Grid.ofShape shape (x.data ++ y.data) := by
      simp [joinCells, ofLeft.shape, ofRight.shape, same, length, otherLength, shape]
    rw [made]
    by_cases within : shape.Within
    · have joined := ofLeft.append ofRight same
      exact .inr ⟨within, Grid.ofShape_of_within within joined.filled⟩
    · exact .inl ⟨within, Grid.ofShape_of_not_within within⟩
  · left
    exact ⟨same, by simp [joinCells, ofLeft.shape, ofRight.shape, same]⟩

end Presents

def withAxis : Value → Value
  | array grid => array grid.withAxis
  | value => value

def rank (value : Value) : Nat := (value.axes?.getD []).length

/-- The shape of the major cells; what is no array counts as having none. -/
def cellShape (value : Value) : Shape := (value.axes?.getD []).tail

/-- The cells that a value brings to a catenation of rank `r` with a partner. -/
def side (r : Nat) (partner : Value) : Value → Side
  | array grid => if grid.rank = r then ⟨grid.shape.tail, majorCells grid⟩ else ⟨grid.shape, [array grid]⟩
  | value => ⟨partner.cellShape, [cellOf partner.cellShape (List.replicate partner.cellShape.size value)]⟩

/-- Two arrays of ranks that differ by more than one. -/
def RanksApart (x y : Value) : Prop :=
  x.isArray ∧ y.isArray ∧ (x.rank + 1 < y.rank ∨ y.rank + 1 < x.rank)

def WithinLimit (value : Value) : Prop := ∀ shape ∈ value.axes?, shape.Within

section Sides

variable {x y : Value}

theorem isArray_cases (value : Value) : (∃ grid, value = array grid) ∨ value.isArray = false := by
  cases value with
  | array grid => exact .inl ⟨grid, rfl⟩
  | number | character | function => exact .inr rfl

theorem withAxis_of_plain {value : Value} (plain : value.isArray = false) :
    value.withAxis = value ∧ value.rank = 0 := by
  cases value <;> cases plain <;> exact ⟨rfl, rfl⟩

theorem side_of_rank_eq {r : Nat} (partner : Value) {grid : Grid Value} (same : grid.rank = r) :
    side r partner (array grid) = ⟨grid.shape.tail, majorCells grid⟩ := if_pos same

theorem side_of_rank_ne {r : Nat} (partner : Value) {grid : Grid Value} (different : grid.rank ≠ r) :
    side r partner (array grid) = ⟨grid.shape, [array grid]⟩ := if_neg different

theorem side_of_plain (r : Nat) (partner : Value) {value : Value} (plain : value.isArray = false) :
    side r partner value =
      ⟨partner.cellShape, [cellOf partner.cellShape (List.replicate partner.cellShape.size value)]⟩ := by
  cases value <;> cases plain <;> rfl

/-- Two arrays whose ranks differ by at most one are joined as the cells they bring. -/
theorem join_sides {a b : Grid Value} (left : a.data.length = a.shape.size) (right : b.data.length = b.shape.size)
    (leftJoins : a.withAxis.Joinable) (rightJoins : b.withAxis.Joinable)
    (near : a.withAxis.rank ≤ b.withAxis.rank + 1 ∧ b.withAxis.rank ≤ a.withAxis.rank + 1) :
    ∃ g h, Presents g (side (max a.withAxis.rank b.withAxis.rank) (array b.withAxis) (array a.withAxis)) ∧
      Presents h (side (max a.withAxis.rank b.withAxis.rank) (array a.withAxis) (array b.withAxis)) ∧
      join a b = joinCells g h := by
  rcases Nat.lt_trichotomy a.withAxis.rank b.withAxis.rank with below | same | above
  · have level : a.withAxis.rank + 1 = b.withAxis.rank := by omega
    rw [side_of_rank_ne _ (by omega), side_of_rank_eq _ (by omega)]
    refine ⟨_, _, presents_asCell leftJoins, presents_majorCells rightJoins, ?_⟩
    rw [join_of_levelled left right (levelled_of_below leftJoins level)]
    exact if_pos level
  · rw [side_of_rank_eq _ (by omega), side_of_rank_eq _ (by omega)]
    exact ⟨_, _, presents_majorCells leftJoins, presents_majorCells rightJoins, join_of_rank_eq left right same⟩
  · have level : a.withAxis.rank = b.withAxis.rank + 1 := by omega
    rw [side_of_rank_eq _ (by omega), side_of_rank_ne _ (by omega)]
    refine ⟨_, _, presents_majorCells leftJoins, presents_asCell rightJoins, ?_⟩
    rw [join_of_levelled left right (levelled_of_above rightJoins level)]
    exact if_pos level

theorem join_of_apart {a b : Grid Value} (left : a.data.length = a.shape.size) (right : b.data.length = b.shape.size)
    (apart : a.withAxis.rank + 1 < b.withAxis.rank ∨ b.withAxis.rank + 1 < a.withAxis.rank) :
    join a b = .error (.shapeMismatch (.catenated a.withAxis.shape b.withAxis.shape)) := by
  rw [join_of_levelled left right (levelled_of_unlike (by omega) (by omega))]
  exact if_neg (by omega)

def cellLike (grid : Grid Value) (fill : Value) : Grid Value :=
  ⟨1 :: grid.shape.tail, List.replicate (Shape.size grid.shape.tail) fill⟩

theorem length_cellLike (grid : Grid Value) (fill : Value) :
    (cellLike grid fill).data.length = (cellLike grid fill).shape.size := by
  simp [cellLike]

theorem rank_cellLike {grid : Grid Value} (axes : grid.shape ≠ []) (fill : Value) :
    (cellLike grid fill).rank = grid.rank := by
  have := List.length_pos_of_ne_nil axes
  simp only [cellLike, Grid.rank, List.length_cons, List.length_tail]
  omega

theorem filledCell_eq {grid : Grid Value} (within : grid.shape.Within) (fill : Value) :
    filledCell fill grid = .ok (cellLike grid.withAxis fill) := by
  have tail : grid.withAxis.shape.tail = grid.shape.tail := by
    obtain ⟨_ | ⟨axis, axes⟩, data⟩ := grid <;> rfl
  have bounded : Shape.boundedSize (1 :: grid.shape.tail) = .ok (Shape.size (1 :: grid.shape.tail)) :=
    Shape.boundedSize_of_within within.drop_leading.single
  have full : (List.replicate (Shape.size (1 :: grid.shape.tail)) fill).length = Shape.size (1 :: grid.shape.tail) :=
    List.length_replicate
  rw [filledCell, List.drop_one, bounded, cellLike, tail]
  simpa [bind, Except.bind] using Grid.ofShape_of_within within.drop_leading.single full

theorem presents_cellLike (r : Nat) (grid : Grid Value) {fill : Value} (plain : fill.isArray = false) :
    Presents (cellLike grid fill) (side r (array grid) fill) := by
  rw [side_of_plain r (array grid) plain]
  exact presents_single List.length_replicate

theorem catenate_plain {a : Grid Value} {y : Value} (filled : a.data.length = a.shape.size) (within : a.shape.Within)
    (plain : y.isArray = false) :
    (array a).catenate y = array <$> joinCells a.withAxis (cellLike a.withAxis y) := by
  have joins := joinable_withAxis filled within
  have ranks : a.withAxis.rank = (cellLike a.withAxis y).withAxis.rank := (rank_cellLike joins.axes y).symm
  have joined := join_of_rank_eq filled (length_cellLike a.withAxis y) ranks
  cases y <;> cases plain <;> simp only [catenate, filledCell_eq within] <;> exact congrArg (array <$> ·) joined

theorem plain_catenate {x : Value} {b : Grid Value} (filled : b.data.length = b.shape.size) (within : b.shape.Within)
    (plain : x.isArray = false) :
    x.catenate (array b) = array <$> joinCells (cellLike b.withAxis x) b.withAxis := by
  have joins := joinable_withAxis filled within
  have ranks : (cellLike b.withAxis x).withAxis.rank = b.withAxis.rank := rank_cellLike joins.axes x
  have joined := join_of_rank_eq (length_cellLike b.withAxis x) filled ranks
  cases x <;> cases plain <;> simp only [catenate, filledCell_eq within] <;> exact congrArg (array <$> ·) joined

/-- Two values, not both no arrays, are joined as the cells they bring, unless they are arrays whose ranks are too far
apart. -/
theorem catenate_sides (left : x.WellFormed) (right : y.WellFormed) (leftWithin : x.WithinLimit)
    (rightWithin : y.WithinLimit) (some : x.isArray ∨ y.isArray) :
    let r := max x.withAxis.rank y.withAxis.rank
    let ofLeft := side r y.withAxis x.withAxis
    let ofRight := side r x.withAxis y.withAxis
    (RanksApart x.withAxis y.withAxis ∧ ∃ fault, x.catenate y = .error (.shapeMismatch fault)) ∨
      (¬ RanksApart x.withAxis y.withAxis ∧
        ∃ g h, Presents g ofLeft ∧ Presents h ofRight ∧ x.catenate y = array <$> joinCells g h) := by
  rcases isArray_cases x with ⟨a, rfl⟩ | plain
  · have filled : a.data.length = a.shape.size := (meets_array.mp left).1
    have within : a.shape.Within := leftWithin a.shape rfl
    have joins := joinable_withAxis filled within
    rcases isArray_cases y with ⟨b, rfl⟩ | otherPlain
    · have otherFilled : b.data.length = b.shape.size := (meets_array.mp right).1
      have otherWithin : b.shape.Within := rightWithin b.shape rfl
      have otherJoins := joinable_withAxis otherFilled otherWithin
      by_cases apart : a.withAxis.rank + 1 < b.withAxis.rank ∨ b.withAxis.rank + 1 < a.withAxis.rank
      · have failed := join_of_apart filled otherFilled apart
        exact .inl ⟨⟨rfl, rfl, apart⟩, _, congrArg (array <$> ·) failed⟩
      · obtain ⟨g, h, ofLeft, ofRight, joined⟩ := join_sides filled otherFilled joins otherJoins (by omega)
        exact .inr ⟨fun far => apart far.2.2, g, h, ofLeft, ofRight, congrArg (array <$> ·) joined⟩
    · obtain ⟨same, none⟩ := withAxis_of_plain otherPlain
      rw [same, none]
      have presents : Presents a.withAxis (side (max a.withAxis.rank 0) y (array a.withAxis)) := by
        rw [side_of_rank_eq y (Nat.max_zero _).symm]
        exact presents_majorCells joins
      exact .inr ⟨fun far => by simp [RanksApart, otherPlain] at far, _, _, presents,
        presents_cellLike _ a.withAxis otherPlain, catenate_plain filled within otherPlain⟩
  · rcases isArray_cases y with ⟨b, rfl⟩ | otherPlain
    · have filled : b.data.length = b.shape.size := (meets_array.mp right).1
      have within : b.shape.Within := rightWithin b.shape rfl
      have joins := joinable_withAxis filled within
      obtain ⟨same, none⟩ := withAxis_of_plain plain
      rw [same, none]
      have presents : Presents b.withAxis (side (max 0 b.withAxis.rank) x (array b.withAxis)) := by
        rw [side_of_rank_eq x (Nat.zero_max _).symm]
        exact presents_majorCells joins
      exact .inr ⟨fun far => by simp [RanksApart, plain] at far, _, _, presents_cellLike _ b.withAxis plain,
        presents, plain_catenate filled within plain⟩
    · simp [plain, otherPlain] at some

end Sides

theorem catenate_cases {x y : Value} (left : x.WellFormed) (right : y.WellFormed) (leftWithin : x.WithinLimit)
    (rightWithin : y.WithinLimit) (some : x.isArray ∨ y.isArray) :
    let r := max x.withAxis.rank y.withAxis.rank
    let ofLeft := side r y.withAxis x.withAxis
    let ofRight := side r x.withAxis y.withAxis
    let Mismatched : Prop := RanksApart x.withAxis y.withAxis ∨ ofLeft.shape ≠ ofRight.shape
    let joined : Shape := (ofLeft.cells.length + ofRight.cells.length) :: ofLeft.shape
    (Mismatched ∧ ∃ fault, x.catenate y = .error (.shapeMismatch fault)) ∨
      (¬ Mismatched ∧ ¬ joined.Within ∧ x.catenate y = .error .tooLarge) ∨
      (¬ Mismatched ∧ joined.Within ∧ ∃ grid, x.catenate y = .ok (array grid) ∧ grid.shape = joined ∧
        majorCells grid = ofLeft.cells ++ ofRight.cells) := by
  intro r ofLeft ofRight Mismatched joined
  rcases catenate_sides left right leftWithin rightWithin some with
    ⟨apart, failed⟩ | ⟨near, g, h, presentsLeft, presentsRight, made⟩
  · exact .inl ⟨.inl apart, failed⟩
  · rw [made]
    rcases joinCells_of_presents presentsLeft presentsRight with
      ⟨different, failed⟩ | ⟨same, ⟨beyond, failed⟩ | ⟨within, joins⟩⟩
    · exact .inl ⟨.inr different, _, congrArg (array <$> ·) failed⟩
    · have matched : ¬ Mismatched := by simp [Mismatched, near, ofLeft, ofRight, r, same]
      exact .inr (.inl ⟨matched, beyond, congrArg (array <$> ·) failed⟩)
    · have matched : ¬ Mismatched := by simp [Mismatched, near, ofLeft, ofRight, r, same]
      have presents := presentsLeft.append presentsRight same
      exact .inr (.inr ⟨matched, within, _, congrArg (array <$> ·) joins, rfl, presents.cells⟩)

section Three

variable {x y z : Grid Value}

theorem catenate_of_rank_eq (left : x.data.length = x.shape.size) (right : y.data.length = y.shape.size)
    (same : x.withAxis.rank = y.withAxis.rank) :
    (array x).catenate (array y) = array <$> joinCells x.withAxis y.withAxis :=
  congrArg (array <$> ·) (join_of_rank_eq left right same)

theorem joinCells_eq_ok (left : x.Joinable) (right : y.Joinable) {grid : Grid Value} :
    joinCells x y = .ok grid ↔ y.shape.tail = x.shape.tail ∧
      Shape.Within ((x.length + y.length) :: x.shape.tail) ∧
      grid = ⟨(x.length + y.length) :: x.shape.tail, x.data ++ y.data⟩ := by
  have length {grid : Grid Value} (joins : grid.Joinable) : (majorCells grid).length = grid.length := by
    obtain ⟨_ | ⟨axis, axes⟩, data⟩ := grid
    · exact absurd rfl joins.axes
    · exact length_majorCells joins.filled
  rcases joinCells_of_presents (presents_majorCells left) (presents_majorCells right) with
    ⟨different, failed⟩ | ⟨same, ⟨beyond, failed⟩ | ⟨within, joined⟩⟩
  · simp [failed, Ne.symm different]
  · rw [length left, length right] at beyond
    simp [failed, beyond]
  · rw [length left, length right] at within joined
    rw [joined, Except.ok.injEq]
    exact ⟨fun made => ⟨same.symm, within, made.symm⟩, fun made => made.2.2.symm⟩

theorem joinable_of_joinCells {grid : Grid Value} (made : joinCells x y = .ok grid) : grid.Joinable := by
  unfold joinCells at made
  split at made
  · obtain ⟨bounded, rfl⟩ := Grid.ofShape_eq_ok.mp made
    exact ⟨by simp, Shape.eq_size_of_boundedSize bounded, Shape.within_of_boundedSize bounded⟩
  · cases made

theorem rank_of_joinCells (joins : x.Joinable) {grid : Grid Value} (made : joinCells x y = .ok grid) :
    grid.rank = x.rank := by
  unfold joinCells at made
  split at made
  · obtain ⟨-, rfl⟩ := Grid.ofShape_eq_ok.mp made
    have := List.length_pos_of_ne_nil joins.axes
    simp only [Grid.rank, List.length_cons, List.length_tail]
    omega
  · cases made

/-- Three arrays of cells can be joined in either order: the part that is made first is no larger than the whole. -/
theorem joinCells_assoc (first : x.Joinable) (second : y.Joinable) (third : z.Joinable) {whole : Grid Value} :
    (∃ part, joinCells x y = .ok part ∧ joinCells part z = .ok whole) ↔
      ∃ part, joinCells y z = .ok part ∧ joinCells x part = .ok whole := by
  constructor
  · rintro ⟨part, made, ended⟩
    obtain ⟨last, within, rfl⟩ := (joinCells_eq_ok (joinable_of_joinCells made) third).mp ended
    obtain ⟨middle, -, rfl⟩ := (joinCells_eq_ok first second).mp made
    change z.shape.tail = x.shape.tail at last
    change Shape.Within ((x.length + y.length + z.length) :: x.shape.tail) at within
    have partWithin : Shape.Within ((y.length + z.length) :: y.shape.tail) := by
      rw [middle]
      exact within.shorten (by omega)
    have made := (joinCells_eq_ok second third).mpr ⟨last.trans middle.symm, partWithin, rfl⟩
    rw [Nat.add_assoc] at within
    refine ⟨_, made, (joinCells_eq_ok first (joinable_of_joinCells made)).mpr ⟨middle, within, ?_⟩⟩
    simp [Grid.length, Nat.add_assoc]
  · rintro ⟨part, made, ended⟩
    obtain ⟨middle, within, rfl⟩ := (joinCells_eq_ok first (joinable_of_joinCells made)).mp ended
    obtain ⟨last, -, rfl⟩ := (joinCells_eq_ok second third).mp made
    change y.shape.tail = x.shape.tail at middle
    change Shape.Within ((x.length + (y.length + z.length)) :: x.shape.tail) at within
    have partWithin : Shape.Within ((x.length + y.length) :: x.shape.tail) := within.shorten (by omega)
    have made := (joinCells_eq_ok first second).mpr ⟨middle, partWithin, rfl⟩
    rw [← Nat.add_assoc] at within
    refine ⟨_, made, (joinCells_eq_ok (joinable_of_joinCells made) third).mpr ⟨last.trans middle, within, ?_⟩⟩
    simp [Grid.length, Nat.add_assoc]

theorem withAxis_rank_eq (same : x.rank = y.rank) : x.withAxis.rank = y.withAxis.rank := by
  obtain ⟨_ | ⟨axis, axes⟩, data⟩ := x <;> obtain ⟨_ | ⟨other, others⟩, data'⟩ := y <;>
    simp_all [Grid.withAxis, Grid.rank]

theorem bind_catenate_eq_ok (left : x.data.length = x.shape.size) (right : y.data.length = y.shape.size)
    (same : x.withAxis.rank = y.withAxis.rank) {next : Value → Result Value} {v : Value} :
    (array x).catenate (array y) >>= next = .ok v ↔
      ∃ part, joinCells x.withAxis y.withAxis = .ok part ∧ next (array part) = .ok v := by
  rw [catenate_of_rank_eq left right same, bind_eq_ok]
  simp only [map_eq_ok]
  constructor
  · rintro ⟨_, ⟨part, made, rfl⟩, ended⟩
    exact ⟨part, made, ended⟩
  · rintro ⟨part, made, ended⟩
    exact ⟨_, ⟨part, made, rfl⟩, ended⟩

theorem catenate_assoc (first : (array x).WellFormed) (second : (array y).WellFormed) (third : (array z).WellFormed)
    (firstWithin : x.shape.Within) (secondWithin : y.shape.Within) (thirdWithin : z.shape.Within)
    (same : x.rank = y.rank) (alike : y.rank = z.rank) (v : Value) :
    (array x).catenate (array y) >>= (catenate · (array z)) = .ok v ↔
      (array y).catenate (array z) >>= catenate (array x) = .ok v := by
  have left : x.data.length = x.shape.size := (meets_array.mp first).1
  have middle : y.data.length = y.shape.size := (meets_array.mp second).1
  have right : z.data.length = z.shape.size := (meets_array.mp third).1
  have leftJoins := joinable_withAxis left firstWithin
  have middleJoins := joinable_withAxis middle secondWithin
  have rightJoins := joinable_withAxis right thirdWithin
  have same := withAxis_rank_eq same
  have alike := withAxis_rank_eq alike
  have partLeft {part : Grid Value} (made : joinCells x.withAxis y.withAxis = .ok part) :
      (array part).catenate (array z) = array <$> joinCells part z.withAxis := by
    have joins := joinable_of_joinCells made
    have stands := withAxis_of_axes joins.axes
    have ranks := rank_of_joinCells leftJoins made
    have joined := catenate_of_rank_eq joins.filled right (by rw [stands, ranks, same, alike])
    rwa [stands] at joined
  have partRight {part : Grid Value} (made : joinCells y.withAxis z.withAxis = .ok part) :
      (array x).catenate (array part) = array <$> joinCells x.withAxis part := by
    have joins := joinable_of_joinCells made
    have stands := withAxis_of_axes joins.axes
    have ranks := rank_of_joinCells middleJoins made
    have joined := catenate_of_rank_eq left joins.filled (by rw [stands, ranks, same])
    rwa [stands] at joined
  rw [bind_catenate_eq_ok left middle same, bind_catenate_eq_ok middle right alike]
  constructor
  · rintro ⟨part, made, ended⟩
    rw [partLeft made, map_eq_ok] at ended
    obtain ⟨whole, ended, rfl⟩ := ended
    obtain ⟨other, made, ended⟩ := (joinCells_assoc leftJoins middleJoins rightJoins).mp ⟨part, made, ended⟩
    exact ⟨other, made, by rw [partRight made, ended]; rfl⟩
  · rintro ⟨part, made, ended⟩
    rw [partRight made, map_eq_ok] at ended
    obtain ⟨whole, ended, rfl⟩ := ended
    obtain ⟨other, made, ended⟩ := (joinCells_assoc leftJoins middleJoins rightJoins).mpr ⟨part, made, ended⟩
    exact ⟨other, made, by rw [partLeft made, ended]; rfl⟩

end Three

/-- Two values that are not both no arrays bring cells to their catenation, arrays without axes counting as vectors. It
fails for the shapes exactly when the ranks of two arrays differ by more than one or the cells differ in shape; else for
the size exactly when the shape of the whole is beyond the limit; and else it is the array of the cells of the left
value followed by those of the right one. Three arrays of one rank can be joined in either order with one result. -/
theorem catenate_joins_cells :
    (∀ x y : Value, x.WellFormed → y.WellFormed → x.WithinLimit → y.WithinLimit → x.isArray ∨ y.isArray →
      let r := max x.withAxis.rank y.withAxis.rank
      let left := side r y.withAxis x.withAxis
      let right := side r x.withAxis y.withAxis
      let Mismatched : Prop := RanksApart x.withAxis y.withAxis ∨ left.shape ≠ right.shape
      let joined : Shape := (left.cells.length + right.cells.length) :: left.shape
      ((∃ fault, x.catenate y = .error (.shapeMismatch fault)) ↔ Mismatched) ∧
      (x.catenate y = .error .tooLarge ↔ ¬ Mismatched ∧ ¬ joined.Within) ∧
      (¬ Mismatched → joined.Within → ∃ grid, x.catenate y = .ok (array grid) ∧ (array grid).WellFormed ∧
        grid.shape = joined ∧ majorCells grid = left.cells ++ right.cells)) ∧
    ∀ x y z : Grid Value, (array x).WellFormed → (array y).WellFormed → (array z).WellFormed →
      x.shape.Within → y.shape.Within → z.shape.Within → x.rank = y.rank → y.rank = z.rank → ∀ v,
        ((do catenate (← (array x).catenate (array y)) (array z)) = .ok v ↔
          (do catenate (array x) (← (array y).catenate (array z))) = .ok v) := by
  constructor
  · intro x y left right leftWithin rightWithin some r ofLeft ofRight Mismatched joined
    rcases catenate_cases left right leftWithin rightWithin some with
      ⟨mismatched, fault, failed⟩ | ⟨matched, beyond, failed⟩ | ⟨matched, within, grid, yields, shape, cells⟩
    · refine ⟨iff_of_true ⟨fault, failed⟩ mismatched, iff_of_false ?_ fun ends => ends.1 mismatched,
        fun matched => absurd mismatched matched⟩
      simp [failed]
    · refine ⟨iff_of_false ?_ matched, iff_of_true failed ⟨matched, beyond⟩, fun _ within => absurd within beyond⟩
      simp [failed]
    · refine ⟨iff_of_false ?_ matched, iff_of_false ?_ fun ends => ends.2 within,
        fun _ _ => ⟨grid, yields, catenate_meets closed_wellFormed left right yields, shape, cells⟩⟩
      · simp [yields]
      · simp [yields]
  · intro x y z first second third firstWithin secondWithin thirdWithin same alike v
    exact catenate_assoc first second third firstWithin secondWithin thirdWithin same alike v

theorem catenate_joins_cells_of_column :
    let column : Grid Value := ⟨[2, 1], [character 'a', character 'b']⟩
    let point : Grid Value := ⟨[], [character 'c']⟩
    let whole : Grid Value := ⟨[3, 1], [character 'a', character 'b', character 'c']⟩
    (array column).WellFormed ∧ (array point).WellFormed ∧ (array column).WithinLimit ∧ (array point).WithinLimit ∧
      (array column).catenate (array point) = .ok (array whole) ∧
      majorCells whole = [ofText ['a'], ofText ['b'], ofText ['c']] ∧
      ∀ v, ((do catenate (← (array column).catenate (array column)) (array column)) = .ok v ↔
        (do catenate (array column) (← (array column).catenate (array column))) = .ok v) := by
  intro column point whole
  have formed : (array column).WellFormed ∧ (array point).WellFormed := by
    simp [column, point, WellFormed, Meets, AllMeet, Demand.wellFormed]
  have within : (array column).WithinLimit ∧ (array point).WithinLimit := by
    simp only [WithinLimit, axes?, Option.mem_some_iff, forall_eq']
    decide
  obtain ⟨-, -, success⟩ := catenate_joins_cells.1 (array column) (array point) formed.1 formed.2 within.1 within.2
    (.inl rfl)
  have matched : ¬ (RanksApart (array column).withAxis (array point).withAxis ∨ ([1] : Shape) ≠ [1]) := by
    rintro (⟨-, -, apart⟩ | different)
    · revert apart
      decide
    · exact different rfl
  obtain ⟨grid, yields, -, -, cells⟩ := success matched (by decide)
  have made : (array column).catenate (array point) = .ok (array whole) := rfl
  rw [made] at yields
  cases yields
  have three := catenate_joins_cells.2 column column column formed.1 formed.1 formed.1 (by decide) (by decide)
    (by decide) rfl rfl
  exact ⟨formed.1, formed.2, within.1, within.2, made, cells, three⟩

end Value

end Tacit
