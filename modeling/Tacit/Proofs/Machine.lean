import Tacit.Proofs.Catenation
import Tacit.Proofs.Decomposition
import Tacit.Proofs.Positions

/-! Arrays on a machine with words of 64 bits. There, lengths, products and offsets may overflow, lists may be read
outside of their bounds, and where elements could run out some branch has to stand for it. Each operation is carried
out step by step with all of these as traps. The one check of the product of all axes that are not empty is enough to
keep clear of them: whatever an operation multiplies is a part of that product, and whatever it adds is within the
limit on both sides. -/
namespace Tacit

theorem Grid.chunks_eq_map {α : Type} (count size : Nat) (data : List α) :
    chunks count size data = (List.range count).map fun i => (data.drop (i * size)).take size := by
  apply List.ext_getElem?
  intro i
  by_cases inside : i < count
  · rw [getElem?_chunks data inside]
    simp [inside]
  · simp [inside]

namespace Machine

/-- What a computation on the machine comes to: nothing at all where it traps. -/
abbrev Run := ExceptT Fault Option

section Steps

variable {α β : Type}

def trap : Run α := ExceptT.mk none

/-- A result of steps that cannot trap. -/
def settled (result : Result α) : Run α := ExceptT.mk (some result)

def checked (fits : Prop) [Decidable fits] (a : α) : Run α := if fits then pure a else trap

def add (m n : Nat) : Run Nat := checked (m + n < 2 ^ 64) (m + n)

def mul (m n : Nat) : Run Nat := checked (m * n < 2 ^ 64) (m * n)

def sub (m n : Nat) : Run Nat := checked (n ≤ m) (m - n)

def addSigned (i j : Int) : Run Int := checked (-2 ^ 63 ≤ i + j ∧ i + j < 2 ^ 63) (i + j)

def product (shape : Shape) : Run Nat := shape.foldlM mul 1

/-- The items from one place up to another. -/
def slice (items : List α) (start stop : Nat) : Run (List α) :=
  checked (start ≤ stop ∧ stop ≤ items.length) ((items.drop start).take (stop - start))

def read (items : List α) (place : Nat) : Run α :=
  match items[place]? with
  | some item => pure item
  | none => trap

end Steps

/-- An index counted from the start of its axis. -/
def fromStart (index : Int) (length : Nat) : Run Int :=
  if index < 0 then addSigned index length else pure index

def axisPosition (index : Int) (length : Nat) : Run Nat :=
  if Number.maxLength < length then throw .tooLarge
  else do
    let position ← fromStart index length
    if position < 0 ∨ (length : Int) ≤ position then throw (.indexOutOfBounds index length)
    else pure position.toNat

/-- The piece of so many elements at a place among pieces of this size. -/
def pieceAt (data : List Value) (size i : Nat) : Run (List Value) := do
  let start ← mul i size
  let next ← add i 1
  let stop ← mul next size
  slice data start stop

def cells (grid : Grid Value) (rank : Nat) : Run (Shape × List Value) :=
  if rank = 0 then pure (grid.shape, grid.data)
  else if grid.rank ≤ rank then pure ([], [.array grid])
  else do
    let split ← sub grid.rank rank
    let cellShape ← slice grid.shape split grid.rank
    let size ← product cellShape
    let frame ← slice grid.shape 0 split
    let count ← product frame
    let cells ← (List.range count).mapM fun i => do return .array ⟨cellShape, ← pieceAt grid.data size i⟩
    return (frame, cells)

def majorCells (grid : Grid Value) : Run (List Value) :=
  if grid.rank ≤ 1 then pure grid.data
  else do
    let (_, parts) ← cells grid (← sub grid.rank 1)
    return parts

/-- Where the cell that an index means starts among the elements. -/
def cellStart (source : Grid Value) (size : Nat) (index : Value) : Run Nat := do
  let position ← axisPosition (← settled index.expectIndex) source.length
  mul position size

def cellData (source : Grid Value) (size : Nat) (index : Value) : Run (List Value) := do
  let start ← cellStart source size index
  let stop ← add start size
  slice source.data start stop

/-- The cell that one index means. -/
def cell (source : Grid Value) (cellShape : Shape) (size : Nat) (index : Value) : Run Value :=
  if cellShape = [] then do
    let start ← cellStart source size index
    read source.data start
  else do
    let data ← cellData source size index
    return .array (← settled (Grid.ofShape cellShape data))

def select (x y : Value) : Run Value := do
  let source ← settled (y.expectArray "select from")
  if source.rank = 0 then throw (.typeError .selectFromRankZero)
  else do
    let cellShape ← slice source.shape 1 source.rank
    let size ← product cellShape
    match x with
    | .array indices =>
      let shape := indices.shape ++ cellShape
      let _ ← settled shape.boundedSize
      let cells ← indices.data.mapM (cellData source size)
      return .array (← settled (Grid.ofShape shape cells.flatten))
    | index => cell source cellShape size index

def offset (start : Nat) : List Int → Shape → Run Nat
  | index :: indices, axis :: axes => do
    let scaled ← mul start axis
    let position ← axisPosition index axis
    let next ← add scaled position
    offset next indices axes
  | _, _ => pure start

/-- The element at a position; that there is none is a trap. -/
def elementAt (source : Grid Value) (position : List Int) : Run Value :=
  if position.length ≠ source.rank then throw (.shapeMismatch (.pickRank position.length source.rank))
  else do
    let place ← offset 0 position source.shape
    read source.data place

mutual

def pickFrom (source : Grid Value) : Value → Run Value
  | .array ⟨shape, data⟩ =>
    if data.any Value.isArray then do return .array ⟨shape, ← pickAll source data⟩
    else do elementAt source (← settled (data.mapM Value.expectIndex))
  | index => do elementAt source [← settled index.expectIndex]

def pickAll (source : Grid Value) : List Value → Run (List Value)
  | [] => return []
  | index :: indices => do
    let first ← pickFrom source index
    let others ← pickAll source indices
    return first :: others

end

def pick (x y : Value) : Run Value := do
  pickFrom (← settled (y.expectArray "pick from")) x

def levelled (x y : Grid Value) : Run (Grid Value × Grid Value) := do
  if x.rank = (← add y.rank 1) then return (x, ← settled (Value.asOnlyCell y))
  else if (← add x.rank 1) = y.rank then return (← settled (Value.asOnlyCell x), y)
  else return (x, y)

def joinCells (x y : Grid Value) : Run (Grid Value) := do
  let cellShape ← slice x.shape 1 x.rank
  let otherShape ← slice y.shape 1 y.rank
  if cellShape = otherShape then do
    let axis ← add (← read x.shape 0) y.length
    settled (Grid.ofShape (axis :: cellShape) (x.data ++ y.data))
  else throw (.shapeMismatch (.catenated x.shape y.shape))

def join (x y : Grid Value) : Run (Grid Value) := do
  let x ← settled (Value.promoted x)
  let y ← settled (Value.promoted y)
  let (x, y) ← levelled x y
  if x.rank = y.rank then joinCells x y else throw (.shapeMismatch (.catenated x.shape y.shape))

mutual

def dyadic (op : Value → Value → Result Value) : (x y : Value) → Run Value
  | .array ⟨shape, data⟩, .array ⟨otherShape, otherData⟩ =>
    if shape = otherShape then do return .array ⟨shape, ← dyadicPairs op data otherData⟩
    else throw (.shapeMismatch (.pairing shape otherShape))
  | .array ⟨shape, data⟩, y => do return .array ⟨shape, ← dyadicLeft op y data⟩
  | x, y => settled (Pervasion.monadic (op x) y)

/-- Elements without a partner are a trap. -/
def dyadicPairs (op : Value → Value → Result Value) : (xs ys : List Value) → Run (List Value)
  | [], _ => return []
  | _ :: _, [] => trap
  | x :: xs, y :: ys => do
    let first ← dyadic op x y
    let others ← dyadicPairs op xs ys
    return first :: others

def dyadicLeft (op : Value → Value → Result Value) (y : Value) : (xs : List Value) → Run (List Value)
  | [] => return []
  | x :: xs => do
    let first ← dyadic op x y
    let others ← dyadicLeft op y xs
    return first :: others

end

def eachPair (call : Iteration.Call) : (xs ys : List Value) → Run (List Value)
  | [], _ => return []
  | _ :: _, [] => trap
  | x :: xs, y :: ys => do
    let first ← settled (call [x, y])
    let others ← eachPair call xs ys
    return first :: others

def each (call : Iteration.Call) : List Value → Run Value
  | [.array ⟨shape, data⟩, .array ⟨otherShape, otherData⟩] =>
    if shape = otherShape then do return .array ⟨shape, ← eachPair call data otherData⟩
    else throw (.shapeMismatch (.eachPairing shape otherShape))
  | args => settled (Iteration.each call args)

section Steps

variable {α β : Type}

theorem checked_of_fits {fits : Prop} [Decidable fits] (holds : fits) (a : α) : checked fits a = pure a := if_pos holds

theorem slice_eq {items : List α} {start stop : Nat} (ordered : start ≤ stop) (inside : stop ≤ items.length) :
    slice items start stop = pure ((items.drop start).take (stop - start)) :=
  checked_of_fits ⟨ordered, inside⟩ _

theorem slice_tail {items : List α} (nonempty : items ≠ []) : slice items 1 items.length = pure items.tail := by
  rw [slice_eq (Nat.succ_le_of_lt (List.length_pos_of_ne_nil nonempty)) (Nat.le_refl _), List.drop_one]
  exact congrArg pure (List.take_of_length_le (by simp))

theorem read_eq {items : List α} {place : Nat} {item : α} (isItem : items[place]? = some item) :
    read items place = pure item := by
  rw [read, isItem]

/-- Steps that follow each other keep clear of traps if each of them does on what it is given. -/
theorem bind_settled {run : Run α} {result : Result α} {next : α → Run β} {rest : α → Result β}
    (first : run = settled result) (others : ∀ a, result = .ok a → next a = settled (rest a)) :
    run >>= next = settled (result >>= rest) := by
  subst first
  cases result with
  | error e => rfl
  | ok a => exact others a rfl

theorem ite_settled {condition : Prop} [Decidable condition] {run other : Run α} {result alternative : Result α}
    (first : run = settled result) (second : other = settled alternative) :
    (if condition then run else other) = settled (if condition then result else alternative) := by
  split <;> assumption

theorem mapM_settled {items : List α} {run : α → Run β} {result : α → Result β}
    (each : ∀ a ∈ items, run a = settled (result a)) : items.mapM run = settled (items.mapM result) := by
  induction items with
  | nil => rfl
  | cons a items ih =>
    obtain ⟨first, others⟩ := List.forall_mem_cons.mp each
    rw [List.mapM_cons, List.mapM_cons]
    exact bind_settled first fun b _ => bind_settled (ih others) fun bs _ => rfl

/-- All that a product goes through is a part of the product of the axes that are not empty. -/
theorem foldlM_mul {shape : Shape} {start : Nat} (fits : start * Shape.size (shape.filter (· ≠ 0)) < 2 ^ 64) :
    shape.foldlM mul start = pure (start * shape.size) := by
  induction shape generalizing start with
  | nil => simp
  | cons axis axes ih =>
    by_cases empty : axis = 0
    · subst axis
      have stays : mul start 0 = pure 0 := checked_of_fits (by simp) _
      rw [List.foldlM_cons, stays, pure_bind, ih (by simp)]
      simp
    · have proper := Shape.size_filter_pos axes
      rw [List.filter_cons_of_pos (by simpa using empty), Shape.size_cons, ← Nat.mul_assoc] at fits
      have step : mul start axis = pure (start * axis) :=
        checked_of_fits (Nat.lt_of_le_of_lt (Nat.le_mul_of_pos_right _ proper) fits) _
      rw [List.foldlM_cons, step, pure_bind, ih fits, Shape.size_cons, Nat.mul_assoc]

theorem product_eq {shape : Shape} (within : shape.Within) : product shape = pure shape.size := by
  have fits : 1 * Shape.size (shape.filter (· ≠ 0)) < 2 ^ 64 := by
    rw [Nat.one_mul]
    exact Nat.lt_of_le_of_lt within (by decide)
  rw [product, foldlM_mul fits, Nat.one_mul]

end Steps

theorem axisPosition_eq {index : Int} (above : -2 ^ 63 ≤ index) (length : Nat) :
    axisPosition index length = settled (Number.axisPosition index length) := by
  rw [axisPosition, Number.axisPosition]
  by_cases long : Number.maxLength < length
  · rw [if_pos long, if_pos long]
    rfl
  · have short : (length : Int) < 2 ^ 63 := by
      have : Number.maxLength < 2 ^ 63 := by decide
      omega
    have counted : fromStart index length = pure (if index < 0 then index + length else index) := by
      unfold fromStart
      split
      · exact checked_of_fits (by omega) _
      · rfl
    rw [if_neg long, if_neg long, counted, pure_bind]
    exact ite_settled rfl rfl

/-- The elements fill the shape, and the check of sizes accepts it. -/
structure Accepted (grid : Grid Value) : Prop where
  filled : grid.data.length = grid.shape.size
  within : grid.shape.Within

variable {grid : Grid Value}

theorem Accepted.length_lt (accepted : Accepted grid) : grid.data.length < 2 ^ 64 := by
  rw [accepted.filled]
  exact Nat.lt_of_le_of_lt accepted.within.size_le (by decide)

theorem pieceAt_eq {data : List Value} {count size i : Nat} (filled : data.length = count * size)
    (limit : data.length < 2 ^ 64) (bound : count < 2 ^ 64) (inside : i < count) :
    pieceAt data size i = pure ((data.drop (i * size)).take size) := by
  have room : (i + 1) * size ≤ data.length := filled ▸ Nat.mul_le_mul_right size inside
  have ordered : i * size ≤ (i + 1) * size := Nat.mul_le_mul_right size (Nat.le_succ i)
  have start : mul i size = pure (i * size) := checked_of_fits (by omega) _
  have next : add i 1 = pure (i + 1) := checked_of_fits (by omega) _
  have stop : mul (i + 1) size = pure ((i + 1) * size) := checked_of_fits (by omega) _
  have width : (i + 1) * size - i * size = size := by rw [Nat.succ_mul, Nat.add_sub_cancel_left]
  rw [pieceAt, start, pure_bind, next, pure_bind, stop, pure_bind, slice_eq ordered room, width]

theorem mapM_pieceAt {data : List Value} {count : Nat} {cell : Shape} (filled : data.length = count * cell.size)
    (limit : data.length < 2 ^ 64) (bound : count < 2 ^ 64) :
    (List.range count).mapM (fun i => do return Value.array ⟨cell, ← pieceAt data cell.size i⟩ : Nat → Run Value) =
      pure ((Grid.chunks count cell.size data).map fun piece => .array ⟨cell, piece⟩) := by
  rw [Grid.chunks_eq_map, List.map_map]
  refine (mapM_settled fun i inside => ?_).trans (congrArg settled (List.mapM_pure ..))
  rw [pieceAt_eq filled limit bound (List.mem_range.mp inside)]
  rfl

theorem cells_eq (accepted : Accepted grid) (rank : Nat) : cells grid rank = pure (Value.cells grid rank) := by
  rw [cells, Value.cells]
  by_cases bare : rank = 0
  · rw [if_pos bare, if_pos bare]
  by_cases whole : grid.rank ≤ rank
  · rw [if_neg bare, if_neg bare, if_pos whole, if_pos whole]
  rw [if_neg bare, if_neg bare, if_neg whole, if_neg whole]
  obtain ⟨shape, data⟩ := grid
  obtain ⟨frame, cell, rfl, rfl⟩ := Value.exists_split (Nat.le_of_not_le whole)
  obtain ⟨frameWithin, cellWithin⟩ := accepted.within.of_append
  have filled : data.length = frame.size * cell.size := accepted.filled.trans (Shape.size_append frame cell)
  have bound : frame.size < 2 ^ 64 := Nat.lt_of_le_of_lt frameWithin.size_le (by decide)
  have pieces := mapM_pieceAt filled accepted.length_lt bound
  have split : sub (frame ++ cell).length cell.length = pure frame.length :=
    (checked_of_fits (Nat.le_of_not_le whole) _).trans (by simp)
  have isCell : slice (frame ++ cell) frame.length (frame ++ cell).length = pure cell := by
    rw [slice_eq (by simp) (Nat.le_refl _)]
    simp
  have isFrame : slice (frame ++ cell) 0 frame.length = pure frame := by
    rw [slice_eq (Nat.zero_le _) (by simp)]
    simp
  simp only [Grid.rank, split, isCell, isFrame, product_eq cellWithin, product_eq frameWithin, pieces, pure_bind]
  simp [Grid.cells, Grid.rank, Function.comp_def]

theorem majorCells_eq (accepted : Accepted grid) : majorCells grid = pure (Value.majorCells grid) := by
  rw [majorCells, Value.majorCells]
  split
  · rfl
  · have above : sub grid.rank 1 = pure (grid.rank - 1) := checked_of_fits (by omega) _
    rw [above, pure_bind, cells_eq accepted, pure_bind]

theorem above_of_expectIndex {index : Value} {k : Int} (isIndex : index.expectIndex = .ok k) : -2 ^ 63 ≤ k := by
  obtain ⟨x, -, isInteger⟩ := Value.expectIndex_eq_ok.mp isIndex
  have safe := (Number.toInteger_eq_ok.mp isInteger).2
  have : Number.maxSafe < 2 ^ 63 := by decide
  omega

theorem axisPosition_lt {index : Int} {length position : Nat}
    (isPosition : Number.axisPosition index length = .ok position) : position < length := by
  have bound : length ≤ Number.maxLength := by
    by_contra long
    rw [Number.axisPosition, if_pos (by omega)] at isPosition
    cases isPosition
  obtain ⟨inside, rfl⟩ := (Number.axisPosition_eq_ok bound).mp isPosition
  exact Number.fromStart_lt inside.1 inside.2

section Selection

variable {axis : Nat} {axes : Shape} {data : List Value}

/-- The cell at a position of the leading axis lies among the elements. -/
theorem cell_inside (accepted : Accepted ⟨axis :: axes, data⟩) {position : Nat} (inside : position < axis) :
    position * axes.size + axes.size ≤ data.length ∧ data.length < 2 ^ 64 := by
  have filled : data.length = axis * axes.size := accepted.filled
  constructor
  · rw [filled, ← Nat.succ_mul]
    exact Nat.mul_le_mul_right _ inside
  · exact accepted.length_lt

theorem cellStart_bind {β : Type} (accepted : Accepted ⟨axis :: axes, data⟩) {index : Value} {next : Nat → Run β}
    {rest : Nat → Result β}
    (others : ∀ position < axis, next (position * axes.size) = settled (rest position)) :
    cellStart ⟨axis :: axes, data⟩ axes.size index >>= next =
      settled (do rest (← Number.axisPosition (← index.expectIndex) axis)) := by
  rw [cellStart, bind_assoc]
  refine bind_settled rfl fun k isIndex => ?_
  rw [bind_assoc]
  refine bind_settled (axisPosition_eq (above_of_expectIndex isIndex) axis) fun position isPosition => ?_
  have inside := axisPosition_lt isPosition
  have room := cell_inside accepted inside
  have start : mul position axes.size = pure (position * axes.size) := checked_of_fits (by omega) _
  rw [start, pure_bind]
  exact others position inside

theorem cellData_eq (accepted : Accepted ⟨axis :: axes, data⟩) (index : Value) :
    cellData ⟨axis :: axes, data⟩ axes.size index = settled (Value.cellData ⟨axis :: axes, data⟩ index) := by
  refine cellStart_bind accepted fun position inside => ?_
  have room := cell_inside accepted inside
  have stop : add (position * axes.size) axes.size = pure (position * axes.size + axes.size) :=
    checked_of_fits (by omega) _
  rw [stop, pure_bind, slice_eq (Nat.le_add_right _ _) room.1, Nat.add_sub_cancel_left]
  rfl

theorem cell_eq (accepted : Accepted ⟨axis :: axes, data⟩) (index : Value) :
    cell ⟨axis :: axes, data⟩ axes axes.size index = settled (do
      let piece ← Value.cellData ⟨axis :: axes, data⟩ index
      match axes, piece with
      | [], [element] => return element
      | _, _ => return .array (← Grid.ofShape axes piece)) := by
  cases axes with
  | nil =>
    rw [cell, if_pos rfl, Value.cellData]
    simp only [bind_assoc, pure_bind]
    refine cellStart_bind accepted fun position inside => ?_
    have count : data.length = axis := by simpa using accepted.filled
    obtain ⟨element, isElement⟩ : ∃ element, data[position]? = some element :=
      ⟨_, List.getElem?_eq_getElem (count ▸ inside)⟩
    have single : (data.drop (position * Shape.size [])).take (Shape.size []) = [element] := by
      simp [List.take_one, isElement]
    have found : read data (position * Shape.size []) = pure element := read_eq (by simpa using isElement)
    rw [found]
    simp only [List.drop_succ_cons, List.drop_zero, single]
    rfl
  | cons second axes =>
    rw [cell, if_neg (List.cons_ne_nil _ _)]
    exact bind_settled (cellData_eq accepted index) fun piece _ => bind_settled rfl fun _ _ => rfl

theorem select_eq (accepted : Accepted grid) (x : Value) :
    select x (.array grid) = settled (x.select (.array grid)) := by
  obtain ⟨shape, data⟩ := grid
  cases shape with
  | nil => rfl
  | cons axis axes =>
    have isCell : slice (axis :: axes) 1 (axis :: axes).length = pure axes := slice_tail (List.cons_ne_nil axis axes)
    have proper : ¬ (axis :: axes).length = 0 := by simp
    rw [select, Value.select]
    refine bind_settled rfl fun source isSource => ?_
    cases isSource
    simp only [Grid.rank, if_neg proper, isCell, product_eq accepted.within.tail, pure_bind]
    cases x with
    | array indices =>
      refine bind_settled rfl fun _ _ => ?_
      exact bind_settled (mapM_settled fun index _ => cellData_eq accepted index) fun _ _ =>
        bind_settled rfl fun _ _ => rfl
    | number | character | function => exact cell_eq accepted _

end Selection

/-- An offset stays below the number of places that the axes so far have, and what those make together with the axes
left is within the limit. -/
theorem offset_eq {position : List Int} {axes : Shape} {start : Nat} (above : ∀ index ∈ position, -2 ^ 63 ≤ index)
    (bound : (start + 1) * Shape.size (axes.filter (· ≠ 0)) ≤ Shape.sizeLimit) :
    offset start position axes = settled (Value.offset start position axes) := by
  induction position generalizing axes start with
  | nil => rfl
  | cons index indices ih =>
    cases axes with
    | nil => rfl
    | cons axis axes =>
      obtain ⟨first, others⟩ := List.forall_mem_cons.mp above
      have further : axis ≠ 0 → (start * axis + axis) * Shape.size (axes.filter (· ≠ 0)) ≤ Shape.sizeLimit := by
        intro proper
        rwa [List.filter_cons_of_pos (by simpa using proper), Shape.size_cons, ← Nat.mul_assoc, Nat.succ_mul] at bound
      have room : start * axis + axis < 2 ^ 64 := by
        by_cases empty : axis = 0
        · simp [empty]
        · exact Nat.lt_of_le_of_lt (Nat.le_trans (Nat.le_mul_of_pos_right _ (Shape.size_filter_pos axes))
            (further empty)) (by decide)
      have scaled : mul start axis = pure (start * axis) := checked_of_fits (by omega) _
      rw [offset, Value.offset, scaled, pure_bind]
      refine bind_settled (axisPosition_eq first axis) fun place isPlace => ?_
      -- An empty axis has no places, so the search is over before the axes behind it are reached.
      have inside := axisPosition_lt isPlace
      have next : add (start * axis) place = pure (start * axis + place) := checked_of_fits (by omega) _
      rw [next, pure_bind]
      exact ih others (Nat.le_trans (Nat.mul_le_mul_right _ (by omega)) (further (by omega)))

theorem offset_lt {position : List Int} {axes : Shape} {start place : Nat} (count : position.length = axes.length)
    (isPlace : Value.offset start position axes = .ok place) : place < (start + 1) * axes.size := by
  induction position generalizing axes start with
  | nil =>
    obtain rfl := List.eq_nil_of_length_eq_zero count.symm
    cases isPlace
    simp
  | cons index indices ih =>
    obtain ⟨axis, axes, rfl⟩ := List.exists_cons_of_length_eq_add_one count.symm
    obtain ⟨first, isFirst, isPlace⟩ := bind_eq_ok.mp isPlace
    have inside := axisPosition_lt isFirst
    calc place < (start * axis + first + 1) * Shape.size axes := ih (Nat.succ.inj count) isPlace
      _ ≤ (start * axis + axis) * Shape.size axes := Nat.mul_le_mul_right _ (by omega)
      _ = (start + 1) * Shape.size (axis :: axes) := by rw [Shape.size_cons, ← Nat.mul_assoc, Nat.succ_mul]

theorem elementAt_eq (accepted : Accepted grid) {position : List Int} (above : ∀ index ∈ position, -2 ^ 63 ≤ index) :
    elementAt grid position = settled (Value.elementAt grid position) := by
  rw [elementAt, Value.elementAt]
  by_cases count : position.length = grid.rank
  · simp only [ne_eq, count, not_true_eq_false, if_false]
    have bound : (0 + 1) * Shape.size (grid.shape.filter (· ≠ 0)) ≤ Shape.sizeLimit := by
      rw [Nat.zero_add, Nat.one_mul]
      exact accepted.within
    refine bind_settled (offset_eq above bound) fun place isPlace => ?_
    have inside : place < grid.data.length := by simpa [accepted.filled] using offset_lt count isPlace
    have found := List.getElem?_eq_getElem inside
    rw [read_eq found, found]
    rfl
  · simp only [ne_eq, count, not_false_eq_true, if_true]
    rfl

theorem pickAll_eq {source : Grid Value} {indices : List Value}
    (each : ∀ index ∈ indices, pickFrom source index = settled (Value.pickFrom source index)) :
    pickAll source indices = settled (Value.pickAll source indices) := by
  induction indices with
  | nil => simp [pickAll, Value.pickAll]; rfl
  | cons index indices ih =>
    obtain ⟨first, others⟩ := List.forall_mem_cons.mp each
    rw [pickAll, Value.pickAll]
    exact bind_settled first fun _ _ => bind_settled (ih others) fun _ _ => rfl

theorem pickFrom_eq (accepted : Accepted grid) (x : Value) : pickFrom grid x = settled (Value.pickFrom grid x) := by
  have single (index : Value) : (do elementAt grid [← settled index.expectIndex]) =
      settled (do Value.elementAt grid [← index.expectIndex]) :=
    bind_settled rfl fun k isIndex => elementAt_eq accepted (by simpa using above_of_expectIndex isIndex)
  induction x using Value.induct_elements with
  | number | character | function => simpa [pickFrom, Value.pickFrom] using single _
  | array indices ih =>
    obtain ⟨shape, data⟩ := indices
    rw [pickFrom, Value.pickFrom]
    split
    · exact bind_settled (pickAll_eq ih) fun _ _ => rfl
    · refine bind_settled rfl fun position isPosition => elementAt_eq accepted ?_
      exact (forall_of_mapM_eq_ok isPosition fun index _ k => above_of_expectIndex).2

theorem pick_eq (accepted : Accepted grid) (x : Value) : pick x (.array grid) = settled (x.pick (.array grid)) :=
  pickFrom_eq accepted x

section Join

variable {x y : Grid Value}

theorem joinable_asCell (joinable : x.Joinable) : x.asCell.Joinable :=
  ⟨by simp [Grid.asCell], by simpa [Grid.asCell] using joinable.filled, joinable.within.single⟩

theorem exists_levelled (joinable : x.Joinable) (otherJoinable : y.Joinable) :
    ∃ x' y' : Grid Value, Value.levelled x y = .ok (x', y') ∧ x'.Joinable ∧ y'.Joinable := by
  by_cases above : x.rank = y.rank + 1
  · exact ⟨x, y.asCell, Value.levelled_of_above otherJoinable above, joinable, joinable_asCell otherJoinable⟩
  by_cases below : x.rank + 1 = y.rank
  · exact ⟨x.asCell, y, Value.levelled_of_below joinable below, joinable_asCell joinable, otherJoinable⟩
  · exact ⟨x, y, Value.levelled_of_unlike above below, joinable, otherJoinable⟩

theorem levelled_eq (bound : x.rank ≤ 2 ^ 63) (otherBound : y.rank ≤ 2 ^ 63) :
    levelled x y = settled (Value.levelled x y) := by
  have next : add x.rank 1 = pure (x.rank + 1) := checked_of_fits (by omega) _
  have otherNext : add y.rank 1 = pure (y.rank + 1) := checked_of_fits (by omega) _
  simp only [levelled, next, otherNext, pure_bind]
  exact ite_settled (bind_settled rfl fun _ _ => rfl) (ite_settled (bind_settled rfl fun _ _ => rfl) rfl)

theorem joinCells_eq (joinable : x.Joinable) (otherJoinable : y.Joinable) :
    joinCells x y = settled (Value.joinCells x y) := by
  have short := joinable.within.length_le
  have otherShort := otherJoinable.within.length_le
  have small : Shape.sizeLimit + Shape.sizeLimit < 2 ^ 64 := by decide
  have leading : read x.shape 0 = pure x.length := by
    obtain ⟨axis, axes, isShape⟩ := List.exists_cons_of_ne_nil joinable.axes
    exact read_eq (by simp [Grid.length, isShape])
  have axis : add x.length y.length = pure (x.length + y.length) := checked_of_fits (by omega) _
  simp only [joinCells, Grid.rank, slice_tail joinable.axes, slice_tail otherJoinable.axes, leading, axis, pure_bind]
  exact ite_settled rfl rfl

theorem join_eq (accepted : Accepted x) (otherAccepted : Accepted y) (bound : x.rank < 2 ^ 63)
    (otherBound : y.rank < 2 ^ 63) : join x y = settled (Value.join x y) := by
  have rank {grid : Grid Value} (bound : grid.rank < 2 ^ 63) : grid.withAxis.rank ≤ 2 ^ 63 := by
    obtain ⟨shape, data⟩ := grid
    cases shape with
    | nil => simp [Grid.withAxis, Grid.rank]
    | cons axis axes => exact Nat.le_of_lt bound
  obtain ⟨x', y', level, joinable, otherJoinable⟩ := exists_levelled
    (Value.joinable_withAxis accepted.filled accepted.within)
    (Value.joinable_withAxis otherAccepted.filled otherAccepted.within)
  rw [Value.join_of_levelled accepted.filled otherAccepted.filled level, join,
    Value.promoted_eq accepted.filled, Value.promoted_eq otherAccepted.filled]
  change levelled x.withAxis y.withAxis >>= _ = _
  rw [levelled_eq (rank bound) (rank otherBound), level]
  exact ite_settled (joinCells_eq joinable otherJoinable) rfl

end Join

theorem dyadicPairs_eq {op : Value → Value → Result Value} {xs ys : List Value} (same : xs.length = ys.length)
    (each : ∀ x ∈ xs, ∀ y ∈ ys, dyadic op x y = settled (Pervasion.dyadic op x y)) :
    dyadicPairs op xs ys = settled (Pervasion.dyadicPairs op xs ys) := by
  induction xs generalizing ys with
  | nil => simp only [dyadicPairs, Pervasion.dyadicPairs]; rfl
  | cons x xs ih =>
    obtain ⟨y, ys, rfl⟩ := List.exists_cons_of_length_eq_add_one same.symm
    rw [dyadicPairs, Pervasion.dyadicPairs]
    refine bind_settled (each x List.mem_cons_self y List.mem_cons_self) fun _ _ => ?_
    refine bind_settled (ih (Nat.succ.inj same) fun x isX y isY => ?_) fun _ _ => rfl
    exact each x (List.mem_cons_of_mem _ isX) y (List.mem_cons_of_mem _ isY)

theorem dyadicLeft_eq {op : Value → Value → Result Value} {xs : List Value} {y : Value}
    (each : ∀ x ∈ xs, dyadic op x y = settled (Pervasion.dyadic op x y)) :
    dyadicLeft op y xs = settled (Pervasion.dyadicLeft op y xs) := by
  induction xs with
  | nil => simp only [dyadicLeft, Pervasion.dyadicLeft]; rfl
  | cons x xs ih =>
    obtain ⟨first, others⟩ := List.forall_mem_cons.mp each
    rw [dyadicLeft, Pervasion.dyadicLeft]
    exact bind_settled first fun _ _ => bind_settled (ih others) fun _ _ => rfl

theorem dyadic_eq (op : Value → Value → Result Value) {x y : Value} (filled : x.WellFormed)
    (otherFilled : y.WellFormed) : dyadic op x y = settled (Pervasion.dyadic op x y) := by
  induction x using Value.induct_elements generalizing y with
  | number | character | function => simp only [dyadic, Pervasion.dyadic]
  | array grid ih =>
    obtain ⟨shape, data⟩ := grid
    obtain ⟨count, elements⟩ := Value.meets_array.mp filled
    cases y with
    | array other =>
      obtain ⟨otherShape, otherData⟩ := other
      obtain ⟨otherCount, otherElements⟩ := Value.meets_array.mp otherFilled
      rw [dyadic, Pervasion.dyadic]
      split
      · subst otherShape
        refine bind_settled (dyadicPairs_eq (count.trans otherCount.symm) fun x isX y isY => ?_) fun _ _ => rfl
        exact ih x isX (elements x isX) (otherElements y isY)
      · rfl
    | number | character | function =>
      simp only [dyadic, Pervasion.dyadic]
      exact bind_settled (dyadicLeft_eq fun x isX => ih x isX (elements x isX) otherFilled) fun _ _ => rfl

theorem eachPair_eq (call : Iteration.Call) {xs ys : List Value} (same : xs.length = ys.length) :
    eachPair call xs ys = settled ((Iteration.pairs xs ys).mapM fun (x, y) => call [x, y]) := by
  induction xs generalizing ys with
  | nil => rfl
  | cons x xs ih =>
    obtain ⟨y, ys, rfl⟩ := List.exists_cons_of_length_eq_add_one same.symm
    rw [eachPair, Iteration.pairs, List.mapM_cons]
    exact bind_settled rfl fun _ _ => bind_settled (ih (Nat.succ.inj same)) fun _ _ => rfl

theorem each_eq (call : Iteration.Call) {args : List Value} (filled : ∀ arg ∈ args, arg.WellFormed) :
    each call args = settled (Iteration.each call args) := by
  unfold each
  split
  · rename_i shape data otherShape otherData
    obtain ⟨count, -⟩ := Value.meets_array.mp (filled (.array ⟨shape, data⟩) (by simp))
    obtain ⟨otherCount, -⟩ := Value.meets_array.mp (filled (.array ⟨otherShape, otherData⟩) (by simp))
    rw [Iteration.each]
    split
    · subst otherShape
      exact bind_settled (eachPair_eq call (count.trans otherCount.symm)) fun _ _ => rfl
    · rfl
  · rfl

/-- On arrays that the check of sizes accepts, the machine finds what the operations say and never traps. Ranks are
lengths of lists, and no list fills half of the memory that words can address. -/
theorem never_traps :
    (∀ (index : Int64) (length : UInt64),
      axisPosition index.toInt length.toNat = settled (Number.axisPosition index.toInt length.toNat)) ∧
    (∀ grid : Grid Value, Accepted grid →
      (∀ rank, cells grid rank = settled (.ok (Value.cells grid rank))) ∧
      majorCells grid = settled (.ok (Value.majorCells grid)) ∧
      (∀ x : Value, select x (.array grid) = settled (x.select (.array grid))) ∧
      (∀ x : Value, pick x (.array grid) = settled (x.pick (.array grid))) ∧
      ∀ other, Accepted other → grid.rank < 2 ^ 63 → other.rank < 2 ^ 63 →
        join grid other = settled (Value.join grid other)) ∧
    (∀ (op : Value → Value → Result Value) (x y : Value), x.WellFormed → y.WellFormed →
      dyadic op x y = settled (Pervasion.dyadic op x y)) ∧
    ∀ (call : Iteration.Call) (args : List Value), (∀ arg ∈ args, arg.WellFormed) →
      each call args = settled (Iteration.each call args) :=
  ⟨fun index _ => axisPosition_eq index.le_toInt _,
    fun _ accepted => ⟨cells_eq accepted, majorCells_eq accepted, select_eq accepted, pick_eq accepted,
      fun _ otherAccepted bound otherBound => join_eq accepted otherAccepted bound otherBound⟩,
    fun op _ _ filled otherFilled => dyadic_eq op filled otherFilled, fun call _ filled => each_eq call filled⟩

-- The check is needed even where there are no elements: the axes of the frame are multiplied all the same.
example : cells ⟨[2 ^ 40, 2 ^ 40, 0], []⟩ 1 = trap := rfl

theorem never_traps_of_rows :
    let a : Value := .character 'a'
    let rows : Grid Value := ⟨[3, 2], [a, a, a, a, a, a]⟩
    let row : Grid Value := Grid.vector [a, a]
    Accepted rows ∧ Accepted row ∧
      axisPosition (-2 ^ 63) (2 ^ 63 - 1) = settled (.error (.indexOutOfBounds (-2 ^ 63) (2 ^ 63 - 1))) ∧
      cells rows 1 = settled (.ok ([3], [.array row, .array row, .array row])) ∧
      select (.number (-1)) (.array rows) = settled (.ok (.array row)) ∧
      pick (.number (-1)) (.array row) = settled (.ok a) ∧
      join rows row = settled (.ok ⟨[4, 2], [a, a, a, a, a, a, a, a]⟩) ∧
      dyadic (fun x _ => .ok x) (.array rows) (.array rows) = settled (.ok (.array rows)) ∧
      each (Fn.primitive .left).call [.array rows, .array rows] = settled (.ok (.array rows)) := by
  intro a rows row
  have accepted : Accepted rows := ⟨rfl, by decide⟩
  have otherAccepted : Accepted row := ⟨rfl, by decide⟩
  have filled : (Value.array rows).WellFormed := Value.meets_array.mpr ⟨rfl, by simp [rows, a]⟩
  have last : Number.toInteger (-1) = .ok (-1) := by decide +kernel
  have isPosition : Number.axisPosition (-1) 3 = .ok 2 := rfl
  have selected : (Value.number (-1)).select (.array rows) = .ok (.array row) :=
    Value.select_number last isPosition rfl (by decide) rfl
  have picked {x : Float} (isIndex : Number.toInteger x = .ok (-1)) : (Value.number x).pick (.array row) = .ok a := by
    change (do Value.elementAt row [← Number.toInteger x]) = _
    rw [isIndex]
    rfl
  obtain ⟨resolved, onAccepted, paired, walked⟩ := never_traps
  obtain ⟨decomposed, -, selects, -, joined⟩ := onAccepted rows accepted
  obtain ⟨-, -, -, picks, -⟩ := onAccepted row otherAccepted
  exact ⟨accepted, otherAccepted, resolved Int64.minValue 9223372036854775807, decomposed 1,
    (selects _).trans (congrArg settled selected), (picks _).trans (congrArg settled (picked last)),
    joined row otherAccepted (by decide) (by decide), paired _ _ _ filled filled, walked _ _ (by simp [filled])⟩

end Machine

end Tacit
