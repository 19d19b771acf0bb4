import Tacit.Call.Primitive
import Tacit.Proofs.Contents
import Tacit.Proofs.Result

/-! The primitives keep every demand that is closed under the ways in which arrays are made. A scalar
primitive leaves the arrays it descends into as they are; a structural one makes an array whose size
it has checked, or takes one apart. Only the shape of an array is a vector of unchecked length. -/
namespace Tacit

/-- The arrays that operations make of demanded arrays are demanded again. The constructions that
check no size make them only of the grids `allowed`. -/
structure Demand.Closed (demand : Demand) (allowed : Grid Value → Prop) : Prop where
  bounded : ∀ {shape : Shape} {n}, shape.boundedSize = .ok n → demand.array shape n
  flat : ∀ {shape n}, demand.array shape n → demand.array [n] n
  cell : ∀ {axis axes n i}, demand.array (axis :: axes) n → i < axis →
    demand.array axes (min (Shape.size axes) (n - i * Shape.size axes))
  vector : ∀ {data}, allowed (Grid.vector data) → demand.array [data.length] data.length
  stacked : ∀ {shape : Shape} {cells : List (Grid Value)}, cells ≠ [] →
    (∀ cell ∈ cells, cell.shape = shape ∧ demand.array shape cell.data.length) →
    allowed ⟨cells.length :: shape, cells.flatMap Grid.data⟩ →
    demand.array (cells.length :: shape) (cells.flatMap Grid.data).length

variable {demand : Demand} {allowed : Grid Value → Prop}

/-- Elements of the same number in the same shape. -/
theorem Value.meets_refilled {shape : Shape} {data others : List Value}
    (held : (array ⟨shape, data⟩).Meets demand) (sameLength : others.length = data.length)
    (elements : ∀ x ∈ others, x.Meets demand) : (array ⟨shape, others⟩).Meets demand :=
  Value.meets_array.mpr ⟨by simpa [sameLength] using (Value.meets_array.mp held).1, elements⟩

namespace Pervasion

theorem monadicAll_eq_mapM (op : Value → Result Value) (xs : List Value) :
    monadicAll op xs = xs.mapM (monadic op) := by
  induction xs with
  | nil => rfl
  | cons x xs ih => simp [monadicAll, ih]

theorem dyadicLeft_eq_mapM (op : Value → Value → Result Value) (y : Value) (xs : List Value) :
    dyadicLeft op y xs = xs.mapM fun x => dyadic op x y := by
  induction xs with
  | nil => rfl
  | cons x xs ih => simp [dyadicLeft, ih]

theorem monadic_meets {op : Value → Result Value} (scalar : ∀ x y, op x = .ok y → y.Meets demand)
    {x y : Value} (held : x.Meets demand) (yields : monadic op x = .ok y) : y.Meets demand := by
  induction x using Value.induct_elements generalizing y with
  | number | character | function => exact scalar _ _ (by simpa [monadic] using yields)
  | array grid ih =>
    obtain ⟨shape, data⟩ := grid
    simp only [monadic, monadicAll_eq_mapM, bind_eq_ok, pure_eq_ok] at yields
    obtain ⟨results, mapped, rfl⟩ := yields
    obtain ⟨sameLength, elements⟩ := forall_of_mapM_eq_ok mapped fun x member y yields =>
      ih x member ((Value.meets_array.mp held).2 x member) yields
    exact Value.meets_refilled held sameLength elements

/-- The right elements are met in step with the left ones, so the left ones give the length. -/
theorem dyadicPairs_meets {op : Value → Value → Result Value} {xs ys zs : List Value}
    (each : ∀ x ∈ xs, ∀ y ∈ ys, ∀ z, dyadic op x y = .ok z → z.Meets demand)
    (yields : dyadicPairs op xs ys = .ok zs) :
    zs.length = xs.length ∧ ∀ z ∈ zs, z.Meets demand := by
  induction xs generalizing ys zs with
  | nil =>
    simp only [dyadicPairs, pure_eq_ok] at yields
    subst zs
    simp
  | cons x xs ih =>
    cases ys with
    | nil => simp [dyadicPairs] at yields
    | cons y ys =>
      simp only [dyadicPairs, bind_eq_ok, pure_eq_ok] at yields
      obtain ⟨first, paired, others, rest, rfl⟩ := yields
      have met := each x List.mem_cons_self y List.mem_cons_self first paired
      obtain ⟨sameLength, later⟩ := ih (fun x left y right => each x (List.mem_cons_of_mem _ left)
        y (List.mem_cons_of_mem _ right)) rest
      exact ⟨by simp [sameLength], by simpa [met] using later⟩

theorem dyadic_meets {op : Value → Value → Result Value}
    (scalar : ∀ x y z, op x y = .ok z → z.Meets demand) {x y z : Value}
    (left : x.Meets demand) (right : y.Meets demand) (yields : dyadic op x y = .ok z) :
    z.Meets demand := by
  induction x using Value.induct_elements generalizing y z with
  | number | character | function =>
    exact monadic_meets (scalar _) right (by simpa [dyadic] using yields)
  | array grid ih =>
    obtain ⟨shape, data⟩ := grid
    have elements := (Value.meets_array.mp left).2
    cases y with
    | array other =>
      obtain ⟨otherShape, otherData⟩ := other
      simp only [dyadic] at yields
      split at yields
      · simp only [bind_eq_ok, pure_eq_ok] at yields
        obtain ⟨results, paired, rfl⟩ := yields
        obtain ⟨sameLength, met⟩ := dyadicPairs_meets (fun x member y other z yields =>
          ih x member (elements x member) ((Value.meets_array.mp right).2 y other) yields) paired
        exact Value.meets_refilled left sameLength met
      · cases yields
    | number | character | function =>
      simp only [dyadic, dyadicLeft_eq_mapM, bind_eq_ok, pure_eq_ok] at yields
      obtain ⟨results, mapped, rfl⟩ := yields
      obtain ⟨sameLength, met⟩ := forall_of_mapM_eq_ok mapped fun x member z yields =>
        ih x member (elements x member) right yields
      exact Value.meets_refilled left sameLength met

end Pervasion

namespace Arithmetic

theorem onNumber_meets {action : String} {op : Float → Float} {x y : Value}
    (yields : onNumber action op x = .ok y) : y.Meets demand := by
  simp only [onNumber, bind_eq_ok, pure_eq_ok] at yields
  obtain ⟨_, _, rfl⟩ := yields
  simp

theorem onNumbers_meets {action : String} {op : Float → Float → Float} {x y z : Value}
    (yields : onNumbers action op x y = .ok z) : z.Meets demand := by
  unfold onNumbers at yields
  split at yields <;> cases yields
  simp

theorem shift_meets {c : Char} {offset : Float} {y : Value} (yields : shift c offset = .ok y) :
    y.Meets demand := by
  simp only [shift, bind_eq_ok] at yields
  obtain ⟨code, _, yields⟩ := yields
  split at yields
  · cases yields
    simp
  · simp at yields

theorem add_meets {x y z : Value} (yields : add x y = .ok z) : z.Meets demand := by
  unfold add at yields
  split at yields
  · cases yields
    simp
  · exact shift_meets yields
  · exact shift_meets yields
  · cases yields

theorem subtract_meets {x y z : Value} (yields : subtract x y = .ok z) : z.Meets demand := by
  unfold subtract at yields
  split at yields
  · cases yields
    simp
  · exact shift_meets yields
  · cases yields
    simp
  · cases yields

theorem maximum_meets {x y z : Value} (yields : maximum x y = .ok z) : z.Meets demand := by
  unfold maximum at yields
  split at yields <;> cases yields <;> simp

theorem minimum_meets {x y z : Value} (yields : minimum x y = .ok z) : z.Meets demand := by
  unfold minimum at yields
  split at yields <;> cases yields <;> simp

end Arithmetic

theorem Comparison.ordered_meets {accept : Ordering → Bool} {x y z : Value}
    (yields : ordered accept x y = .ok z) : z.Meets demand := by
  simp only [ordered, bind_eq_ok, pure_eq_ok] at yields
  obtain ⟨_, _, rfl⟩ := yields
  simp

namespace Primitive

theorem scalarMonadic?_meets {p : Primitive} {op : Value → Result Value}
    (scalar : p.scalarMonadic? = some op) {x y : Value} (yields : op x = .ok y) :
    y.Meets demand := by
  cases p <;> simp only [scalarMonadic?, Option.some.injEq, reduceCtorEq] at scalar <;> subst op <;>
    exact Arithmetic.onNumber_meets yields

theorem scalarDyadic?_meets {p : Primitive} {op : Value → Value → Result Value}
    (scalar : p.scalarDyadic? = some op) {x y z : Value} (yields : op x y = .ok z) :
    z.Meets demand := by
  cases p <;> simp only [scalarDyadic?, Option.some.injEq, reduceCtorEq] at scalar <;> subst op
  case equal | notEqual =>
    cases yields
    simp
  case greater | greaterEqual | less | lessEqual => exact Comparison.ordered_meets yields
  case add => exact Arithmetic.add_meets yields
  case subtract => exact Arithmetic.subtract_meets yields
  case multiply | divide | modulo | power => exact Arithmetic.onNumbers_meets yields
  case maximum => exact Arithmetic.maximum_meets yields
  case minimum => exact Arithmetic.minimum_meets yields

end Primitive

theorem Grid.ofShape_eq_ok {α : Type} {shape : Shape} {data : List α} {grid : Grid α} :
    ofShape shape data = .ok grid ↔ shape.boundedSize = .ok data.length ∧ ⟨shape, data⟩ = grid := by
  simp only [ofShape, bind_eq_ok]
  constructor
  · rintro ⟨size, bounded, checked⟩
    by_cases fits : size = data.length
    · subst size
      simp at checked
      exact ⟨bounded, checked⟩
    · simp [fits, map_eq_ok] at checked
  · rintro ⟨bounded, rfl⟩
    exact ⟨data.length, bounded, by simp⟩

namespace Value

theorem ofShape_meets (closed : demand.Closed allowed) {shape : Shape} {data : List Value}
    {grid : Grid Value} (made : Grid.ofShape shape data = .ok grid)
    (elements : ∀ x ∈ data, x.Meets demand) : (array grid).Meets demand := by
  obtain ⟨bounded, rfl⟩ := Grid.ofShape_eq_ok.mp made
  exact meets_array.mpr ⟨closed.bounded bounded, elements⟩

/-- A vector that is short enough to be made without a look at its length. -/
theorem vector_meets (closed : demand.Closed allowed) {data : List Value}
    (short : data.length ≤ Shape.sizeLimit) (elements : ∀ x ∈ data, x.Meets demand) :
    (array (Grid.vector data)).Meets demand := by
  refine meets_array.mpr ⟨closed.bounded ?_, elements⟩
  by_cases empty : data.length = 0
  · simp [Grid.vector, Shape.boundedSize_eq, empty, Shape.sizeLimit]
  · simp [Grid.vector, Shape.boundedSize_eq, empty, short]

theorem iota_meets (closed : demand.Closed allowed) {x y : Value} (yields : x.iota = .ok y) :
    y.Meets demand := by
  simp only [iota, bind_eq_ok, pure_eq_ok] at yields
  obtain ⟨shape, _, size, _, data, counted, grid, made, rfl⟩ := yields
  refine ofShape_meets closed made (forall_of_mapM_eq_ok counted fun i _ value yields => ?_).2
  obtain ⟨_, _, rfl⟩ := map_eq_ok.mp yields
  simp

theorem length_meets {x y : Value} (yields : x.length = .ok y) : y.Meets demand := by
  obtain ⟨_, _, rfl⟩ := map_eq_ok.mp yields
  simp

/-- The axis lengths make a vector as long as the rank, which is not bounded. -/
theorem shape_meets (closed : demand.Closed allowed) {x y : Value} (yields : x.shape = .ok y)
    (fits : ∀ grid, y = array grid → allowed grid) : y.Meets demand := by
  cases x with
  | array source =>
    simp only [shape, axisVector, map_eq_ok, bind_eq_ok, pure_eq_ok] at yields
    obtain ⟨grid, ⟨axes, read, rfl⟩, rfl⟩ := yields
    refine meets_array.mpr ⟨closed.vector (fits _ rfl),
      (forall_of_mapM_eq_ok read fun axis _ value yields => ?_).2⟩
    obtain ⟨_, _, rfl⟩ := map_eq_ok.mp yields
    simp
  | number | character | function =>
    simp only [shape, Except.ok.injEq] at yields
    subst y
    exact vector_meets closed (by simp) (by simp)

theorem elements_meet {x : Value} (held : x.Meets demand) : ∀ e ∈ x.elements, e.Meets demand := by
  cases x with
  | array grid => exact (meets_array.mp held).2
  | function fn => simpa [elements] using held
  | number | character => simp [elements]

theorem flat_meets (closed : demand.Closed allowed) {x : Value} (held : x.Meets demand) :
    x.flat.Meets demand := by
  cases x with
  | array grid =>
    obtain ⟨array, elements⟩ := meets_array.mp held
    exact meets_array.mpr ⟨closed.flat array, elements⟩
  | number | character | function =>
    exact vector_meets closed (by simp [elements, Shape.sizeLimit]) (elements_meet held)

theorem pair_meets (closed : demand.Closed allowed) {x y : Value} (left : x.Meets demand)
    (right : y.Meets demand) : (x.pair y).Meets demand :=
  vector_meets closed (by simp [Shape.sizeLimit]) (by simp [left, right])

theorem mem_cycled {size : Nat} {source : List Value} {x : Value} (member : x ∈ cycled size source) :
    x ∈ source := by
  obtain ⟨copy, repeated, inside⟩ := List.mem_flatten.mp (List.mem_of_mem_take member)
  rw [List.eq_of_mem_replicate repeated] at inside
  exact inside

theorem reshape_meets (closed : demand.Closed allowed) {x y z : Value} (right : y.Meets demand)
    (yields : x.reshape y = .ok z) : z.Meets demand := by
  simp only [reshape, bind_eq_ok] at yields
  obtain ⟨shape, _, size, _, yields⟩ := yields
  split at yields
  · simp [bind_eq_ok] at yields
  · simp only [bind_eq_ok, pure_eq_ok] at yields
    obtain ⟨grid, made, rfl⟩ := yields
    exact ofShape_meets closed made fun e member => elements_meet right e (mem_cycled member)

/-! Catenation gives its arguments new shapes before it joins them; their elements stay. -/

theorem data_of_reshaped {grid other : Grid Value} {shape : Shape}
    (made : grid.reshaped shape = .ok other) : other.data = grid.data := by
  obtain ⟨_, rfl⟩ := Grid.ofShape_eq_ok.mp made
  rfl

theorem data_of_promoted {grid other : Grid Value} (made : promoted grid = .ok other) :
    other.data = grid.data := by
  unfold promoted at made
  split at made
  · exact data_of_reshaped made
  · cases made
    rfl

theorem data_of_levelled {x y x' y' : Grid Value} (made : levelled x y = .ok (x', y')) :
    x'.data = x.data ∧ y'.data = y.data := by
  unfold levelled at made
  split at made
  · simp only [bind_eq_ok, pure_eq_ok, Prod.mk.injEq] at made
    obtain ⟨_, extended, rfl, rfl⟩ := made
    exact ⟨rfl, data_of_reshaped extended⟩
  · split at made
    · simp only [bind_eq_ok, pure_eq_ok, Prod.mk.injEq] at made
      obtain ⟨_, extended, rfl, rfl⟩ := made
      exact ⟨data_of_reshaped extended, rfl⟩
    · simp only [pure_eq_ok, Prod.mk.injEq] at made
      obtain ⟨rfl, rfl⟩ := made
      exact ⟨rfl, rfl⟩

theorem join_meets (closed : demand.Closed allowed) {x y z : Grid Value}
    (left : ∀ e ∈ x.data, e.Meets demand) (right : ∀ e ∈ y.data, e.Meets demand)
    (yields : join x y = .ok z) : (array z).Meets demand := by
  simp only [join, bind_eq_ok] at yields
  obtain ⟨x', promotedLeft, y', promotedRight, ⟨x'', y''⟩, level, yields⟩ := yields
  split at yields
  · simp [bind_eq_ok] at yields
  · obtain ⟨sameLeft, sameRight⟩ := data_of_levelled level
    refine ofShape_meets closed yields fun e member => ?_
    rw [sameLeft, sameRight, data_of_promoted promotedLeft, data_of_promoted promotedRight] at member
    rcases List.mem_append.mp member with inLeft | inRight
    · exact left e inLeft
    · exact right e inRight

theorem filledCell_meets {fill : Value} {partner grid : Grid Value} (held : fill.Meets demand)
    (made : filledCell fill partner = .ok grid) : ∀ e ∈ grid.data, e.Meets demand := by
  simp only [filledCell, bind_eq_ok] at made
  obtain ⟨size, _, made⟩ := made
  obtain ⟨_, rfl⟩ := Grid.ofShape_eq_ok.mp made
  intro e member
  rw [List.eq_of_mem_replicate member]
  exact held

theorem catenate_meets (closed : demand.Closed allowed) {x y z : Value} (left : x.Meets demand)
    (right : y.Meets demand) (yields : x.catenate y = .ok z) : z.Meets demand := by
  unfold catenate at yields
  split at yields
  · obtain ⟨grid, joined, rfl⟩ := map_eq_ok.mp yields
    exact join_meets closed (meets_array.mp left).2 (meets_array.mp right).2 joined
  · simp only [bind_eq_ok, pure_eq_ok] at yields
    obtain ⟨cell, filled, grid, joined, rfl⟩ := yields
    exact join_meets closed (meets_array.mp left).2 (filledCell_meets right filled) joined
  · simp only [bind_eq_ok, pure_eq_ok] at yields
    obtain ⟨cell, filled, grid, joined, rfl⟩ := yields
    exact join_meets closed (filledCell_meets left filled) (meets_array.mp right).2 joined
  · cases yields
    exact pair_meets closed left right

theorem mem_cellData {source : Grid Value} {index : Value} {data : List Value}
    (read : cellData source index = .ok data) : ∀ e ∈ data, e ∈ source.data := by
  simp only [cellData, bind_eq_ok, pure_eq_ok] at read
  obtain ⟨_, _, position, _, rfl⟩ := read
  exact fun e member => List.mem_of_mem_drop (List.mem_of_mem_take member)

theorem select_meets (closed : demand.Closed allowed) {x y z : Value} (right : y.Meets demand)
    (yields : x.select y = .ok z) : z.Meets demand := by
  simp only [select, bind_eq_ok] at yields
  obtain ⟨source, isArray, yields⟩ := yields
  have inside : ∀ e ∈ source.data, e.Meets demand := by
    cases y <;> simp only [expectArray, Except.ok.injEq, reduceCtorEq] at isArray
    subst source
    exact (meets_array.mp right).2
  split at yields
  · simp [bind_eq_ok] at yields
  · split at yields
    · simp only [bind_eq_ok, pure_eq_ok] at yields
      obtain ⟨_, _, cells, gathered, grid, made, rfl⟩ := yields
      refine ofShape_meets closed made fun e member => ?_
      obtain ⟨cell, isCell, member⟩ := List.mem_flatten.mp member
      exact inside e ((forall_of_mapM_eq_ok gathered fun _ _ _ read => mem_cellData read).2
        cell isCell e member)
    · simp only [bind_eq_ok] at yields
      obtain ⟨data, read, yields⟩ := yields
      split at yields
      · cases yields
        exact inside _ (mem_cellData read _ (by simp))
      · simp only [bind_eq_ok, pure_eq_ok] at yields
        obtain ⟨grid, made, rfl⟩ := yields
        exact ofShape_meets closed made fun e member => inside e (mem_cellData read e member)

theorem mem_elementAt {source : Grid Value} {position : List Int} {x : Value}
    (read : elementAt source position = .ok x) : x ∈ source.data := by
  unfold elementAt at read
  split at read
  · simp [bind_eq_ok] at read
  · simp only [bind_eq_ok] at read
    obtain ⟨place, _, read⟩ := read
    split at read
    · rename_i element found
      cases read
      exact List.mem_of_getElem? found
    · simp at read

theorem pickAll_eq_mapM (source : Grid Value) (indices : List Value) :
    pickAll source indices = indices.mapM (pickFrom source) := by
  induction indices with
  | nil => rfl
  | cons index indices ih => simp [pickAll, ih]

theorem pickFrom_meets {source : Grid Value} (inside : ∀ e ∈ source.data, e.Meets demand)
    {x y : Value} (left : x.Meets demand) (yields : pickFrom source x = .ok y) :
    y.Meets demand := by
  induction x using Value.induct_elements generalizing y with
  | number | character | function =>
    simp only [pickFrom, bind_eq_ok] at yields
    obtain ⟨index, _, yields⟩ := yields
    exact inside y (mem_elementAt yields)
  | array grid ih =>
    obtain ⟨shape, data⟩ := grid
    simp only [pickFrom, pickAll_eq_mapM] at yields
    split at yields
    · simp only [bind_eq_ok, pure_eq_ok] at yields
      obtain ⟨picked, mapped, rfl⟩ := yields
      obtain ⟨sameLength, met⟩ := forall_of_mapM_eq_ok mapped fun x member y yields =>
        ih x member ((meets_array.mp left).2 x member) yields
      exact meets_refilled left sameLength met
    · simp only [bind_eq_ok] at yields
      obtain ⟨position, _, yields⟩ := yields
      exact inside y (mem_elementAt yields)

theorem pick_meets {x y z : Value} (left : x.Meets demand) (right : y.Meets demand)
    (yields : x.pick y = .ok z) : z.Meets demand := by
  simp only [pick, bind_eq_ok] at yields
  obtain ⟨source, isArray, yields⟩ := yields
  cases y <;> simp only [expectArray, Except.ok.injEq, reduceCtorEq] at isArray
  subst source
  exact pickFrom_meets (meets_array.mp right).2 left yields

end Value

namespace Primitive

theorem applyMonadic_meets (closed : demand.Closed allowed) {p : Primitive} {x y : Value}
    (held : x.Meets demand) (yields : p.applyMonadic x = .ok y)
    (fits : p = .shape → ∀ grid, y = .array grid → allowed grid) : y.Meets demand := by
  unfold applyMonadic at yields
  split at yields
  · rename_i op scalar
    exact Pervasion.monadic_meets (fun _ _ => scalarMonadic?_meets scalar) held yields
  · split at yields
    · cases yields
      exact held
    · exact Value.iota_meets closed yields
    · exact Value.length_meets yields
    · exact Value.shape_meets closed yields (fits rfl)
    · cases yields
      exact Value.flat_meets closed held
    · cases yields

theorem applyDyadic_meets (closed : demand.Closed allowed) {p : Primitive} {x y z : Value}
    (left : x.Meets demand) (right : y.Meets demand) (yields : p.applyDyadic x y = .ok z) :
    z.Meets demand := by
  unfold applyDyadic at yields
  split at yields
  · rename_i op scalar
    exact Pervasion.dyadic_meets (fun _ _ _ => scalarDyadic?_meets scalar) left right yields
  · split at yields
    · cases yields
      exact left
    · cases yields
      exact right
    · cases yields
      simp
    · cases yields
      simp
    · cases yields
      exact Value.pair_meets closed left right
    · exact Value.catenate_meets closed left right yields
    · exact Value.reshape_meets closed right yields
    · exact Value.select_meets closed right yields
    · exact Value.pick_meets left right yields
    · cases yields

/-- A primitive gives a value that meets the demand; the shape of an array is taken on trust. -/
theorem apply_meets (closed : demand.Closed allowed) {p : Primitive} {args : List Value} {v : Value}
    (held : ∀ arg ∈ args, arg.Meets demand) (yields : p.apply args = .ok v)
    (fits : p = .shape → ∀ grid, v = .array grid → allowed grid) : v.Meets demand := by
  unfold apply at yields
  split at yields
  · exact applyMonadic_meets closed (held _ (by simp)) yields fits
  · exact applyDyadic_meets closed (held _ (by simp)) (held _ (by simp)) yields
  · cases yields

end Primitive

end Tacit
