import Tacit.Proofs.Integers
import Tacit.Proofs.Reselection

/-! Reshaping. A shape is filled from the elements repeated without end, so the element at a place is the one at the
remainder of the place by their number. Whatever keeps these remainders can be done to the elements before: nothing,
where the shape is that of the array itself; or reshaping, where enough of them or full rounds of them are kept. -/
namespace Tacit.Value

theorem getElem?_rounds (count : Nat) (source : List Value) (k : Nat) :
    (List.replicate count source).flatten[k]? =
      if k < count * source.length then source[k % source.length]? else none := by
  induction count generalizing k with
  | zero => simp
  | succ count ih =>
    rw [List.replicate_succ, List.flatten_cons, Nat.succ_mul]
    by_cases first : k < source.length
    · rw [List.getElem?_append_left first, Nat.mod_eq_of_lt first, if_pos (by omega)]
    · have later : source.length ≤ k := by omega
      have still : k - source.length < count * source.length ↔ k < count * source.length + source.length := by omega
      simp only [List.getElem?_append_right later, ih, still, ← Nat.mod_eq_sub_mod later]

theorem lt_rounds (size : Nat) {length : Nat} (some : 0 < length) : size < (size / length + 1) * length := by
  rw [Nat.mul_comm]
  exact Nat.lt_mul_div_succ size some

/-- At each place stands the element at its remainder by the number of elements. -/
theorem getElem?_cycled {size k : Nat} (inside : k < size) (source : List Value) :
    (cycled size source)[k]? = source[k % source.length]? := by
  rw [cycled, List.getElem?_take_of_lt inside, getElem?_rounds]
  by_cases empty : source = []
  · simp [empty]
  · have enough := lt_rounds size (List.length_pos_of_ne_nil empty)
    rw [if_pos (Nat.lt_trans inside enough)]

theorem length_cycled {size : Nat} {source : List Value} (enough : ¬ (source = [] ∧ 0 < size)) :
    (cycled size source).length = size := by
  have length : (List.replicate (size / source.length + 1) source).flatten.length =
      (size / source.length + 1) * source.length := by simp
  rw [cycled, List.length_take, length]
  by_cases empty : source = []
  · have none : size = 0 := Nat.eq_zero_of_not_pos fun positive => enough ⟨empty, positive⟩
    simp [none]
  · exact Nat.min_eq_left (lt_rounds size (List.length_pos_of_ne_nil empty)).le

theorem eq_cycled {size : Nat} {data source : List Value} (length : data.length = size)
    (each : ∀ k < size, data[k]? = source[k % source.length]?) : data = cycled size source := by
  have enough : ¬ (source = [] ∧ 0 < size) := by
    rintro ⟨rfl, positive⟩
    have first := each 0 positive
    rw [List.getElem?_eq_getElem (by omega)] at first
    simp at first
  apply List.ext_getElem?
  intro k
  by_cases inside : k < size
  · rw [each k inside, getElem?_cycled inside]
  · rw [List.getElem?_eq_none (by omega), List.getElem?_eq_none (by rw [length_cycled enough]; omega)]

theorem cycled_length (source : List Value) : cycled source.length source = source := by
  refine (eq_cycled rfl fun k inside => ?_).symm
  rw [Nat.mod_eq_of_lt inside]

/-- Going through the elements again changes nothing where it ends with the first of them or goes in whole rounds. -/
theorem cycled_cycled {size inner : Nat} {source : List Value} (enough : ¬ (source = [] ∧ 0 < inner))
    (compatible : size ≤ inner ∨ 0 < inner ∧ source.length ∣ inner) :
    cycled size (cycled inner source) = cycled size source := by
  have length := length_cycled enough
  have stillEnough : ¬ (cycled inner source = [] ∧ 0 < size) := by
    rintro ⟨empty, positive⟩
    rw [empty, List.length_nil] at length
    omega
  refine eq_cycled (length_cycled stillEnough) fun k inside => ?_
  rw [getElem?_cycled inside, length]
  rcases compatible with early | ⟨positive, whole⟩
  · have before : k < inner := Nat.lt_of_lt_of_le inside early
    rw [Nat.mod_eq_of_lt before, getElem?_cycled before]
  · rw [getElem?_cycled (Nat.mod_lt k positive), Nat.mod_mod_of_dvd k whole]

@[simp] theorem elements_array (grid : Grid Value) : (array grid).elements = grid.data := rfl

/-- The value is read as a shape to fill, which is within the limit and has this size. -/
structure Requests (s : Value) (shape : Shape) (size : Nat) : Prop where
  read : s.expectShape "reshape by" = .ok shape
  bounded : shape.boundedSize = .ok size

theorem Requests.within {s : Value} {shape : Shape} {size : Nat} (requests : s.Requests shape size) :
    shape.Within ∧ shape.size = size :=
  ⟨Shape.within_of_boundedSize requests.bounded, (Shape.eq_size_of_boundedSize requests.bounded).symm⟩

/-- A shape is filled from the elements, unless there are none of them and some are needed. -/
theorem reshape_eq {s : Value} {shape : Shape} {size : Nat} (requests : s.Requests shape size) (y : Value) :
    s.reshape y =
      if y.elements = [] ∧ 0 < size then .error (.invalidArgument .reshapedEmpty)
      else .ok (array ⟨shape, cycled size y.elements⟩) := by
  obtain ⟨within, isSize⟩ := requests.within
  by_cases failing : y.elements = [] ∧ 0 < size
  · simp [reshape, requests.read, requests.bounded, failing, bind, Except.bind, throw, throwThe, MonadExceptOf.throw]
  · have made : Grid.ofShape shape (cycled size y.elements) = .ok ⟨shape, cycled size y.elements⟩ :=
      Grid.ofShape_of_within within (by rw [length_cycled failing, isSize])
    simp [reshape, requests.read, requests.bounded, failing, made, bind, Except.bind, pure, Except.pure]

theorem safe_of_mem {shape : Shape} (within : shape.Within) {axis : Nat} (isAxis : axis ∈ shape) :
    axis ≤ Number.maxSafe := by
  obtain ⟨before, after, rfl⟩ := List.append_of_mem isAxis
  have bound : axis ≤ Shape.sizeLimit := (Shape.Within.of_append within).2.leading_le
  exact Nat.le_trans bound (by decide)

def ofAxes (shape : Shape) : Value := array (Grid.vector (shape.map fun axis => number (Number.ofNat axis)))

theorem shape_array {grid : Grid Value} (within : grid.shape.Within) :
    (array grid).shape = .ok (ofAxes grid.shape) := by
  have lengths : grid.shape.mapM (fun axis => number <$> Number.ofSize axis) =
      .ok (grid.shape.map fun axis => number (Number.ofNat axis)) := by
    rw [mapM_eq_ok, List.forall₂_map_right_iff, List.forall₂_same]
    intro axis isAxis
    exact map_eq_ok.mpr ⟨_, if_pos (safe_of_mem within isAxis), rfl⟩
  have vector : axisVector grid = .ok (Grid.vector (grid.shape.map fun axis => number (Number.ofNat axis))) :=
    bind_eq_ok.mpr ⟨_, lengths, rfl⟩
  exact map_eq_ok.mpr ⟨_, vector, rfl⟩

theorem requests_ofAxes {shape : Shape} (within : shape.Within) : (ofAxes shape).Requests shape shape.size := by
  refine ⟨?_, Shape.boundedSize_of_within within⟩
  have vector : (Grid.vector (shape.map fun axis => number (Number.ofNat axis))).rank = 1 := rfl
  rw [ofAxes, expectShape, if_pos vector, mapM_eq_ok, Grid.vector, List.forall₂_map_left_iff, List.forall₂_same]
  intro axis isAxis
  exact bind_eq_ok.mpr ⟨Number.ofNat axis, rfl, Number.toSize_ofNat (safe_of_mem within isAxis)⟩

/-- A reshaped value that is reshaped again has the elements of the first time in the shape of the second. -/
theorem reshape_reshape {s t y inner : Value} {shape innerShape : Shape} {size innerSize : Nat}
    (requests : s.Requests shape size) (innerRequests : t.Requests innerShape innerSize)
    (reshaped : t.reshape y = .ok inner)
    (compatible : size ≤ innerSize ∨ 0 < innerSize ∧ y.elements.length ∣ innerSize) :
    s.reshape inner = s.reshape y := by
  rw [reshape_eq innerRequests] at reshaped
  split at reshaped
  · cases reshaped
  · rename_i enough
    cases reshaped
    have fails : cycled innerSize y.elements = [] ∧ 0 < size ↔ y.elements = [] ∧ 0 < size := by
      rw [← List.length_eq_zero_iff, length_cycled enough]
      constructor
      · rintro ⟨none, positive⟩
        omega
      · rintro ⟨empty, positive⟩
        exact ⟨Nat.eq_zero_of_not_pos fun needed => enough ⟨empty, needed⟩, positive⟩
    simp only [reshape_eq requests, elements_array, fails, cycled_cycled enough compatible]

/-- Reshaping by what is read as a shape within the limit fails exactly when elements are needed and there are none.
Otherwise it fills the shape, at each place with the element at the remainder of the place by the number of elements.
So an array comes back from its elements by its own shape, and of two shapes that are filled one after the other only
the second counts, if it needs no more than the first or the first is filled in whole rounds. -/
theorem reshape_cycles :
    (∀ (s y : Value) (shape : Shape) (size : Nat), s.Requests shape size →
      ((∃ e, s.reshape y = .error e) ↔ y.elements = [] ∧ 0 < size) ∧
      (¬ (y.elements = [] ∧ 0 < size) →
        ∃ data, s.reshape y = .ok (array ⟨shape, data⟩) ∧ data.length = size ∧
          ∀ k < size, data[k]? = y.elements[k % y.elements.length]?)) ∧
    (∀ grid : Grid Value, (array grid).WellFormed → grid.shape.Within →
      ∃ s, (array grid).shape = .ok s ∧ s.reshape (array grid).flat = .ok (array grid)) ∧
    ∀ (s t y inner : Value) (shape innerShape : Shape) (size innerSize : Nat), s.Requests shape size →
      t.Requests innerShape innerSize → t.reshape y = .ok inner →
      size ≤ innerSize ∨ 0 < innerSize ∧ y.elements.length ∣ innerSize → s.reshape inner = s.reshape y := by
  refine ⟨fun s y shape size requests => ?_, fun grid formed within => ?_, ?_⟩
  · rw [reshape_eq requests]
    constructor
    · split <;> simp_all
    · intro enough
      exact ⟨_, if_neg enough, length_cycled enough, fun k inside => getElem?_cycled inside y.elements⟩
  · have filled : grid.data.length = grid.shape.size := (meets_array.mp formed).1
    have enough : ¬ (grid.data = [] ∧ 0 < grid.shape.size) := by
      rintro ⟨empty, positive⟩
      simp [← filled, empty] at positive
    refine ⟨ofAxes grid.shape, shape_array within, ?_⟩
    have whole : (array grid).flat.elements = grid.data := rfl
    rw [reshape_eq (requests_ofAxes within), whole, if_neg enough, ← filled, cycled_length]
  · intro s t y inner shape innerShape size innerSize requests innerRequests
    exact reshape_reshape requests innerRequests

theorem reshape_cycles_of_rows :
    let text : Value := ofText ['a', 'b', 'c']
    let rows : Grid Value := ⟨[2, 2], [character 'a', character 'b', character 'c', character 'd']⟩
    (number 5).Requests [5] 5 ∧ (number 6).Requests [6] 6 ∧ (array rows).WellFormed ∧ rows.shape.Within ∧
      (∃ data, (number 6).reshape text = .ok (array ⟨[6], data⟩) ∧ data.length = 6 ∧
        (∀ k < 6, data[k]? = text.elements[k % 3]?) ∧
        (number 5).reshape (array ⟨[6], data⟩) = (number 5).reshape text) ∧
      ∃ s, (array rows).shape = .ok s ∧ s.reshape (array rows).flat = .ok (array rows) := by
  intro text rows
  have five : (number 5).Requests [5] 5 := by
    have isSize : Number.toSize 5 = .ok 5 := by decide +kernel
    exact ⟨bind_eq_ok.mpr ⟨5, isSize, rfl⟩, by decide⟩
  have six : (number 6).Requests [6] 6 := by
    have isSize : Number.toSize 6 = .ok 6 := by decide +kernel
    exact ⟨bind_eq_ok.mpr ⟨6, isSize, rfl⟩, by decide⟩
  have formed : (array rows).WellFormed := by simp [rows, WellFormed, Meets, AllMeet, Demand.wellFormed]
  have within : rows.shape.Within := by decide
  obtain ⟨fills, restores, again⟩ := reshape_cycles
  obtain ⟨data, reshaped, length, each⟩ := (fills (number 6) text [6] 6 six).2 (by simp [text, ofText, Grid.vector])
  exact ⟨five, six, formed, within, ⟨data, reshaped, length, each,
    again _ _ _ _ _ _ _ _ five six reshaped (.inl (by decide))⟩, restores rows formed within⟩

end Tacit.Value
