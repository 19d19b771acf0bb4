import Tacit.Call
import Tacit.Proofs.Primitives

/-! What operations fail with. A primitive that gets as many arguments as it takes may complain about
their kinds, shapes and values, but never about their number. -/
namespace Tacit

/-- A complaint about anything but the number of arguments. -/
def Fault.AboutValues (fault : Fault) : Prop :=
  ∀ expected found, fault ≠ .argumentCount expected found

@[simp] theorem Fault.aboutValues_of_ne {fault : Fault}
    (differs : ∀ expected found, fault ≠ .argumentCount expected found) : fault.AboutValues :=
  differs

/-- The operation never complains about the number of arguments. -/
abbrev WellCounted {α : Type} (result : Result α) : Prop := FailsOnly Fault.AboutValues result

namespace Number

theorem wellCounted_toInteger (x : Float) : WellCounted (toInteger x) := by
  simp only [toInteger, failsOnly_ite, failsOnly_error, failsOnly_ok]
  simp

theorem wellCounted_toSize (x : Float) : WellCounted (toSize x) := by
  simp [toSize, wellCounted_toInteger]

theorem wellCounted_ofSize (n : Nat) : WellCounted (ofSize n) := by
  simp [ofSize]

theorem wellCounted_axisPosition (index : Int) (length : Nat) :
    WellCounted (axisPosition index length) := by
  simp [axisPosition]

end Number

theorem Shape.wellCounted_boundedSize (shape : Shape) : WellCounted shape.boundedSize := by
  simp [boundedSize_eq]

theorem Grid.wellCounted_ofShape {α : Type} (shape : Shape) (data : List α) :
    WellCounted (ofShape shape data) := by
  simp [ofShape, Shape.wellCounted_boundedSize]

namespace Value

theorem wellCounted_expectNumber (action : String) (x : Value) :
    WellCounted (x.expectNumber action) := by
  cases x <;> simp [expectNumber]

theorem wellCounted_expectArray (action : String) (x : Value) :
    WellCounted (x.expectArray action) := by
  cases x <;> simp [expectArray]

theorem wellCounted_expectFunction (role : String) (x : Value) :
    WellCounted (x.expectFunction role) := by
  cases x <;> simp [expectFunction]

theorem wellCounted_expectShape (action : String) (x : Value) :
    WellCounted (x.expectShape action) := by
  cases x with
  | number x => simp [expectShape, Number.wellCounted_toSize]
  | array grid =>
    simp only [expectShape, failsOnly_ite, failsOnly_error]
    refine ⟨fun _ => failsOnly_mapM fun x _ => ?_, fun _ => by simp⟩
    simp [wellCounted_expectNumber, Number.wellCounted_toSize]
  | character | function => simp [expectShape]

theorem wellCounted_iota (y : Value) : WellCounted y.iota := by
  have data (size : Nat) : WellCounted ((List.range size).mapM fun i => number <$> Number.ofSize i) :=
    failsOnly_mapM fun i _ => by simp [Number.wellCounted_ofSize]
  simp [iota, wellCounted_expectShape, Shape.wellCounted_boundedSize, Grid.wellCounted_ofShape, data]

theorem wellCounted_length (y : Value) : WellCounted y.length := by
  simp [length, Number.wellCounted_ofSize]

theorem wellCounted_shape (y : Value) : WellCounted y.shape := by
  cases y with
  | array grid =>
    have axes : WellCounted (grid.shape.mapM fun axis => number <$> Number.ofSize axis) :=
      failsOnly_mapM fun axis _ => by simp [Number.wellCounted_ofSize]
    simp [shape, axisVector, axes]
  | number | character | function => simp [shape]

theorem wellCounted_reshape (x y : Value) : WellCounted (x.reshape y) := by
  simp [reshape, wellCounted_expectShape, Shape.wellCounted_boundedSize, Grid.wellCounted_ofShape]

theorem wellCounted_join (x y : Grid Value) : WellCounted (join x y) := by
  have promotes (grid : Grid Value) : WellCounted (promoted grid) := by
    simp [promoted, Grid.reshaped, Grid.wellCounted_ofShape]
  have levels (x y : Grid Value) : WellCounted (levelled x y) := by
    simp [levelled, asOnlyCell, Grid.reshaped, Grid.wellCounted_ofShape]
  simp [join, promotes, levels, Grid.wellCounted_ofShape]

theorem wellCounted_catenate (x y : Value) : WellCounted (x.catenate y) := by
  have fills (fill : Value) (partner : Grid Value) : WellCounted (filledCell fill partner) := by
    simp [filledCell, Shape.wellCounted_boundedSize, Grid.wellCounted_ofShape]
  cases x <;> cases y <;> simp [catenate, fills, wellCounted_join]

theorem wellCounted_expectIndex (x : Value) : WellCounted x.expectIndex := by
  simp [expectIndex, wellCounted_expectNumber, Number.wellCounted_toInteger]

theorem wellCounted_select (x y : Value) : WellCounted (x.select y) := by
  have cell (source : Grid Value) (index : Value) : WellCounted (cellData source index) := by
    simp [cellData, wellCounted_expectIndex, Number.wellCounted_axisPosition]
  have cells (source : Grid Value) (indices : List Value) :
      WellCounted (indices.mapM (cellData source)) :=
    failsOnly_mapM fun index _ => cell source index
  cases x with
  | array indices =>
    simp [select, wellCounted_expectArray, Shape.wellCounted_boundedSize, cells,
      Grid.wellCounted_ofShape]
  | number | character | function =>
    refine failsOnly_bind.mpr ⟨wellCounted_expectArray _ y, fun source _ => ?_⟩
    refine failsOnly_ite.mpr ⟨fun _ => by simp, fun _ => ?_⟩
    refine failsOnly_bind.mpr ⟨cell source _, fun data _ => ?_⟩
    split <;> simp [Grid.wellCounted_ofShape]

theorem wellCounted_offset (start : Nat) (position : List Int) (shape : Shape) :
    WellCounted (offset start position shape) := by
  induction position generalizing start shape with
  | nil => simp [offset]
  | cons index indices ih =>
    cases shape with
    | nil => simp [offset]
    | cons axis axes => simp [offset, Number.wellCounted_axisPosition, ih]

theorem wellCounted_elementAt (source : Grid Value) (position : List Int) :
    WellCounted (elementAt source position) := by
  unfold elementAt
  refine failsOnly_ite.mpr ⟨fun _ => by simp, fun _ => ?_⟩
  refine failsOnly_bind.mpr ⟨wellCounted_offset _ _ _, fun place _ => ?_⟩
  split <;> simp

theorem wellCounted_pickFrom (source : Grid Value) (x : Value) :
    WellCounted (pickFrom source x) := by
  induction x using induct_elements with
  | number | character | function =>
    simp [pickFrom, wellCounted_expectIndex, wellCounted_elementAt]
  | array grid ih =>
    have inner : WellCounted (grid.data.mapM (pickFrom source)) :=
      failsOnly_mapM fun x reached => ih x (mem_of_mem_untilFailure reached)
    have position : WellCounted (grid.data.mapM expectIndex) :=
      failsOnly_mapM fun x _ => wellCounted_expectIndex x
    simp [pickFrom, pickAll_eq_mapM, inner, position, wellCounted_elementAt]

theorem wellCounted_pick (x y : Value) : WellCounted (x.pick y) := by
  simp [pick, wellCounted_expectArray, wellCounted_pickFrom]

theorem wellCounted_stack (values : List Value) : WellCounted (stack values) := by
  unfold stack
  split
  · simp
  · split_ifs
    · simp
    · split <;> simp

end Value

namespace Pervasion

theorem wellCounted_monadic {op : Value → Result Value} (scalar : ∀ x, WellCounted (op x))
    (x : Value) : WellCounted (monadic op x) := by
  induction x using Value.induct_elements with
  | number | character | function => simpa [monadic] using scalar _
  | array grid ih =>
    have inner : WellCounted (grid.data.mapM (monadic op)) :=
      failsOnly_mapM fun x reached => ih x (mem_of_mem_untilFailure reached)
    simp [monadic, monadicAll_eq_mapM, inner]

theorem wellCounted_dyadicPairs {op : Value → Value → Result Value} {xs : List Value}
    (each : ∀ x ∈ xs, ∀ y, WellCounted (dyadic op x y)) (ys : List Value) :
    WellCounted (dyadicPairs op xs ys) := by
  induction xs generalizing ys with
  | nil => simp [dyadicPairs]
  | cons x xs ih =>
    cases ys with
    | nil => simp [dyadicPairs]
    | cons y ys =>
      have first := each x List.mem_cons_self y
      have others := ih (fun x member => each x (List.mem_cons_of_mem _ member)) ys
      simp [dyadicPairs, first, others]

theorem wellCounted_dyadic {op : Value → Value → Result Value}
    (scalar : ∀ x y, WellCounted (op x y)) (x y : Value) : WellCounted (dyadic op x y) := by
  induction x using Value.induct_elements generalizing y with
  | number | character | function =>
    simpa [dyadic] using wellCounted_monadic (scalar _) y
  | array grid ih =>
    cases y with
    | array other =>
      have pairs := wellCounted_dyadicPairs ih other.data
      simp [dyadic, pairs]
    | number | character | function =>
      have inner (y : Value) : WellCounted (grid.data.mapM fun x => dyadic op x y) :=
        failsOnly_mapM fun x reached => ih x (mem_of_mem_untilFailure reached) y
      simp [dyadic, dyadicLeft_eq_mapM, inner]

end Pervasion

namespace Arithmetic

theorem wellCounted_onNumber (action : String) (op : Float → Float) (x : Value) :
    WellCounted (onNumber action op x) := by
  simp [onNumber, Value.wellCounted_expectNumber]

theorem wellCounted_onNumbers (action : String) (op : Float → Float → Float) (x y : Value) :
    WellCounted (onNumbers action op x y) := by
  unfold onNumbers
  split <;> simp [mismatch]

theorem wellCounted_shift (c : Char) (offset : Float) : WellCounted (shift c offset) := by
  refine failsOnly_bind.mpr ⟨Number.wellCounted_toInteger _, fun code _ => ?_⟩
  split <;> simp

theorem wellCounted_add (x y : Value) : WellCounted (add x y) := by
  unfold add
  split <;> simp [wellCounted_shift, mismatch]

theorem wellCounted_subtract (x y : Value) : WellCounted (subtract x y) := by
  unfold subtract
  split <;> simp [wellCounted_shift, mismatch]

theorem wellCounted_maximum (x y : Value) : WellCounted (maximum x y) := by
  unfold maximum
  split <;> simp [mismatch]

theorem wellCounted_minimum (x y : Value) : WellCounted (minimum x y) := by
  unfold minimum
  split <;> simp [mismatch]

end Arithmetic

theorem Comparison.wellCounted_ordered (accept : Ordering → Bool) (x y : Value) :
    WellCounted (ordered accept x y) := by
  refine failsOnly_bind.mpr ⟨?_, fun _ _ => by simp⟩
  unfold order
  split <;> simp

namespace Primitive

theorem monadic_or_dyadic (p : Primitive) : p.arity = .monadic ∨ p.arity = .dyadic := by
  cases p <;> simp [arity]

theorem wellCounted_scalarMonadic {p : Primitive} {op : Value → Result Value}
    (scalar : scalarMonadic? p = some op) (x : Value) : WellCounted (op x) := by
  unfold scalarMonadic? at scalar
  split at scalar <;> cases scalar <;> exact Arithmetic.wellCounted_onNumber _ _ x

theorem wellCounted_scalarDyadic {p : Primitive} {op : Value → Value → Result Value}
    (scalar : scalarDyadic? p = some op) (x y : Value) : WellCounted (op x y) := by
  unfold scalarDyadic? at scalar
  split at scalar <;> cases scalar
  all_goals simp only [failsOnly_ok, Arithmetic.wellCounted_add, Arithmetic.wellCounted_subtract,
    Arithmetic.wellCounted_onNumbers, Arithmetic.wellCounted_maximum, Arithmetic.wellCounted_minimum,
    Comparison.wellCounted_ordered]

theorem wellCounted_applyMonadic {p : Primitive} (monadic : p.arity = .monadic) (x : Value) :
    WellCounted (p.applyMonadic x) := by
  unfold applyMonadic
  split
  · exact Pervasion.wellCounted_monadic (wellCounted_scalarMonadic ‹_›) x
  · split
    · simp
    · exact x.wellCounted_iota
    · exact x.wellCounted_length
    · exact x.wellCounted_shape
    · simp
    · cases p <;> simp_all [arity, scalarMonadic?]

theorem wellCounted_applyDyadic {p : Primitive} (dyadic : p.arity = .dyadic) (x y : Value) :
    WellCounted (p.applyDyadic x y) := by
  unfold applyDyadic
  split
  · exact Pervasion.wellCounted_dyadic (wellCounted_scalarDyadic ‹_›) x y
  · split
    · simp
    · simp
    · simp
    · simp
    · simp
    · exact x.wellCounted_catenate y
    · exact x.wellCounted_reshape y
    · exact x.wellCounted_select y
    · exact x.wellCounted_pick y
    · cases p <;> simp_all [arity, scalarDyadic?]

/-- A primitive that gets as many arguments as it takes never complains about their number. -/
theorem wellCounted_apply {p : Primitive} {args : List Value}
    (counted : args.length = p.arity.count) : WellCounted (p.apply args) := by
  rcases p.monadic_or_dyadic with monadic | dyadic
  · rw [monadic] at counted
    obtain ⟨x, rfl⟩ := List.length_eq_one_iff.mp counted
    simpa [apply, monadic] using wellCounted_applyMonadic monadic x
  · rw [dyadic] at counted
    obtain ⟨x, y, rfl⟩ := List.length_eq_two.mp counted
    simpa [apply, dyadic] using wellCounted_applyDyadic dyadic x y

end Primitive

end Tacit
