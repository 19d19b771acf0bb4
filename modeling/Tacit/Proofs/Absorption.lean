import Mathlib.Logic.Function.Iterate
import Tacit.Proofs.Leaves

/-! Scalar primitives absorb `each`. Such a primitive descends into arrays of its own accord, so calling it one level
inside its arguments, or any number of levels, does what calling it on the arguments does: `each` and the primitive
enter the same pairs of elements in the same order. Only two arrays whose shapes differ are reported in words of
their own. -/
namespace Tacit

/-- Two outcomes that are the same, up to the words in which shapes that do not pair are reported. -/
inductive Reworded {α : Type} : (inEach plain : Result α) → Prop where
  | same (outcome : Result α) : Reworded outcome outcome
  | pairing (left right : Shape) :
    Reworded (.error (.shapeMismatch (.eachPairing left right))) (.error (.shapeMismatch (.pairing left right)))

section Reworded

variable {α β : Type}

theorem Reworded.bind {x y : Result α} {f g : α → Result β} (first : Reworded x y)
    (next : ∀ a, Reworded (f a) (g a)) : Reworded (x >>= f) (y >>= g) := by
  cases first with
  | pairing left right => exact .pairing left right
  | same =>
    cases x with
    | error e => exact .same (.error e)
    | ok a => exact next a

theorem reworded_mapM {f g : α → Result β} {xs : List α} (each : ∀ x ∈ xs, Reworded (f x) (g x)) :
    Reworded (xs.mapM f) (xs.mapM g) := by
  induction xs with
  | nil => exact .same _
  | cons x xs ih =>
    obtain ⟨first, others⟩ := List.forall_mem_cons.mp each
    rw [List.mapM_cons, List.mapM_cons]
    apply first.bind
    intro b
    apply (ih others).bind
    intro bs
    exact .same _

theorem reworded_filled {f g : α → Result Value} {xs : List α} (shape : Shape)
    (each : ∀ x ∈ xs, Reworded (f x) (g x)) :
    Reworded (do return Value.array ⟨shape, ← xs.mapM f⟩) (do return Value.array ⟨shape, ← xs.mapM g⟩) := by
  apply (reworded_mapM each).bind
  intro data
  exact .same _

end Reworded

namespace Iteration

open Pervasion

theorem pairs_eq_zip {xs ys : List Value} (same : xs.length = ys.length) : pairs xs ys = xs.zip ys := by
  induction xs generalizing ys with
  | nil => rfl
  | cons x xs ih =>
    cases ys with
    | nil => cases same
    | cons y ys => rw [pairs, ih (Nat.succ.inj same), List.zip_cons_cons]

section Two

variable {call : Call} {x y : Value}

theorem each_of_leaves (leaves : facing x y = .leaves) : each call [x, y] = call [x, y] := by
  obtain ⟨left, right⟩ := facing_eq_leaves.mp leaves
  cases x <;> cases left <;> cases y <;> cases right <;> rfl

theorem each_of_apart {left right : Shape} (apart : facing x y = .apart left right) :
    each call [x, y] = .error (.shapeMismatch (.eachPairing left right)) := by
  obtain ⟨different, data, others, rfl, rfl⟩ := apart_cases apart
  simp [each, different]

/-- `each` goes one level into the pairs of elements that a scalar operation descends into. -/
theorem each_of_framed {shape : Shape} {faced : List (Value × Value)} (left : x.WellFormed) (right : y.WellFormed)
    (framed : facing x y = .framed shape faced) :
    each call [x, y] = (do return .array ⟨shape, ← faced.mapM fun pair => call [pair.1, pair.2]⟩) := by
  rcases framed_cases framed with ⟨data, others, rfl, rfl, rfl⟩ | ⟨data, rfl, single, rfl⟩ | ⟨data, single, rfl, rfl⟩
  · have same : data.length = others.length :=
      (Value.meets_array.mp left).1.trans (Value.meets_array.mp right).1.symm
    simp [each, pairs_eq_zip same]
  · cases y <;> cases single <;> simp [each, List.mapM_map, Function.comp_def]
  · cases x <;> cases single <;> simp [each, List.mapM_map, Function.comp_def]

end Two

end Iteration

namespace Primitive

/-- The primitives that act on scalars and reach into arrays. -/
def pervasive : List Primitive :=
  [equal, notEqual, greater, greaterEqual, less, lessEqual, add, subtract, multiply, divide, modulo, power, maximum,
    minimum, negate, complement, absolute, floor, round, ceiling]

variable {p : Primitive}

theorem pervasive_cases (scalar : p ∈ pervasive) :
    (p.arity = .monadic ∧ ∃ op, p.scalarMonadic? = some op) ∨
      (p.arity = .dyadic ∧ ∃ op, p.scalarDyadic? = some op) := by
  cases p <;> simp_all [pervasive, arity, scalarMonadic?, scalarDyadic?]

theorem apply_of_scalarMonadic {op : Value → Result Value} (monadic : p.arity = .monadic)
    (scalar : p.scalarMonadic? = some op) (x : Value) : p.apply [x] = Pervasion.monadic op x := by
  simp [apply, applyMonadic, monadic, scalar]

theorem apply_of_scalarDyadic {op : Value → Value → Result Value} (dyadic : p.arity = .dyadic)
    (scalar : p.scalarDyadic? = some op) (x y : Value) : p.apply [x, y] = Pervasion.dyadic op x y := by
  simp [apply, applyDyadic, dyadic, scalar]

theorem apply_of_miscount {args : List Value} (miscounted : args.length ≠ p.arity.count) :
    p.apply args = .error (.argumentCount p.arity.count args.length) := by
  unfold apply
  split
  · rename_i monadic
    simp [monadic, Arity.count] at miscounted
  · rename_i dyadic
    simp [dyadic, Arity.count] at miscounted
  · rfl

end Primitive

theorem Fn.call_of_miscount {f : Fn} {args : List Value} (miscounted : args.length ≠ f.arity.count) :
    f.call args = .error (.argumentCount f.arity.count args.length) := by
  have refused : checkCount f.arity args = .error (.argumentCount f.arity.count args.length) := if_neg miscounted
  rw [call.eq_def, refused]
  rfl

/-- A function that does what a primitive does to all well-formed arguments. -/
structure Fn.ActsAs (f : Fn) (p : Primitive) : Prop where
  arity : f.arity = p.arity
  call : ∀ args, (∀ arg ∈ args, arg.WellFormed) → Reworded (f.call args) (p.apply args)

namespace Fn.ActsAs

variable {f : Fn} {p : Primitive}

theorem primitive (p : Primitive) : (Fn.primitive p).ActsAs p where
  arity := rfl
  call args formed := by
    by_cases counted : args.length = p.arity.count
    · rw [call_primitive counted]
      exact .same _
    · rw [call_of_miscount counted, Primitive.apply_of_miscount counted]
      exact .same _

theorem each_monadic {op : Value → Result Value} (acts : f.ActsAs p) (monadic : p.arity = .monadic)
    (scalar : p.scalarMonadic? = some op) {x : Value} (formed : x.WellFormed) :
    Reworded (Iteration.each f.call [x]) (p.apply [x]) := by
  cases x with
  | array grid =>
    obtain ⟨shape, data⟩ := grid
    rw [Primitive.apply_of_scalarMonadic monadic scalar, Pervasion.monadic, Pervasion.monadicAll_eq_mapM,
      Iteration.each]
    apply reworded_filled
    intro x member
    rw [← Primitive.apply_of_scalarMonadic monadic scalar]
    exact acts.call [x] (List.forall_mem_singleton.mpr ((Value.meets_array.mp formed).2 x member))
  | number | character | function => exact acts.call _ (List.forall_mem_singleton.mpr formed)

theorem each_dyadic {op : Value → Value → Result Value} (acts : f.ActsAs p) (dyadic : p.arity = .dyadic)
    (scalar : p.scalarDyadic? = some op) {x y : Value} (left : x.WellFormed) (right : y.WellFormed) :
    Reworded (Iteration.each f.call [x, y]) (p.apply [x, y]) := by
  cases faced : Pervasion.facing x y with
  | leaves =>
    rw [Iteration.each_of_leaves faced]
    exact acts.call [x, y] (by simpa using ⟨left, right⟩)
  | apart shape other =>
    rw [Iteration.each_of_apart faced, Primitive.apply_of_scalarDyadic dyadic scalar,
      Pervasion.dyadic_of_apart op faced]
    exact .pairing shape other
  | framed shape pairs =>
    rw [Iteration.each_of_framed left right faced, Primitive.apply_of_scalarDyadic dyadic scalar,
      Pervasion.dyadic_of_framed op left right faced]
    apply reworded_filled
    rintro ⟨l, r⟩ member
    rw [← Primitive.apply_of_scalarDyadic dyadic scalar]
    exact acts.call [l, r] (by simpa using Pervasion.wellFormed_of_framed left right faced member)

/-- One more `each` around such a function changes nothing. -/
theorem each (acts : f.ActsAs p) (scalar : p ∈ Primitive.pervasive) : f.each.ActsAs p where
  arity := acts.arity
  call args formed := by
    have arity : f.each.arity = p.arity := acts.arity
    by_cases counted : args.length = p.arity.count
    · rw [call_each (arity ▸ counted)]
      rcases Primitive.pervasive_cases scalar with ⟨monadic, op, isOp⟩ | ⟨dyadic, op, isOp⟩
      · rw [monadic] at counted
        obtain ⟨x, rfl⟩ := List.length_eq_one_iff.mp counted
        exact acts.each_monadic monadic isOp (by simpa using formed)
      · rw [dyadic] at counted
        obtain ⟨x, y, rfl⟩ := List.length_eq_two.mp counted
        obtain ⟨left, right⟩ : x.WellFormed ∧ y.WellFormed := by simpa using formed
        exact acts.each_dyadic dyadic isOp left right
    · rw [call_of_miscount (arity ▸ counted), Primitive.apply_of_miscount counted, arity]
      exact .same _

theorem iterate_each (scalar : p ∈ Primitive.pervasive) (n : Nat) : (Fn.each^[n] (.primitive p)).ActsAs p := by
  induction n with
  | zero => exact .primitive p
  | succ n ih =>
    rw [Function.iterate_succ_apply']
    exact ih.each scalar

end Fn.ActsAs

/-- A scalar primitive inside any number of `each` yields on well-formed arguments what it yields on its own, and fails
where it fails on its own, at the same line and for the same cause; only where the shapes of two arrays differ does
`each` put the mismatch into other words. -/
theorem Fn.call_iterate_each {p : Primitive} (scalar : p ∈ Primitive.pervasive) (n : Nat) {args : List Value}
    (formed : ∀ arg ∈ args, arg.WellFormed) (line : Nat) :
    (∀ v, atLine line ((Fn.each^[n] (.primitive p)).call args) = .ok v ↔ atLine line (p.apply args) = .ok v) ∧
    ∀ e, atLine line ((Fn.each^[n] (.primitive p)).call args) = .error e →
      ∃ e', atLine line (p.apply args) = .error e' ∧ e'.line = e.line ∧
        (e'.cause = e.cause ∨ ∃ left right, e.cause = .shapeMismatch (.eachPairing left right) ∧
          e'.cause = .shapeMismatch (.pairing left right)) := by
  have acts := (ActsAs.iterate_each scalar n).call args formed
  generalize (Fn.each^[n] (.primitive p)).call args = inEach at acts
  generalize p.apply args = plain at acts
  cases acts with
  | same => exact ⟨fun v => Iff.rfl, fun e failed => ⟨e, failed, rfl, .inl rfl⟩⟩
  | pairing left right =>
    constructor
    · intro v
      simp [atLine, Except.mapError]
    · rintro e ⟨⟩
      exact ⟨_, rfl, rfl, .inr ⟨left, right, rfl, rfl⟩⟩

theorem Fn.call_iterate_each_of_nested_texts :
    let x : Value := .array (Grid.vector [.character 'a', .ofText ['b', 'c']])
    let y : Value := .array (Grid.vector [.character 'e', .ofText ['c']])
    let inEach := (Fn.each^[2] (.primitive .maximum)).call [x, y]
    Primitive.maximum ∈ Primitive.pervasive ∧ (∀ arg ∈ [x, y], arg.WellFormed) ∧
      atLine 7 inEach = .error ⟨.shapeMismatch (.eachPairing [2] [1]), 7⟩ ∧
      ∃ e', atLine 7 (Primitive.maximum.apply [x, y]) = .error e' ∧ e'.line = 7 := by
  intro x y inEach
  have formed : ∀ arg ∈ [x, y], arg.WellFormed := by
    simp [x, y, Value.WellFormed, Value.Meets, Value.AllMeet, Demand.wellFormed, Grid.vector, Value.ofText]
  have failed : atLine 7 inEach = .error ⟨.shapeMismatch (.eachPairing [2] [1]), 7⟩ := rfl
  have scalar : Primitive.maximum ∈ Primitive.pervasive := by decide
  obtain ⟨e', plain, line, -⟩ := (Fn.call_iterate_each scalar 2 formed 7).2 _ failed
  exact ⟨scalar, formed, failed, e', plain, line⟩

end Tacit
