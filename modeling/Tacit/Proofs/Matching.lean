import Tacit.Proofs.Integers

/-! When values match. Numbers are told apart by where they stand on the line of doubles, so that the two zeros match
and a NaN matches a NaN. The constants of a function are compared numerically instead, and there a NaN differs from
itself. Apart from this, values match when they have the same representative. -/
namespace Tacit

namespace Number

/-- The number that stands for all at one position: a zero without sign, and one NaN. -/
def representative (x : Float) : Float :=
  match position x with
  | none => Float.ofBits 0x7ff8000000000000
  | some place => ofMagnitude (place < 0) place.natAbs

theorem position_eq_none_iff {x : Float} : position x = none ↔ isNaN x = true := by
  unfold position
  split <;> simp_all

theorem position_representative (x : Float) : position (representative x) = position x := by
  cases place : position x with
  | none =>
    rw [representative, place]
    decide +kernel
  | some p =>
    have proper : isNaN x = false := by
      rw [← Bool.not_eq_true, ← position_eq_none_iff, place]
      simp
    have bound : magnitude x ≤ infinite := by simpa [isNaN] using proper
    have isPlace : (if isNegative x then -(magnitude x : Int) else magnitude x) = p := by
      simpa [position, proper] using place
    have absolute : p.natAbs = magnitude x := by
      rw [← isPlace]
      split <;> simp
    rw [representative, place]
    simp only [absolute, position, isNaN, magnitude_ofMagnitude _ bound, isNegative_ofMagnitude _ bound,
      decide_eq_true_eq, Nat.not_lt.mpr bound, if_false, Option.some.injEq]
    split <;> omega

theorem representative_eq_iff {x y : Float} : representative x = representative y ↔ position x = position y := by
  constructor
  · intro same
    rw [← position_representative x, same, position_representative]
  · intro same
    rw [representative, same, representative]

theorem order_eq_iff {x y : Float} : order x y = .eq ↔ representative x = representative y := by
  rw [representative_eq_iff, order]
  cases position x <;> cases position y <;> simp

theorem equal_iff {x y : Float} :
    equal x y = true ↔ representative x = representative y ∧ isNaN x = false ∧ isNaN y = false := by
  simp only [representative_eq_iff, ← Bool.not_eq_true, ← position_eq_none_iff, equal]
  cases position x <;> cases position y <;> simp

end Number

mutual

/-- The value with the representatives of all numbers in it, also of those in constants. -/
def Value.representative : Value → Value
  | .number x => .number (Number.representative x)
  | .character c => .character c
  | .array ⟨shape, data⟩ => .array ⟨shape, Value.representatives data⟩
  | .function fn => .function fn.representative

def Value.representatives : List Value → List Value
  | [] => []
  | value :: values => value.representative :: Value.representatives values

def Fn.representative : Fn → Fn
  | .primitive p => .primitive p
  | .constant value => .constant value.representative
  | .each fn => .each fn.representative
  | .backwards fn => .backwards fn.representative
  | .selfApply fn => .selfApply fn.representative
  | .reduce fn => .reduce fn.representative
  | .scan fn => .scan fn.representative
  | .atop outer inner => .atop outer.representative inner.representative
  | .over outer inner => .over outer.representative inner.representative
  | .fork left center right => .fork left.representative center.representative right.representative

end

mutual

/-- No number in the value is a NaN, at any depth of arrays and in the constants of functions. -/
def Value.FreeOfNaN : Value → Prop
  | .number x => Number.isNaN x = false
  | .character _ => True
  | .array ⟨_, data⟩ => Value.AllFreeOfNaN data
  | .function fn => fn.FreeOfNaN

def Value.AllFreeOfNaN : List Value → Prop
  | [] => True
  | value :: values => value.FreeOfNaN ∧ Value.AllFreeOfNaN values

def Fn.FreeOfNaN : Fn → Prop
  | .primitive _ => True
  | .constant value => value.FreeOfNaN
  | .each fn | .backwards fn | .selfApply fn | .reduce fn | .scan fn => fn.FreeOfNaN
  | .atop outer inner | .over outer inner => outer.FreeOfNaN ∧ inner.FreeOfNaN
  | .fork left center right => left.FreeOfNaN ∧ center.FreeOfNaN ∧ right.FreeOfNaN

end

mutual

/-- No function in the value, at any depth of arrays, has a NaN in its constants. Elsewhere NaNs may occur. -/
def Value.CapturesNoNaN : Value → Prop
  | .number _ => True
  | .character _ => True
  | .array ⟨_, data⟩ => Value.AllCaptureNoNaN data
  | .function fn => fn.FreeOfNaN

def Value.AllCaptureNoNaN : List Value → Prop
  | [] => True
  | value :: values => value.CapturesNoNaN ∧ Value.AllCaptureNoNaN values

end

mutual

theorem Value.equal_iff (x y : Value) :
    x.equal y = true ↔ x.representative = y.representative ∧ x.FreeOfNaN ∧ y.FreeOfNaN := by
  match x with
  | .number _ =>
    cases y <;> simp [Value.equal, Value.representative, Value.FreeOfNaN, Number.equal_iff]
  | .character _ => cases y <;> simp [Value.equal, Value.representative, Value.FreeOfNaN]
  | .array ⟨_, data⟩ =>
    cases y <;> simp [Value.equal, Value.representative, Value.FreeOfNaN, Value.equalAll_iff data, and_assoc]
  | .function fn => cases y <;> simp [Value.equal, Value.representative, Value.FreeOfNaN, fn.equal_iff]

theorem Value.equalAll_iff (xs ys : List Value) :
    Value.equalAll xs ys = true ↔
      Value.representatives xs = Value.representatives ys ∧ Value.AllFreeOfNaN xs ∧ Value.AllFreeOfNaN ys := by
  match xs, ys with
  | [], [] => simp [Value.equalAll, Value.AllFreeOfNaN]
  | [], _ :: _ | _ :: _, [] => simp [Value.equalAll, Value.representatives]
  | x :: xs, y :: ys =>
    simp only [Value.equalAll, Value.representatives, Value.AllFreeOfNaN, Bool.and_eq_true, x.equal_iff y,
      Value.equalAll_iff xs ys, List.cons.injEq]
    tauto

theorem Fn.equal_iff (f g : Fn) :
    f.equal g = true ↔ f.representative = g.representative ∧ f.FreeOfNaN ∧ g.FreeOfNaN := by
  match f with
  | .primitive _ => cases g <;> simp [Fn.equal, Fn.representative, Fn.FreeOfNaN]
  | .constant x => cases g <;> simp [Fn.equal, Fn.representative, Fn.FreeOfNaN, x.equal_iff]
  | .each f | .backwards f | .selfApply f | .reduce f | .scan f =>
    cases g <;> simp [Fn.equal, Fn.representative, Fn.FreeOfNaN, f.equal_iff]
  | .atop f h | .over f h =>
    cases g <;> simp [Fn.equal, Fn.representative, Fn.FreeOfNaN, f.equal_iff, h.equal_iff, and_assoc, and_left_comm]
  | .fork f h k =>
    cases g <;> simp [Fn.equal, Fn.representative, Fn.FreeOfNaN, f.equal_iff, h.equal_iff, k.equal_iff, and_assoc,
      and_left_comm]

end

namespace Value

theorem samePairs_iff {xs ys : List Value} (sameLength : xs.length = ys.length)
    (elements : ∀ x ∈ xs, ∀ y ∈ ys, x.same y = true ↔
      x.representative = y.representative ∧ x.CapturesNoNaN ∧ y.CapturesNoNaN) :
    samePairs xs ys = true ↔
      representatives xs = representatives ys ∧ AllCaptureNoNaN xs ∧ AllCaptureNoNaN ys := by
  induction xs generalizing ys with
  | nil =>
    obtain rfl : ys = [] := List.length_eq_zero_iff.mp sameLength.symm
    simp [samePairs, AllCaptureNoNaN]
  | cons x xs ih =>
    obtain ⟨y, ys, rfl⟩ := List.exists_cons_of_length_eq_add_one sameLength.symm
    have first := elements x List.mem_cons_self y List.mem_cons_self
    have others := ih (Nat.succ.inj sameLength) fun x isX y isY =>
      elements x (List.mem_cons_of_mem _ isX) y (List.mem_cons_of_mem _ isY)
    simp only [samePairs, representatives, AllCaptureNoNaN, Bool.and_eq_true, first, others, List.cons.injEq]
    tauto

/-- Well-formed values match when they have one representative and neither holds a function with a NaN in its
constants. -/
theorem same_iff {x y : Value} (ofX : x.WellFormed) (ofY : y.WellFormed) :
    x.same y = true ↔ x.representative = y.representative ∧ x.CapturesNoNaN ∧ y.CapturesNoNaN := by
  induction x using induct_elements generalizing y with
  | number x => cases y <;> simp [same, representative, CapturesNoNaN, Number.order_eq_iff]
  | character c => cases y <;> simp [same, representative, CapturesNoNaN]
  | function fn => cases y <;> simp [same, representative, CapturesNoNaN, fn.equal_iff]
  | array grid ih =>
    cases y with
    | number | character | function => simp [same, representative]
    | array other =>
      obtain ⟨count, elements⟩ := meets_array.mp ofX
      obtain ⟨otherCount, otherElements⟩ := meets_array.mp ofY
      simp only [same, representative, CapturesNoNaN, Bool.and_eq_true, decide_eq_true_eq, array.injEq,
        Grid.mk.injEq, and_assoc]
      -- Elements are compared as far as both lists go, which is to their ends, since the shapes are the same.
      refine and_congr_right fun sameShape => samePairs_iff ?_ ?_
      · rw [count, otherCount, sameShape]
      · exact fun x isX y isY => ih x isX (elements x isX) (otherElements y isY)

/-- Matching well-formed values is symmetric and transitive, and a value matches itself exactly when no function in it
has a NaN in its constants. -/
theorem same_partialEquivalence {x y z : Value} (ofX : x.WellFormed) (ofY : y.WellFormed) (ofZ : z.WellFormed) :
    (x.same x = true ↔ x.CapturesNoNaN) ∧ x.same y = y.same x ∧
      (x.same y = true → y.same z = true → x.same z = true) := by
  refine ⟨?_, ?_, ?_⟩
  · simp [same_iff ofX ofX]
  · rw [Bool.eq_iff_iff, same_iff ofX ofY, same_iff ofY ofX]
    constructor <;> exact fun ⟨alike, left, right⟩ => ⟨alike.symm, right, left⟩
  · rw [same_iff ofX ofY, same_iff ofY ofZ, same_iff ofX ofZ]
    rintro ⟨alike, left, -⟩ ⟨alike', -, right⟩
    exact ⟨alike.trans alike', left, right⟩

theorem same_partialEquivalence_of_zeros :
    let zeros (x y : Float) := array (Grid.vector
      [number x, number (0 / 0), function (.atop (.primitive .subtract) (.constant (number y)))])
    (zeros 0 0).same (zeros 0 0) = true ∧ (zeros 0 0).same (zeros (-0) 0) = (zeros (-0) 0).same (zeros 0 0) ∧
      (zeros 0 0).same (zeros (-0) (-0)) = true := by
  intro zeros
  have wellFormed (x y : Float) : (zeros x y).WellFormed := by
    refine meets_array.mpr ⟨rfl, ?_⟩
    simp [Grid.vector, meets_function, Fn.ConstantsMeet, Demand.wellFormed]
  have capturesNoNaN : (zeros 0 0).CapturesNoNaN := by
    have proper : Number.isNaN 0 = false := by decide +kernel
    simp [zeros, Grid.vector, CapturesNoNaN, AllCaptureNoNaN, Fn.FreeOfNaN, FreeOfNaN, proper]
  obtain ⟨reflexive, symmetric, transitive⟩ :=
    same_partialEquivalence (wellFormed 0 0) (wellFormed (-0) 0) (wellFormed (-0) (-0))
  exact ⟨reflexive.mpr capturesNoNaN, symmetric, transitive (by decide +kernel) (by decide +kernel)⟩

/-- A list of a function that binds a NaN does not match itself. -/
theorem not_same_self_of_bound_nan :
    ¬ ∀ sources : List String, ∀ v, .ok (some v) ∈ (session sources Env.empty).1 → v.same v = true := by
  intro reflexive
  have ran : (session ["⟨(0÷0)∘+⟩"] Env.empty).1.map (fun ending =>
      ending.toOption.join.map fun v => v.same v) = [some false] := by
    decide +kernel
  obtain ⟨ending, isEnding, differs⟩ := List.map_eq_singleton_iff.mp ran
  obtain ⟨v, isValue, isFalse⟩ := Option.map_eq_some_iff.mp differs
  have yields : ending = .ok (some v) := by
    rcases ending with _ | _ | _ <;> simp_all [Except.toOption]
  have same := reflexive ["⟨(0÷0)∘+⟩"] v (by simp [isEnding, yields])
  rw [isFalse] at same
  cases same

end Value

end Tacit
