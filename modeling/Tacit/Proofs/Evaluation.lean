import Mathlib.Data.List.Induction
import Tacit.Proofs.Calls
import Tacit.Proofs.Steps

/-! Evaluation keeps every demand on what values hold that is closed under the ways in which arrays
are made and functions are built. A step gives a value that it is handed, builds a function, calls
one, or puts an array together; only the last, the shape of an array and the scans are made without
a check of the size. -/
namespace Tacit

namespace Train

theorem center?_eq_some {value : Value} {fn : Fn} (isCenter : center? value = some fn) :
    value = .function fn ∧ fn.arity = .dyadic := by
  unfold center? at isCenter
  split at isCenter
  · split at isCenter <;> cases isCenter
    exact ⟨rfl, ‹_›⟩
  · cases isCenter

/-- How the tines of a train are put together: the last one ends it, and in front of the others
stand functions atop them, or the sides and the centers of forks. -/
inductive Grouped : List Value → Grouping → Prop
  | last (tine : Value) : Grouped [tine] ⟨[], Fn.ofValue tine⟩
  | atop (outer : Fn) {tines : List Value} {grouping : Grouping} (rest : Grouped tines grouping) :
    Grouped (.function outer :: tines) (grouping.cons (.atop outer))
  | fork (left : Value) (center : Fn) {tines : List Value} {grouping : Grouping}
    (dyadic : center.arity = .dyadic) (rest : Grouped tines grouping) :
    Grouped (left :: .function center :: tines) (grouping.cons (.fork (Fn.ofValue left) center))

theorem grouped_of_group {tines : List Value} {grouping : Grouping}
    (made : group tines = .ok grouping) : Grouped tines grouping := by
  -- A fork takes two tines away, so the induction needs the train without the first two as well.
  induction tines using List.twoStepInduction generalizing grouping with
  | nil => cases made
  | singleton tine =>
    cases made
    exact .last tine
  | cons_cons tine next rest afterBoth afterFirst =>
    cases rest with
    | nil =>
      cases tine with
      | function outer =>
        cases made
        exact .atop outer (.last next)
      | number | character | array => cases made
    | cons following rest =>
      unfold group at made
      split at made
      · rename_i center isCenter
        simp only [bind_eq_ok, pure_eq_ok] at made
        obtain ⟨later, grouped, rfl⟩ := made
        obtain ⟨rfl, dyadic⟩ := center?_eq_some isCenter
        exact .fork tine center dyadic (afterBoth grouped)
      · split at made
        · simp only [bind_eq_ok, pure_eq_ok] at made
          obtain ⟨later, grouped, rfl⟩ := made
          exact .atop _ (afterFirst next grouped)
        · cases made

end Train

/-- The functions built of demanded functions are demanded again. -/
structure Demand.Builds (demand : Demand) : Prop where
  primitive : ∀ p, demand.function (.primitive p)
  each : ∀ {f}, demand.function f → demand.function (.each f)
  backwards : ∀ {f}, demand.function f → f.arity = .dyadic → demand.function (.backwards f)
  selfApply : ∀ {f}, demand.function f → f.arity = .dyadic → demand.function (.selfApply f)
  reduce : ∀ {f}, demand.function f → f.arity = .dyadic → demand.function (.reduce f)
  scan : ∀ {f}, demand.function f → f.arity = .dyadic → demand.function (.scan f)
  atop : ∀ {f g}, demand.function f → demand.function g → (Fn.atop f g).arity ≠ .niladic →
    demand.function (.atop f g)
  boundRight : ∀ {f value}, demand.function f → f.arity = .dyadic →
    demand.function (.atop f (.constant value))
  boundLeft : ∀ {f value}, demand.function f → f.arity = .dyadic →
    demand.function (.atop (.backwards f) (.constant value))
  preprocessed : ∀ {f g}, demand.function f → demand.function g →
    ¬ (f.arity = .dyadic ∧ g.arity = .dyadic) → demand.function (.over f g)
  train : ∀ {tines grouping}, (∀ fn, .function fn ∈ tines → demand.function fn) →
    Train.Grouped tines grouping → grouping.toFn.arity ≠ .niladic → demand.function grouping.toFn

variable {demand : Demand} {allowed : Grid Value → Prop}

namespace Fn

/-- The call by which a function without arguments becomes its value. -/
def settling (fn : Fn) : List (Fn × List Value) :=
  if fn.arity = .niladic then [(fn, [])] else []

theorem mem_settling {fn : Fn} {call : Fn × List Value} :
    call ∈ fn.settling ↔ fn.arity = .niladic ∧ call = (fn, []) := by
  by_cases niladic : fn.arity = .niladic <;> simp [settling, niladic]

theorem toValue_eq_ok {fn : Fn} {v : Value} (yields : fn.toValue = .ok v) :
    (fn.arity = .niladic ∧ fn.call [] = .ok v) ∨ (fn.arity ≠ .niladic ∧ v = .function fn) := by
  unfold toValue at yields
  split at yields
  · exact .inl ⟨‹_›, yields⟩
  · cases yields
    exact .inr ⟨‹_›, rfl⟩

theorem toValue_eq_error {fn : Fn} {e : Fault} (failed : fn.toValue = .error e) :
    ∃ call ∈ fn.settling, call.1.call call.2 = .error e := by
  unfold toValue at failed
  split at failed
  · exact ⟨(fn, []), mem_settling.mpr ⟨‹_›, rfl⟩, failed⟩
  · cases failed

theorem toValue_meets (closed : demand.Closed allowed) {fn : Fn} {v : Value}
    (constants : fn.ConstantsMeet demand) (demanded : fn.arity ≠ .niladic → demand.function fn)
    (only : ∀ call ∈ fn.settling, call.1.YieldsOnly allowed call.2) (yields : fn.toValue = .ok v) :
    v.Meets demand := by
  rcases toValue_eq_ok yields with ⟨niladic, yields⟩ | ⟨other, rfl⟩
  · have settles : fn.YieldsOnly allowed [] := only (fn, []) (mem_settling.mpr ⟨niladic, rfl⟩)
    exact call_meets closed constants (by simp) settles yields
  · exact Value.meets_function.mpr ⟨demanded other, constants⟩

theorem callWithLast_meets (closed : demand.Closed allowed) {fn : Fn} {args : List Value} {v : Value}
    (constants : fn.ConstantsMeet demand) (held : ∀ arg ∈ args, arg.Meets demand)
    (only : fn.YieldsOnly allowed (lastOf fn.arity args)) (yields : fn.callWithLast args = .ok v) :
    v.Meets demand := by
  simp only [callWithLast, bind_eq_ok] at yields
  obtain ⟨passed, isLast, yields⟩ := yields
  have same : passed = lastOf fn.arity args := by
    unfold lastArguments at isLast
    split at isLast <;> cases isLast
    rfl
  subst passed
  have trailing : ∀ arg ∈ lastOf fn.arity args, arg.Meets demand :=
    fun arg member => held arg (List.mem_of_mem_drop member)
  exact call_meets closed constants trailing only yields

end Fn

namespace Value

theorem expectFunction_eq_ok {role : String} {value : Value} {fn : Fn} :
    value.expectFunction role = .ok fn ↔ value = .function fn := by
  cases value <;> simp [expectFunction]

end Value

namespace Modifier

theorem expectDyadic_eq_ok {role : String} {operand : Value} {fn : Fn}
    (yields : expectDyadic role operand = .ok fn) :
    operand = .function fn ∧ fn.arity = .dyadic := by
  simp only [expectDyadic, bind_eq_ok, Value.expectFunction_eq_ok] at yields
  obtain ⟨found, rfl, yields⟩ := yields
  split at yields
  · simp [map_eq_ok] at yields
  · rename_i dyadic
    simp only [ne_eq, not_not] at dyadic
    cases yields
    exact ⟨rfl, dyadic⟩

theorem applyMonadic_meets (builds : demand.Builds) {modifier : Modifier} {operand v : Value}
    (held : operand.Meets demand) (yields : modifier.applyMonadic operand = .ok v) :
    v.Meets demand := by
  have built {f g : Fn} (same : operand = .function f)
      (demanded : demand.function f → demand.function g)
      (constants : g.ConstantsMeet demand ↔ f.ConstantsMeet demand) :
      (Value.function g).Meets demand := by
    subst operand
    obtain ⟨function, inside⟩ := Value.meets_function.mp held
    exact Value.meets_function.mpr ⟨demanded function, constants.mpr inside⟩
  cases modifier with
  | each =>
    simp only [applyMonadic, bind_eq_ok, Value.expectFunction_eq_ok, pure_eq_ok] at yields
    obtain ⟨f, same, rfl⟩ := yields
    exact built same builds.each Iff.rfl
  | backwards =>
    simp only [applyMonadic, swapped, bind_eq_ok, Value.expectFunction_eq_ok, pure_eq_ok] at yields
    obtain ⟨f, same, rfl⟩ := yields
    split
    · exact built same (builds.backwards · ‹_›) Iff.rfl
    · exact held
  | selfApply | reduce | scan =>
    simp only [applyMonadic, bind_eq_ok, pure_eq_ok] at yields
    obtain ⟨f, isDyadic, rfl⟩ := yields
    obtain ⟨same, dyadic⟩ := expectDyadic_eq_ok isDyadic
    first
      | exact built same (builds.selfApply · dyadic) Iff.rfl
      | exact built same (builds.reduce · dyadic) Iff.rfl
      | exact built same (builds.scan · dyadic) Iff.rfl
  | atop | «over» => simp [applyMonadic] at yields

def composing : (left right : Value) → List (Fn × List Value)
  | .function f, .function g => (Fn.atop f g).settling
  | .function f, value => if f.arity = .dyadic then [] else [(f, Fn.lastOf f.arity [value])]
  | value, .function g => if g.arity = .dyadic then [] else [(g, Fn.lastOf g.arity [value])]
  | _, _ => []

/-- Two values do not compose; any other failure is that of a call. -/
theorem composed_eq_error {left right : Value} {e : Fault} (failed : composed left right = .error e) :
    e = .expectedFunction .composedValues ∨
      ∃ call ∈ composing left right, call.1.call call.2 = .error e := by
  have single {fn : Fn} (other : fn.arity ≠ .dyadic) {value : Value}
      (failed : fn.callWithLast [value] = .error e) :
      fn.call (Fn.lastOf fn.arity [value]) = .error e := by
    have enough : fn.arity.count ≤ [value].length := by
      cases isArity : fn.arity <;> simp_all [Arity.count]
    rwa [Fn.callWithLast, Fn.lastArguments_eq_ok enough] at failed
  unfold composed at failed
  split at failed
  · exact .inr (Fn.toValue_eq_error failed)
  · rename_i f _
    split at failed
    · cases failed
    · rename_i other
      exact .inr ⟨(f, Fn.lastOf f.arity [right]), by simp [composing, other], single other failed⟩
  · rename_i g _
    split at failed
    · cases failed
    · rename_i other
      exact .inr ⟨(g, Fn.lastOf g.arity [left]), by simp [composing, other], single other failed⟩
  · cases failed
    exact .inl rfl

theorem composed_meets (closed : demand.Closed allowed) (builds : demand.Builds)
    {left right v : Value} (leftHeld : left.Meets demand) (rightHeld : right.Meets demand)
    (only : ∀ call ∈ composing left right, call.1.YieldsOnly allowed call.2)
    (yields : composed left right = .ok v) : v.Meets demand := by
  unfold composed at yields
  split at yields
  · rename_i f g
    obtain ⟨leftFunction, leftConstants⟩ := Value.meets_function.mp leftHeld
    obtain ⟨rightFunction, rightConstants⟩ := Value.meets_function.mp rightHeld
    have constants : (Fn.atop f g).ConstantsMeet demand := ⟨leftConstants, rightConstants⟩
    exact Fn.toValue_meets closed constants (builds.atop leftFunction rightFunction) only yields
  · rename_i f other
    obtain ⟨function, constants⟩ := Value.meets_function.mp leftHeld
    split at yields
    · cases yields
      have bound : (Fn.atop f (.constant right)).ConstantsMeet demand := ⟨constants, rightHeld⟩
      exact Value.meets_function.mpr ⟨builds.boundRight function ‹_›, bound⟩
    · rename_i other
      refine Fn.callWithLast_meets closed constants (by simpa using rightHeld) ?_ yields
      exact only (f, Fn.lastOf f.arity [right]) (by simp [composing, other])
  · rename_i g other
    obtain ⟨function, constants⟩ := Value.meets_function.mp rightHeld
    split at yields
    · cases yields
      have bound : (Fn.atop (.backwards g) (.constant left)).ConstantsMeet demand :=
        ⟨constants, leftHeld⟩
      exact Value.meets_function.mpr ⟨builds.boundLeft function ‹_›, bound⟩
    · rename_i other
      refine Fn.callWithLast_meets closed constants (by simpa using leftHeld) ?_ yields
      exact only (g, Fn.lastOf g.arity [left]) (by simp [composing, other])
  · cases yields

theorem preprocessed_eq_ok {left right v : Value} (yields : preprocessed left right = .ok v) :
    ∃ f g, left = .function f ∧ right = .function g ∧ v = .function (.over f g) ∧
      ¬ (f.arity = .dyadic ∧ g.arity = .dyadic) := by
  simp only [preprocessed, bind_eq_ok, Value.expectFunction_eq_ok] at yields
  obtain ⟨f, rfl, g, rfl, yields⟩ := yields
  by_cases both : f.arity = .dyadic ∧ g.arity = .dyadic
  · simp [both, map_eq_ok] at yields
  · by_cases either : f.arity = .niladic ∨ g.arity = .niladic
    · simp [both, either, map_eq_ok] at yields
    · simp only [both, either, if_false, pure_eq_ok] at yields
      exact ⟨f, g, rfl, rfl, yields.symm, both⟩

theorem preprocessed_meets (builds : demand.Builds) {left right v : Value}
    (leftHeld : left.Meets demand) (rightHeld : right.Meets demand)
    (yields : preprocessed left right = .ok v) : v.Meets demand := by
  obtain ⟨f, g, rfl, rfl, rfl, both⟩ := preprocessed_eq_ok yields
  obtain ⟨leftFunction, leftConstants⟩ := Value.meets_function.mp leftHeld
  obtain ⟨rightFunction, rightConstants⟩ := Value.meets_function.mp rightHeld
  have constants : (Fn.over f g).ConstantsMeet demand := ⟨leftConstants, rightConstants⟩
  exact Value.meets_function.mpr ⟨builds.preprocessed leftFunction rightFunction both, constants⟩

theorem composing_meet {left right : Value} (leftHeld : left.Meets demand)
    (rightHeld : right.Meets demand) :
    ∀ call ∈ composing left right, call.1.ConstantsMeet demand ∧ ∀ arg ∈ call.2, arg.Meets demand := by
  intro call made
  unfold composing at made
  split at made
  · rename_i f g
    obtain ⟨-, rfl⟩ := Fn.mem_settling.mp made
    have leftConstants := (Value.meets_function.mp leftHeld).2
    have rightConstants := (Value.meets_function.mp rightHeld).2
    exact ⟨⟨leftConstants, rightConstants⟩, by simp⟩
  · split at made
    · simp at made
    · rw [List.mem_singleton.mp made]
      refine ⟨(Value.meets_function.mp leftHeld).2, fun arg member => ?_⟩
      rw [List.mem_singleton.mp (List.mem_of_mem_drop member)]
      exact rightHeld
  · split at made
    · simp at made
    · rw [List.mem_singleton.mp made]
      refine ⟨(Value.meets_function.mp rightHeld).2, fun arg member => ?_⟩
      rw [List.mem_singleton.mp (List.mem_of_mem_drop member)]
      exact leftHeld
  · simp at made

def calls : Modifier → (left right : Value) → List (Fn × List Value)
  | atop, left, right => composing left right
  | _, _, _ => []

theorem applyDyadic_meets (closed : demand.Closed allowed) (builds : demand.Builds)
    {modifier : Modifier} {left right v : Value} (leftHeld : left.Meets demand)
    (rightHeld : right.Meets demand)
    (only : ∀ call ∈ modifier.calls left right, call.1.YieldsOnly allowed call.2)
    (yields : modifier.applyDyadic left right = .ok v) : v.Meets demand := by
  cases modifier with
  | atop => exact composed_meets closed builds leftHeld rightHeld only yields
  | «over» => exact preprocessed_meets builds leftHeld rightHeld yields
  | each | backwards | selfApply | reduce | scan => cases yields

end Modifier

namespace Train

/-- What a train is made of comes from its tines. -/
theorem Grouped.constantsMeet {tines : List Value} {grouping : Grouping}
    (grouped : Grouped tines grouping) (held : ∀ tine ∈ tines, tine.Meets demand) :
    grouping.toFn.ConstantsMeet demand := by
  induction grouped with
  | last tine => exact Fn.constantsMeet_ofValue (held tine (by simp))
  | atop outer _ ih =>
    obtain ⟨-, constants⟩ := Value.meets_function.mp (held (.function outer) (by simp))
    exact ⟨constants, ih fun tine member => held tine (by simp [member])⟩
  | fork left center dyadic _ ih =>
    obtain ⟨-, constants⟩ := Value.meets_function.mp (held (.function center) (by simp))
    have rest := ih fun tine member => held tine (by simp [member])
    exact ⟨Fn.constantsMeet_ofValue (held left (by simp)), constants, rest⟩

def settling (tines : List Value) : List (Fn × List Value) :=
  (yielded (group tines)).flatMap fun grouping => grouping.toFn.settling

theorem grouped_of_mem_settling {tines : List Value} {call : Fn × List Value}
    (made : call ∈ settling tines) :
    ∃ grouping, Grouped tines grouping ∧ grouping.toFn.arity = .niladic ∧
      call = (grouping.toFn, []) := by
  simp only [settling, List.mem_flatMap, mem_yielded] at made
  obtain ⟨grouping, grouped, made⟩ := made
  exact ⟨grouping, grouped_of_group grouped, Fn.mem_settling.mp made⟩

/-- A train fails where it cannot be grouped, or with what it is called to. -/
theorem resolve_eq_error {tines : List Value} {e : Fault} (failed : resolve tines = .error e) :
    group tines = .error e ∨ ∃ call ∈ settling tines, call.1.call call.2 = .error e := by
  rcases bind_eq_error.mp failed with ungrouped | ⟨grouping, grouped, failed⟩
  · exact .inl ungrouped
  · obtain ⟨call, made, failed⟩ := Fn.toValue_eq_error failed
    refine .inr ⟨call, ?_, failed⟩
    simpa [settling, grouped, yielded] using made

theorem resolve_meets (closed : demand.Closed allowed) (builds : demand.Builds) {tines : List Value}
    {v : Value} (held : ∀ tine ∈ tines, tine.Meets demand)
    (only : ∀ call ∈ settling tines, call.1.YieldsOnly allowed call.2)
    (yields : resolve tines = .ok v) : v.Meets demand := by
  simp only [resolve, bind_eq_ok] at yields
  obtain ⟨grouping, made, yields⟩ := yields
  have grouped := grouped_of_group made
  have demanded : ∀ fn, .function fn ∈ tines → demand.function fn :=
    fun fn member => (Value.meets_function.mp (held _ member)).1
  refine Fn.toValue_meets closed (grouped.constantsMeet held) (builds.train demanded grouped)
    (fun call isCall => only call ?_) yields
  simpa [settling, made, yielded] using isCall

end Train

namespace Step

/-- The calls that a step makes, of functions that wait for no more arguments. -/
def calls (step : Step) : List (Fn × List Value) :=
  match step.node, step.operands with
  | .combined modifier _ _ _, [left, right] => modifier.calls left right
  | .train _ _, tines => Train.settling tines
  | _, _ => []

end Step

def Node.Assembles : Node → Prop
  | string .. | strand .. | array .. | list .. => True
  | _ => False

namespace Step

/-- Every array that is made in a step without a check of its size is allowed. -/
structure MakesOnly (allowed : Grid Value → Prop) (step : Step) : Prop where
  assembled : step.node.Assembles → ∀ grid, step.outcome.1 = .ok (.array grid) → allowed grid
  called : ∀ call ∈ step.calls, call.1.YieldsOnly allowed call.2

theorem makesOnly_anything (step : Step) : step.MakesOnly fun _ => True :=
  ⟨fun _ _ _ => trivial, fun call _ => call.1.yieldsOnly_anything call.2⟩

/-- A step gives a value that meets the demand if it is handed such values only. -/
theorem keeps_demand (closed : demand.Closed allowed) (builds : demand.Builds) {step : Step}
    (only : step.MakesOnly allowed) :
    step.Keeps (Env.Meets demand) (Value.Meets demand) fun _ => True := by
  rintro ⟨envMeets, operandsMeet⟩
  obtain ⟨node, operands, env⟩ := step
  obtain ⟨assembled, called⟩ := only
  have lifted {line : Nat} {result : Result Value} (meets : ∀ v, result = .ok v → v.Meets demand) :
      Eval.Ends (Env.Meets demand) (Value.Meets demand) (fun _ => True)
        ((Eval.liftAt line result).outcome env) :=
    Eval.ends_liftAt meets (fun _ _ => trivial) envMeets
  simp only [Step.outcome] at *
  revert assembled
  fun_cases Node.act node operands <;> intro assembled
  case case1 value line => exact .ok (Value.meets_number value) envMeets
  case case2 text line =>
    refine .ok (Value.meets_array.mpr ⟨?_, ?_⟩) envMeets
    · exact closed.vector (assembled trivial _ rfl)
    · simp [Grid.vector]
  case case3 value line => exact .ok (Value.meets_character value) envMeets
  case case4 name line =>
    rw [Eval.outcome_lookup]
    cases found : env.get? name with
    | none => exact .failed trivial envMeets
    | some value => exact .ok (envMeets name value found) envMeets
  case case5 primitive arity line =>
    exact .ok (Value.meets_function.mpr ⟨builds.primitive primitive, trivial⟩) envMeets
  case case6 modifier operand line value =>
    exact lifted fun v => Modifier.applyMonadic_meets builds (operandsMeet value (by simp))
  case case7 modifier leftNode rightNode line left right =>
    have leftMeets := operandsMeet left (by simp)
    have rightMeets := operandsMeet right (by simp)
    exact lifted fun v => Modifier.applyDyadic_meets closed builds leftMeets rightMeets called
  case case8 name arity valueNode line value =>
    have meets := operandsMeet value (by simp)
    rcases Eval.outcome_bindName name arity value line env with made | ⟨_, _, _, refused⟩
    · rw [made]
      exact .ok meets (envMeets.insert name meets)
    · rw [refused]
      exact .failed trivial envMeets
  case case9 tines line =>
    exact lifted fun v => Train.resolve_meets closed builds operandsMeet called
  case case10 | case11 =>
    refine .ok (Value.meets_array.mpr ⟨?_, operandsMeet⟩) envMeets
    exact closed.vector (assembled trivial _ rfl)
  case case12 elements line =>
    refine lifted fun v yields => ?_
    obtain ⟨grid, stacked, rfl⟩ := map_eq_ok.mp yields
    exact Value.stack_meets closed operandsMeet stacked (assembled trivial grid (by rw [yields]; rfl))
  case case13 => exact .failed trivial envMeets

theorem calls_meet {step : Step} (operandsMeet : ∀ x ∈ step.operands, x.Meets demand) :
    ∀ call ∈ step.calls, call.1.ConstantsMeet demand ∧ ∀ arg ∈ call.2, arg.Meets demand := by
  obtain ⟨node, operands, env⟩ := step
  intro call made
  unfold calls at made
  split at made
  · rename_i modifier _ _ _ left right _ isPair
    simp only at isPair
    subst operands
    cases modifier with
    | atop =>
      exact Modifier.composing_meet (operandsMeet left (by simp)) (operandsMeet right (by simp)) call
        made
    | each | backwards | selfApply | reduce | scan | «over» => simp [Modifier.calls] at made
  · obtain ⟨grouping, grouped, -, rfl⟩ := Train.grouped_of_mem_settling made
    exact ⟨grouped.constantsMeet operandsMeet, by simp⟩
  · simp at made

end Step

end Tacit
