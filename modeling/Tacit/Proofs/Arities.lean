import Tacit.Proofs.Evaluation
import Tacit.Proofs.Faults
import Tacit.Proofs.Legibility

/-! The arities of functions. A function is coherent when its parts have the arities that it calls
them with: called with as many arguments as it takes, it then hands each of its parts as many as that
one takes, at any depth. The functions that evaluation builds are coherent and take arguments, so
no session ends in a complaint about the number of arguments. -/
namespace Tacit

namespace Fn

/-- The parts of a function have the arities that they are called with. -/
def Coherent : Fn → Prop
  | primitive _ | constant _ => True
  | each f | backwards f => f.Coherent
  | selfApply f | reduce f | scan f => f.arity = .dyadic ∧ f.Coherent
  | atop outer inner => outer.arity ≠ .niladic ∧ outer.Coherent ∧ inner.Coherent
  | .over outer inner =>
    outer.arity ≠ .niladic ∧ (outer.arity = .dyadic → inner.arity = .monadic) ∧
      outer.Coherent ∧ inner.Coherent
  | fork left center right =>
    center.arity = .dyadic ∧ left.Coherent ∧ center.Coherent ∧ right.Coherent

end Fn

namespace Iteration

theorem length_of_mem_eachArguments {args sub : List Value} (member : sub ∈ eachArguments args) :
    sub.length = args.length := by
  unfold eachArguments at member
  split at member
  · obtain ⟨x, -, rfl⟩ := List.mem_map.mp member
    rfl
  · split at member
    · obtain ⟨⟨x, y⟩, -, rfl⟩ := List.mem_map.mp member
      rfl
    · simp at member
  · obtain ⟨x, -, rfl⟩ := List.mem_map.mp member
    rfl
  · obtain ⟨y, -, rfl⟩ := List.mem_map.mp member
    rfl
  · rw [List.mem_singleton.mp member]

theorem length_of_mem_foldArguments {call : Call} {xs args : List Value}
    (member : args ∈ foldArguments call xs) : args.length = 2 := by
  induction xs with
  | nil => simp [foldArguments] at member
  | cons x xs ih =>
    cases xs with
    | nil => simp [foldArguments] at member
    | cons y ys =>
      simp only [foldArguments, List.mem_append, List.mem_map] at member
      rcases member with inner | ⟨folded, -, rfl⟩
      · exact ih inner
      · rfl

theorem length_of_mem_reduceArguments {call : Call} {x : Value} {args : List Value}
    (member : args ∈ reduceArguments call x) : args.length = 2 := by
  cases x with
  | array grid => exact length_of_mem_foldArguments member
  | number | character | function => simp [reduceArguments] at member

theorem length_of_mem_scanArguments {call : Call} {x : Value} {args : List Value}
    (member : args ∈ scanArguments call x) : args.length = 2 := by
  cases x with
  | array grid =>
    obtain ⟨cells, -, made⟩ := List.mem_flatMap.mp member
    exact length_of_mem_foldArguments made
  | number | character | function => simp [scanArguments] at member

end Iteration

namespace Arity

theorem eq_monadic {arity : Arity} (takes : arity ≠ .niladic) (other : arity ≠ .dyadic) :
    arity = .monadic := by
  cases arity <;> simp_all

end Arity

namespace Fn

/-- A coherent function hands each of its parts as many arguments as that one takes. -/
theorem partCalls_counted {fn : Fn} {args : List Value} (coherent : fn.Coherent)
    (counted : args.length = fn.arity.count) :
    ∀ part passed, (part, passed) ∈ fn.partCalls args →
      part.Coherent ∧ passed.length = part.arity.count := by
  intro part passed made
  cases fn with
  | primitive | constant => simp [partCalls] at made
  | each f =>
    obtain ⟨rfl, made⟩ := mem_partCalls_each.mp made
    have sameLength := Iteration.length_of_mem_eachArguments (mem_of_mem_untilFailure made)
    exact ⟨coherent, sameLength.trans counted⟩
  | backwards f =>
    simp only [partCalls, List.mem_singleton, Prod.mk.injEq] at made
    obtain ⟨rfl, rfl⟩ := made
    exact ⟨coherent, List.length_reverse.trans counted⟩
  | selfApply f =>
    obtain ⟨dyadic, inner⟩ := coherent
    simp only [partCalls, List.mem_singleton, Prod.mk.injEq] at made
    obtain ⟨rfl, rfl⟩ := made
    have single : args.length = 1 := counted
    exact ⟨inner, by simp [dyadic, single, Arity.count]⟩
  | reduce f =>
    obtain ⟨dyadic, inner⟩ := coherent
    obtain ⟨rfl, x, -, made⟩ := mem_partCalls_reduce.mp made
    exact ⟨inner, by rw [dyadic, Iteration.length_of_mem_reduceArguments made]; rfl⟩
  | scan f =>
    obtain ⟨dyadic, inner⟩ := coherent
    obtain ⟨rfl, x, -, made⟩ := mem_partCalls_scan.mp made
    exact ⟨inner, by rw [dyadic, Iteration.length_of_mem_scanArguments made]; rfl⟩
  | atop outer inner =>
    obtain ⟨takes, outerCoherent, innerCoherent⟩ := coherent
    rcases mem_partCalls_atop.mp made with ⟨rfl, rfl⟩ | ⟨result, first, rfl, rfl⟩
    · exact ⟨innerCoherent, length_lastOf (counted ▸ count_inner_le_atop outer part)⟩
    · refine ⟨outerCoherent, ?_⟩
      split
      · rename_i dyadic
        have nonempty := counted ▸ one_le_count_atop inner dyadic
        simp [dyadic, Arity.count]
        omega
      · rename_i other
        simp [Arity.eq_monadic takes other, Arity.count]
  | «over» outer inner =>
    obtain ⟨takes, fits, outerCoherent, innerCoherent⟩ := coherent
    by_cases dyadic : outer.arity = .dyadic
    · rcases (mem_partCalls_over_of_dyadic dyadic).mp made with ⟨rfl, made⟩ | ⟨rfl, ran⟩
      · obtain ⟨arg, -, rfl⟩ := List.mem_map.mp (mem_of_mem_untilFailure made)
        exact ⟨innerCoherent, by rw [fits dyadic]; rfl⟩
      · have sameLength := (mapM_eq_ok.mp ran).length_eq
        rw [List.length_map, counted, arity, if_pos dyadic] at sameLength
        exact ⟨outerCoherent, by rw [dyadic, sameLength]⟩
    · rcases (mem_partCalls_over_of_not_dyadic dyadic).mp made with
        ⟨rfl, rfl⟩ | ⟨result, first, rfl, rfl⟩
      · exact ⟨innerCoherent, by simpa [arity, dyadic] using counted⟩
      · exact ⟨outerCoherent, by rw [Arity.eq_monadic takes dyadic]; rfl⟩
  | fork left center right =>
    obtain ⟨dyadic, leftCoherent, centerCoherent, rightCoherent⟩ := coherent
    obtain ⟨leftEnough, rightEnough⟩ := count_sides_le_fork left center right
    rcases mem_partCalls_fork.mp made with
      ⟨rfl, rfl⟩ | ⟨l, first, ⟨rfl, rfl⟩ | ⟨r, second, rfl, rfl⟩⟩
    · exact ⟨leftCoherent, length_lastOf (counted ▸ leftEnough)⟩
    · exact ⟨rightCoherent, length_lastOf (counted ▸ rightEnough)⟩
    · exact ⟨centerCoherent, by rw [dyadic]; rfl⟩

/-- Whatever a call of a coherent function reaches, it reaches with as many arguments as that takes. -/
theorem Reaches.counted {fn target : Fn} {args reached : List Value}
    (reaches : Reaches fn args target reached) (coherent : fn.Coherent)
    (counted : args.length = fn.arity.count) :
    target.Coherent ∧ reached.length = target.arity.count := by
  induction reaches with
  | self => exact ⟨coherent, counted⟩
  | part passing _ ih =>
    rw [passes, if_pos counted] at passing
    obtain ⟨partCoherent, partCounted⟩ := partCalls_counted coherent counted _ _ passing
    exact ih partCoherent partCounted

def ReadsFirst : Fn → Prop
  | selfApply _ | reduce _ | scan _ => True
  | atop outer _ => outer.arity = .dyadic
  | _ => False

theorem ne_nil_of_readsFirst {fn : Fn} {args : List Value} (reads : fn.ReadsFirst)
    (counted : args.length = fn.arity.count) : args ≠ [] := by
  rintro rfl
  cases fn <;> simp only [ReadsFirst] at reads
  case atop outer inner =>
    have nonempty := one_le_count_atop inner reads
    simp at counted
    omega
  all_goals simp [arity, Arity.count] at counted

end Fn

namespace Iteration

theorem wellCounted_each {call : Call} {args : List Value}
    (calls : ∀ sub ∈ untilFailure call (eachArguments args), WellCounted (call sub)) :
    WellCounted (each call args) := by
  intro e failed
  rcases each_eq_error failed with ⟨_, _, rfl⟩ | failed
  · simp
  · exact failsOnly_mapM calls e failed

theorem wellCounted_foldFromRight {call : Call} {xs : List Value}
    (calls : ∀ args ∈ foldArguments call xs, WellCounted (call args)) :
    WellCounted (foldFromRight call xs) := by
  intro e failed
  rcases foldFromRight_eq_error failed with rfl | ⟨args, made, failed⟩
  · simp
  · exact calls args made e failed

theorem wellCounted_reduce {call : Call} {x : Value}
    (calls : ∀ args ∈ reduceArguments call x, WellCounted (call args)) :
    WellCounted (reduce call x) := by
  cases x with
  | array grid => exact wellCounted_foldFromRight calls
  | number | character | function => simp [reduce, Value.expectArray]

theorem wellCounted_scan {call : Call} {x : Value}
    (calls : ∀ args ∈ scanArguments call x, WellCounted (call args)) :
    WellCounted (scan call x) := by
  cases x with
  | number | character | function => simp [scan, Value.expectArray]
  | array grid =>
    by_cases proper : grid.rank = 0 ∨ grid.length = 0
    · rcases proper with empty | empty <;> simp [scan, Value.expectArray, empty]
    · have folds : (List.range (Value.majorCells grid).length).mapM (fun i =>
          foldFromRight call ((Value.majorCells grid).take (i + 1))) =
            (scanPrefixes grid).mapM (foldFromRight call) := by
        simp [scanPrefixes, proper, List.mapM_map, Function.comp_def]
      have foldsCounted : WellCounted ((scanPrefixes grid).mapM (foldFromRight call)) := by
        refine failsOnly_mapM fun cells reached => wellCounted_foldFromRight fun args made => ?_
        exact calls args (List.mem_flatMap.mpr ⟨cells, reached, made⟩)
      simp [scan, Value.expectArray, folds, foldsCounted, Value.wellCounted_stack]

end Iteration

namespace Fn

/-- A call fails with what its parts fail with, or for reasons other than their number of arguments. -/
theorem wellCounted_call_of_parts {fn : Fn} {args : List Value}
    (counted : args.length = fn.arity.count)
    (parts : ∀ part passed, (part, passed) ∈ fn.partCalls args → WellCounted (part.call passed)) :
    WellCounted (fn.call args) := by
  cases fn with
  | primitive p =>
    rw [call_primitive counted]
    exact Primitive.wellCounted_apply counted
  | constant value => simp [call_constant counted]
  | each f =>
    rw [call_each counted]
    exact Iteration.wellCounted_each fun sub made => parts f sub (List.mem_map_of_mem made)
  | backwards f =>
    rw [call_backwards counted]
    exact parts f _ (by simp [partCalls])
  | selfApply f =>
    obtain ⟨x, rfl⟩ := List.length_eq_one_iff.mp counted
    rw [call_selfApply]
    exact parts f _ (by simp [partCalls])
  | reduce f =>
    obtain ⟨x, rfl⟩ := List.length_eq_one_iff.mp counted
    rw [call_reduce]
    exact Iteration.wellCounted_reduce fun sub made => parts f sub (by simpa [partCalls] using made)
  | scan f =>
    obtain ⟨x, rfl⟩ := List.length_eq_one_iff.mp counted
    rw [call_scan]
    exact Iteration.wellCounted_scan fun sub made => parts f sub (by simpa [partCalls] using made)
  | atop outer inner =>
    rw [call_atop counted]
    refine failsOnly_bind.mpr ⟨parts inner _ (by simp [partCalls]), fun result first => ?_⟩
    exact parts outer _ (by simp [partCalls, first])
  | «over» outer inner =>
    by_cases dyadic : outer.arity = .dyadic
    · rw [call_over_of_dyadic dyadic counted]
      refine failsOnly_bind.mpr ⟨failsOnly_mapM fun sub made => ?_, fun results ran => ?_⟩
      · exact parts inner sub (by simp [partCalls, dyadic, made])
      · exact parts outer results (by simp [partCalls, dyadic, ran])
    · rw [call_over_of_not_dyadic dyadic counted]
      refine failsOnly_bind.mpr ⟨parts inner args (by simp [partCalls, dyadic]), fun result first => ?_⟩
      exact parts outer _ (by simp [partCalls, dyadic, first])
  | fork left center right =>
    rw [call_fork counted]
    refine failsOnly_bind.mpr ⟨parts left _ (by simp [partCalls]), fun l first => ?_⟩
    refine failsOnly_bind.mpr ⟨parts right _ (by simp [partCalls, first]), fun r second => ?_⟩
    exact parts center _ (by simp [partCalls, first, second])

theorem wellCounted_call {fn : Fn} {args : List Value} (coherent : fn.Coherent)
    (counted : args.length = fn.arity.count) : WellCounted (fn.call args) := by
  induction fn using induct_parts generalizing args with
  | step fn ih =>
    apply wellCounted_call_of_parts counted
    intro part passed made
    obtain ⟨partCoherent, partCounted⟩ := partCalls_counted coherent counted part passed made
    exact ih part (mem_parts_of_mem_partCalls made) partCoherent partCounted

end Fn

def Demand.coherent : Demand where
  array _ _ := True
  function fn := fn.Coherent ∧ (fn.arity = .monadic ∨ fn.arity = .dyadic)

/-- Every function in the value, at any depth of arrays and in the constants of functions, is coherent
and takes one or two arguments. -/
def Value.Coherent : Value → Prop := Value.Meets .coherent

def Env.Coherent : Env → Prop := Env.Meets .coherent

theorem closed_coherent : Demand.coherent.Closed fun _ => True := by
  constructor <;> intros <;> trivial

theorem Arity.monadic_or_dyadic {arity : Arity} (takes : arity ≠ .niladic) :
    arity = .monadic ∨ arity = .dyadic := by
  cases arity <;> simp_all

theorem Arity.ne_niladic {arity : Arity} (takes : arity = .monadic ∨ arity = .dyadic) :
    arity ≠ .niladic := by
  rcases takes with rfl | rfl <;> simp

theorem Fn.coherent_ofValue {value : Value}
    (coherent : ∀ fn, value = .function fn → Demand.coherent.function fn) :
    (Fn.ofValue value).Coherent := by
  cases value with
  | function fn => exact (coherent fn rfl).1
  | number | character | array => trivial

/-- A train of coherent tines is coherent: the centers of its forks take two arguments, and what is
put atop the rest takes some. -/
theorem Train.Grouped.coherent {tines : List Value} {grouping : Grouping}
    (grouped : Grouped tines grouping)
    (coherent : ∀ fn, .function fn ∈ tines → Demand.coherent.function fn) :
    grouping.toFn.Coherent := by
  induction grouped with
  | last tine => exact Fn.coherent_ofValue fun fn same => coherent fn (by simp [same])
  | atop outer _ ih =>
    obtain ⟨outerCoherent, takes⟩ := coherent outer (by simp)
    have restCoherent := ih fun fn member => coherent fn (by simp [member])
    exact ⟨Arity.ne_niladic takes, outerCoherent, restCoherent⟩
  | fork left center dyadic _ ih =>
    have leftCoherent : (Fn.ofValue left).Coherent :=
      Fn.coherent_ofValue fun fn same => coherent fn (by simp [same])
    obtain ⟨centerCoherent, -⟩ := coherent center (by simp)
    have restCoherent := ih fun fn member => coherent fn (by simp [member])
    exact ⟨dyadic, leftCoherent, centerCoherent, restCoherent⟩

theorem builds_coherent : Demand.coherent.Builds where
  primitive p := ⟨trivial, p.monadic_or_dyadic⟩
  each demanded := demanded
  backwards demanded _ := demanded
  selfApply demanded dyadic := ⟨⟨dyadic, demanded.1⟩, .inl rfl⟩
  reduce demanded dyadic := ⟨⟨dyadic, demanded.1⟩, .inl rfl⟩
  scan demanded dyadic := ⟨⟨dyadic, demanded.1⟩, .inl rfl⟩
  atop outer inner takes :=
    ⟨⟨Arity.ne_niladic outer.2, outer.1, inner.1⟩, Arity.monadic_or_dyadic takes⟩
  boundRight demanded dyadic := by
    refine ⟨⟨Arity.ne_niladic demanded.2, demanded.1, trivial⟩, .inl ?_⟩
    simp [Fn.arity, dyadic, Arity.sup, Arity.count]
  boundLeft demanded dyadic := by
    refine ⟨⟨Arity.ne_niladic demanded.2, demanded.1, trivial⟩, .inl ?_⟩
    simp [Fn.arity, dyadic, Arity.sup, Arity.count]
  preprocessed outer inner both := by
    have innerTakes := Arity.ne_niladic inner.2
    refine ⟨⟨Arity.ne_niladic outer.2, fun dyadic => ?_, outer.1, inner.1⟩, ?_⟩
    · exact Arity.eq_monadic innerTakes fun innerDyadic => both ⟨dyadic, innerDyadic⟩
    · rw [Fn.arity]
      split
      · exact .inr rfl
      · exact inner.2
  train coherent grouped takes :=
    ⟨grouped.coherent coherent, Arity.monadic_or_dyadic takes⟩

namespace Modifier

theorem wellCounted_applyMonadic {modifier : Modifier} (fits : modifier.arity = .monadic)
    (operand : Value) : WellCounted (modifier.applyMonadic operand) := by
  have dyadics (role : String) : WellCounted (expectDyadic role operand) := by
    simp [expectDyadic, Value.wellCounted_expectFunction]
  cases modifier with
  | each => simp [applyMonadic, Value.wellCounted_expectFunction]
  | backwards => simp [applyMonadic, swapped, Value.wellCounted_expectFunction]
  | selfApply | reduce | scan => simp [applyMonadic, dyadics]
  | atop | «over» => cases fits

theorem composing_counted {left right : Value} (leftCoherent : left.Coherent)
    (rightCoherent : right.Coherent) :
    ∀ call ∈ composing left right, call.1.Coherent ∧ call.2.length = call.1.arity.count := by
  have single {fn : Fn} (coherent : (Value.function fn).Coherent) (other : fn.arity ≠ .dyadic)
      (value : Value) : fn.Coherent ∧ (Fn.lastOf fn.arity [value]).length = fn.arity.count := by
    obtain ⟨⟨parts, takes⟩, -⟩ := Value.meets_function.mp coherent
    have monadic := Arity.eq_monadic (Arity.ne_niladic takes) other
    exact ⟨parts, Fn.length_lastOf (by rw [monadic]; rfl)⟩
  intro call made
  unfold composing at made
  split at made
  · obtain ⟨niladic, rfl⟩ := Fn.mem_settling.mp made
    obtain ⟨⟨outer, takes⟩, -⟩ := Value.meets_function.mp leftCoherent
    obtain ⟨⟨inner, -⟩, -⟩ := Value.meets_function.mp rightCoherent
    exact ⟨⟨Arity.ne_niladic takes, outer, inner⟩, by rw [niladic]; rfl⟩
  · split at made
    · simp at made
    · rw [List.mem_singleton.mp made]
      exact single leftCoherent ‹_› _
  · split at made
    · simp at made
    · rw [List.mem_singleton.mp made]
      exact single rightCoherent ‹_› _
  · simp at made

theorem wellCounted_applyDyadic {modifier : Modifier} (fits : modifier.arity = .dyadic)
    {left right : Value} (leftCoherent : left.Coherent) (rightCoherent : right.Coherent) :
    WellCounted (modifier.applyDyadic left right) := by
  cases modifier with
  | atop =>
    intro e failed
    rcases composed_eq_error failed with rfl | ⟨call, made, failed⟩
    · simp
    · obtain ⟨coherent, counted⟩ := composing_counted leftCoherent rightCoherent call made
      exact Fn.wellCounted_call coherent counted e failed
  | «over» => simp [applyDyadic, preprocessed, Value.wellCounted_expectFunction]
  | each | backwards | selfApply | reduce | scan => cases fits

end Modifier

namespace Train

theorem wellCounted_group (tines : List Value) : WellCounted (group tines) := by
  induction tines using List.twoStepInduction with
  | nil => simp [group]
  | singleton tine => simp [group]
  | cons_cons tine next rest afterBoth afterFirst =>
    have later := afterFirst next
    cases rest with
    | nil => cases tine <;> simp [group]
    | cons following rest =>
      unfold group
      split
      · exact failsOnly_bind.mpr ⟨afterBoth, by simp⟩
      · split
        · exact failsOnly_bind.mpr ⟨later, by simp⟩
        · simp

theorem settling_counted {tines : List Value} (coherent : ∀ tine ∈ tines, tine.Coherent) :
    ∀ call ∈ settling tines, call.1.Coherent ∧ call.2.length = call.1.arity.count := by
  intro call made
  obtain ⟨grouping, grouped, niladic, rfl⟩ := grouped_of_mem_settling made
  have functions : ∀ fn, .function fn ∈ tines → Demand.coherent.function fn :=
    fun fn member => (Value.meets_function.mp (coherent _ member)).1
  exact ⟨grouped.coherent functions, by rw [niladic]; rfl⟩

theorem wellCounted_resolve {tines : List Value} (coherent : ∀ tine ∈ tines, tine.Coherent) :
    WellCounted (resolve tines) := by
  intro e failed
  rcases resolve_eq_error failed with failed | ⟨call, made, failed⟩
  · exact wellCounted_group tines e failed
  · obtain ⟨callCoherent, counted⟩ := settling_counted coherent call made
    exact Fn.wellCounted_call callCoherent counted e failed

end Train

/-- A step of a node that fits its form, with a coherent value for each of its children, never
complains about a number of arguments. -/
theorem Step.error_aboutValues {step : Step} (fits : step.node.Fits)
    (counted : step.operands.length = step.node.children.length)
    (coherent : ∀ x ∈ step.operands, x.Coherent) {e : RuntimeError}
    (failed : step.outcome.1 = .error e) : e.cause.AboutValues := by
  obtain ⟨node, operands, env⟩ := step
  have lifted {line : Nat} {result : Result Value} (wellCounted : WellCounted result)
      (failed : ((Eval.liftAt line result).outcome env).1 = .error e) : e.cause.AboutValues := by
    cases result with
    | ok value => cases failed
    | error fault =>
      cases failed
      exact failsOnly_error.mp wellCounted
  cases node with
  | number | string | character | glyph =>
    obtain rfl := List.length_eq_zero_iff.mp counted
    cases failed
  | reference name line =>
    obtain rfl := List.length_eq_zero_iff.mp counted
    simp only [outcome, Node.act, Eval.outcome_lookup] at failed
    cases found : env.get? name <;> simp only [found] at failed <;> cases failed
    simp
  | modified modifier _ line =>
    obtain ⟨operand, rfl⟩ := List.length_eq_one_iff.mp counted
    exact lifted (Modifier.wellCounted_applyMonadic fits operand) failed
  | combined modifier _ _ line =>
    obtain ⟨left, right, rfl⟩ := List.length_eq_two.mp counted
    have wellCounted := Modifier.wellCounted_applyDyadic fits (coherent left (by simp))
      (coherent right (by simp))
    exact lifted wellCounted failed
  | binding name arity _ line =>
    obtain ⟨value, rfl⟩ := List.length_eq_one_iff.mp counted
    simp only [outcome, Node.act] at failed
    rcases Eval.outcome_bindName name arity value line env with made | ⟨_, _, _, refused⟩
    · rw [made] at failed
      cases failed
    · rw [refused] at failed
      cases failed
      simp
  | train tines line => exact lifted (Train.wellCounted_resolve coherent) failed
  | strand | list => cases failed
  | array elements line =>
    exact lifted (failsOnly_map.mpr (Value.wellCounted_stack operands)) failed

/-- The calls that a step makes are calls of coherent functions, with as many arguments as they take. -/
theorem Step.calls_counted {step : Step} (coherent : ∀ x ∈ step.operands, x.Coherent) :
    ∀ call ∈ step.calls, call.1.Coherent ∧ call.2.length = call.1.arity.count := by
  obtain ⟨node, operands, env⟩ := step
  intro call made
  unfold calls at made
  split at made
  · rename_i modifier _ _ _ left right _ isPair
    simp only at isPair
    subst operands
    cases modifier with
    | atop =>
      exact Modifier.composing_counted (coherent left (by simp)) (coherent right (by simp)) call made
    | each | backwards | selfApply | reduce | scan | «over» => simp [Modifier.calls] at made
  · exact Train.settling_counted coherent call made
  · simp at made

/-- A step of a session keeps what values hold coherent, and never complains about a number of
arguments. -/
theorem Step.keeps_coherent {sources : List String} {step : Step}
    (taken : step ∈ sessionSteps sources Env.empty) :
    step.Keeps Env.Coherent Value.Coherent fun e => e.cause.AboutValues := by
  intro begins
  obtain ⟨source, -, program, isRead, node, member, inside, counted⟩ :=
    program_of_mem_sessionSteps taken
  have fits := wellMade_of_readProgram isRead node member step.node inside
  have ends := step.keeps_demand closed_coherent builds_coherent step.makesOnly_anything begins
  exact ⟨ends.value, fun e => error_aboutValues fits counted begins.operands, ends.env⟩

/-- Over every session, no submission ends in a complaint about a number of arguments; all functions
in its results and its environment are coherent and take one or two arguments; and every call made
in it, at any depth, has as many arguments as the function called takes, so that a first argument is
there wherever one is read. The same holds of all that a call of a coherent function reaches. -/
theorem coherent_of_session :
    (∀ sources : List String,
      (∀ e, .error (.running e) ∈ (session sources Env.empty).1 → e.cause.AboutValues) ∧
      (∀ v, .ok (some v) ∈ (session sources Env.empty).1 → v.Coherent) ∧
      (session sources Env.empty).2.Coherent ∧
      ∀ step ∈ sessionSteps sources Env.empty, ∀ call ∈ step.calls,
        call.1.Coherent ∧ call.2.length = call.1.arity.count) ∧
    ∀ (fn : Fn) (args : List Value), fn.Coherent → args.length = fn.arity.count →
      WellCounted (fn.call args) ∧
      ∀ target reached, Fn.Reaches fn args target reached →
        reached.length = target.arity.count ∧ (target.ReadsFirst → reached ≠ []) := by
  refine ⟨fun sources => ?_, fun fn args coherent counted => ⟨?_, fun target reached reaches => ?_⟩⟩
  · have runs : SessionRuns Env.Coherent Value.Coherent (fun e => e.cause.AboutValues) sources
        Env.empty :=
      sessionRuns_of_steps_keep Env.meets_empty fun step taken => Step.keeps_coherent taken
    exact ⟨runs.error, runs.value, runs.env, fun step taken =>
      Step.calls_counted (runs.begins step taken).operands⟩
  · exact Fn.wellCounted_call coherent counted
  · obtain ⟨-, reachedCounted⟩ := reaches.counted coherent counted
    exact ⟨reachedCounted, fun reads => Fn.ne_nil_of_readsFirst reads reachedCounted⟩

theorem coherent_of_mean :
    let mean : Fn := .fork (.reduce (.primitive .add)) (.primitive .divide) (.primitive .length)
    let args : List Value := [.array (Grid.vector [.number 1, .number 2])]
    mean.Coherent ∧ args.length = mean.arity.count ∧ WellCounted (mean.call args) ∧
      ∀ target reached, Fn.Reaches mean args target reached →
        reached.length = target.arity.count ∧ (target.ReadsFirst → reached ≠ []) := by
  intro mean args
  have coherent : mean.Coherent := ⟨rfl, ⟨rfl, trivial⟩, trivial, trivial⟩
  exact ⟨coherent, rfl, coherent_of_session.2 mean args coherent rfl⟩

end Tacit
