import Tacit.Proofs.Evaluation

/-! What a train means. Grouping makes a list of steps that are completed from the right afterwards; the
function obtained is the one that the rules for two tines and the rest of the train give when they are read as
a recursion, and no tine is lost, moved or used twice on the way. Where the train can be run at once, because
its operands are no functions, this is application from the right. -/
namespace Tacit.Train

/-- A train as one function, by recursion on the train itself: the first tine is a side of a fork where a
function of two arguments and something else follow, and a function atop the rest otherwise. -/
def composition : List Value → Result Fn
  | [] => .error (.invalidArgument .emptyTrain)
  | [tine] => .ok (Fn.ofValue tine)
  | tine :: next :: rest =>
    if next.arity = .dyadic ∧ rest ≠ [] then
      Fn.fork (Fn.ofValue tine) (Fn.ofValue next) <$> composition rest
    else if tine.kind = .function then Fn.atop (Fn.ofValue tine) <$> composition (next :: rest)
    else .error .niladOutsideOfFork

theorem center?_eq (value : Value) :
    center? value = if value.arity = .dyadic then some (Fn.ofValue value) else none := by
  cases value with
  | function fn => rfl
  | number | character | array => simp [center?, Value.arity]

theorem group_cons_cons (tine next : Value) (rest : List Value) :
    group (tine :: next :: rest) =
      if next.arity = .dyadic ∧ rest ≠ [] then
        Grouping.cons (.fork (Fn.ofValue tine) (Fn.ofValue next)) <$> group rest
      else if tine.kind = .function then Grouping.cons (.atop (Fn.ofValue tine)) <$> group (next :: rest)
      else .error .niladOutsideOfFork := by
  cases rest with
  | nil => cases tine <;> simp [group, Value.kind, Fn.ofValue, Grouping.cons, Functor.map, Except.map]
  | cons following rest =>
    by_cases dyadic : next.arity = .dyadic <;>
      cases tine <;> simp [group, center?_eq, dyadic, Value.kind, Fn.ofValue]

theorem Grouping.toFn_cons (step : Step) (grouping : Grouping) :
    (grouping.cons step).toFn = step.complete grouping.toFn := rfl

/-- Completing the steps afterwards gives what the recursion gives on its way back. -/
theorem toFn_group (tines : List Value) : Grouping.toFn <$> group tines = composition tines := by
  -- A fork takes two tines away, so the induction needs the train without the first two as well.
  induction tines using List.twoStepInduction with
  | nil => rfl
  | singleton tine => rfl
  | cons_cons tine next rest afterBoth afterFirst =>
    rw [group_cons_cons, composition, ← afterBoth, ← afterFirst next]
    split
    · simp [Functor.map_map, Grouping.toFn_cons, Step.complete]
    · split
      · simp [Functor.map_map, Grouping.toFn_cons, Step.complete]
      · rfl

def Step.tines : Step → List Fn
  | fork left center => [left, center]
  | atop outer => [outer]

def Grouping.tines (grouping : Grouping) : List Fn :=
  grouping.steps.flatMap Step.tines ++ [grouping.last]

theorem Grouped.tines_eq {tines : List Value} {grouping : Grouping} (grouped : Grouped tines grouping) :
    grouping.tines = tines.map Fn.ofValue := by
  induction grouped with
  | last tine => rfl
  | atop outer _ ih => simpa [Grouping.tines, Grouping.cons, Step.tines, Fn.ofValue] using ih
  | fork left center _ _ ih => simpa [Grouping.tines, Grouping.cons, Step.tines, Fn.ofValue] using ih

theorem Grouped.dyadic_of_mem {tines : List Value} {grouping : Grouping} (grouped : Grouped tines grouping)
    {left center : Fn} (member : .fork left center ∈ grouping.steps) : center.arity = .dyadic := by
  induction grouped with
  | last tine => cases member
  | atop outer _ ih =>
    rcases List.mem_cons.mp member with same | later
    · cases same
    · exact ih later
  | fork side middle dyadic _ ih =>
    rcases List.mem_cons.mp member with same | later
    · cases same
      exact dyadic
    · exact ih later

/-- Grouping and completing is the recursion on the train, with the same trains refused; and a grouping holds
the tines of its train, lifted to functions, each in its place, with functions of two arguments in the centers
of its forks. -/
theorem toFn_group_eq_composition (tines : List Value) :
    Grouping.toFn <$> group tines = composition tines ∧
      (group tines = .error .niladOutsideOfFork ↔ composition tines = .error .niladOutsideOfFork) ∧
      ∀ grouping, group tines = .ok grouping →
        grouping.tines = tines.map Fn.ofValue ∧
          ∀ left center, .fork left center ∈ grouping.steps → center.arity = .dyadic := by
  refine ⟨toFn_group tines, ?_, ?_⟩
  · rw [← toFn_group tines, map_eq_error]
  · intro grouping made
    have grouped := grouped_of_group made
    exact ⟨grouped.tines_eq, fun left center member => grouped.dyadic_of_mem member⟩

theorem toFn_group_eq_composition_of_sides :
    let tines : List Value :=
      [.character 'a', .function (.primitive .pair), .function (.primitive .flat), .array ⟨[0], []⟩]
    let grouping : Grouping :=
      ⟨[.fork (.constant (.character 'a')) (.primitive .pair), .atop (.primitive .flat)],
        .constant (.array ⟨[0], []⟩)⟩
    group tines = .ok grouping ∧ composition tines = .ok grouping.toFn ∧
      grouping.tines = tines.map Fn.ofValue ∧ (Fn.primitive .pair).arity = .dyadic := by
  intro tines grouping
  have made : group tines = .ok grouping := rfl
  obtain ⟨same, -, kept⟩ := toFn_group_eq_composition tines
  obtain ⟨inOrder, dyadic⟩ := kept grouping made
  rw [made] at same
  exact ⟨made, same.symm, inOrder, dyadic _ _ List.mem_cons_self⟩

/-- A train that asks to be run at once: operands that are no functions, functions of two arguments between
an operand and the rest, and functions of one argument before the rest. -/
inductive Application where
  | operand (value : Value) (plain : value.kind ≠ .function)
  | between (value : Value) (plain : value.kind ≠ .function) (fn : Fn) (dyadic : fn.arity = .dyadic)
    (rest : Application)
  | before (fn : Fn) (monadic : fn.arity = .monadic) (rest : Application)

namespace Application

def tines : Application → List Value
  | operand value _ => [value]
  | between value _ fn _ rest => value :: .function fn :: rest.tines
  | before fn _ rest => .function fn :: rest.tines

/-- Application from the right: what stands to the right of a function is run before it. -/
def outcome : Application → Result Value
  | operand value _ => .ok value
  | between value _ fn _ rest => do fn.call [value, ← rest.outcome]
  | before fn _ rest => do fn.call [← rest.outcome]

def toFn : Application → Fn
  | operand value _ => .constant value
  | between value _ fn _ rest => .fork (.constant value) fn rest.toFn
  | before fn _ rest => .atop fn rest.toFn

theorem ofValue_of_plain {value : Value} (plain : value.kind ≠ .function) :
    Fn.ofValue value = .constant value := by
  cases value with
  | function fn => exact absurd rfl plain
  | number | character | array => rfl

theorem arity_of_plain {value : Value} (plain : value.kind ≠ .function) : value.arity = .niladic := by
  cases value with
  | function fn => exact absurd rfl plain
  | number | character | array => rfl

/-- Such a train begins with an operand or a function of one argument, so that a function in front of it
never takes the first tine for the center of a fork. -/
theorem exists_tines_eq (train : Application) :
    ∃ first others, train.tines = first :: others ∧ first.arity ≠ .dyadic := by
  cases train with
  | operand value plain => exact ⟨value, [], rfl, by simp [arity_of_plain plain]⟩
  | between value plain fn _ rest =>
    exact ⟨value, .function fn :: rest.tines, rfl, by simp [arity_of_plain plain]⟩
  | before fn monadic rest => exact ⟨.function fn, rest.tines, rfl, by simp [Value.arity, monadic]⟩

theorem composition_tines (train : Application) : composition train.tines = .ok train.toFn := by
  induction train with
  | operand value plain => simp [tines, toFn, composition, ofValue_of_plain plain]
  | between value plain fn dyadic rest ih =>
    obtain ⟨first, others, same, -⟩ := rest.exists_tines_eq
    have more : rest.tines ≠ [] := by simp [same]
    have centered : (Value.function fn).arity = .dyadic := dyadic
    rw [tines, composition, if_pos ⟨centered, more⟩, ih, ofValue_of_plain plain]
    rfl
  | before fn monadic rest ih =>
    obtain ⟨first, others, same, notCenter⟩ := rest.exists_tines_eq
    have noFork : ¬ (first.arity = .dyadic ∧ others ≠ []) := fun fork => notCenter fork.1
    have isFunction : (Value.function fn).kind = .function := rfl
    rw [tines, same, composition, if_neg noFork, if_pos isFunction, ← same, ih]
    rfl

/-- Every remainder takes no arguments, so that no part of the train waits for any. -/
theorem arity_toFn (train : Application) : train.toFn.arity = .niladic := by
  induction train with
  | operand value plain => rfl
  | between value plain fn dyadic rest ih =>
    rw [toFn, Fn.arity, ih]
    rfl
  | before fn monadic rest ih =>
    rw [toFn, Fn.arity, monadic, ih]
    rfl

theorem call_toFn (train : Application) : train.toFn.call [] = train.outcome := by
  have counted (train : Application) : ([] : List Value).length = train.toFn.arity.count := by
    rw [train.arity_toFn]
    rfl
  induction train with
  | operand value plain => exact Fn.call_constant rfl
  | between value plain fn dyadic rest ih =>
    have left : (Fn.constant value).call [] = .ok value := Fn.call_constant rfl
    rw [toFn, Fn.call_fork (counted (.between value plain fn dyadic rest))]
    simp only [Fn.lastOf, List.drop_nil, left, ih]
    rfl
  | before fn monadic rest ih =>
    rw [toFn, Fn.call_atop (counted (.before fn monadic rest))]
    simp only [Fn.lastOf, List.drop_nil, monadic, ih]
    rfl

end Application

/-- A train that asks to be run at once is never refused, and its value is that of application from the
right, or its failure. -/
theorem toValue_group_application (train : Application) :
    (∃ grouping, group train.tines = .ok grouping ∧ grouping.toFn.toValue = train.outcome) ∧
      resolve train.tines = train.outcome := by
  obtain ⟨grouping, made, same⟩ : ∃ grouping, group train.tines = .ok grouping ∧ grouping.toFn = train.toFn := by
    apply map_eq_ok.mp
    rw [toFn_group, train.composition_tines]
  have settles : grouping.toFn.toValue = train.outcome := by
    rw [same, Fn.toValue, if_pos train.arity_toFn, train.call_toFn]
  refine ⟨⟨grouping, made, settles⟩, ?_⟩
  rw [resolve, made]
  exact settles

end Tacit.Train
