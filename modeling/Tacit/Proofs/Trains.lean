import Tacit.Proofs.Evaluation

/-! Trains are grouped by arities alone. The grouping can be found knowing only which tines are functions,
and of what arities: that says at which places the steps take their tines, and at which one the train ends.
So trains whose tines have the same arities are grouped alike, and the functions that they are have one
arity. -/
namespace Tacit.Train

/-- What grouping sees of a tine: the arity of a function, and nothing of any other value. -/
def functionArity? : Value → Option Arity
  | .function fn => some fn.arity
  | _ => none

/-- The form of a step, with the places of the tines that it takes. -/
inductive Form where
  | fork (left center : Nat)
  | atop (outer : Nat)

/-- How a train is grouped, said by the places of its tines. -/
structure Outline where
  steps : List Form
  last : Nat

def Outline.cons (form : Form) (outline : Outline) : Outline :=
  { outline with steps := form :: outline.steps }

/-- Outlines a train that begins at a place, by the arities of its tines. -/
def outlineFrom (place : Nat) : List (Option Arity) → Result Outline
  | [] => .error (.invalidArgument .emptyTrain)
  | [_] => .ok ⟨[], place⟩
  | [tine, _] => if tine.isSome then .ok ⟨[.atop place], place + 1⟩ else .error .niladOutsideOfFork
  | tine :: next :: following :: rest =>
    if next = some .dyadic then
      (·.cons (.fork place (place + 1))) <$> outlineFrom (place + 2) (following :: rest)
    else if tine.isSome then (·.cons (.atop place)) <$> outlineFrom (place + 1) (next :: following :: rest)
    else .error .niladOutsideOfFork

inductive Form.Takes (tines : List Value) : Form → Step → Prop
  | fork {i j : Nat} {left : Value} {center : Fn} (isLeft : tines[i]? = some left)
      (isCenter : tines[j]? = some (.function center)) :
      Takes tines (.fork i j) (.fork (Fn.ofValue left) center)
  | atop {i : Nat} {outer : Fn} (isOuter : tines[i]? = some (.function outer)) :
      Takes tines (.atop i) (.atop outer)

structure Outline.Describes (outline : Outline) (tines : List Value) (grouping : Grouping) : Prop where
  steps : List.Forall₂ (Form.Takes tines) outline.steps grouping.steps
  last : ∃ tine, tines[outline.last]? = some tine ∧ grouping.last = Fn.ofValue tine

theorem Outline.Describes.cons {outline : Outline} {tines : List Value} {grouping : Grouping} {form : Form}
    {step : Step} (takes : form.Takes tines step) (describes : outline.Describes tines grouping) :
    (outline.cons form).Describes tines (grouping.cons step) :=
  ⟨.cons takes describes.steps, describes.last⟩

/-- Either both fail with one error, or the outline describes the grouping. -/
inductive Outlines (tines : List Value) : Result Outline → Result Grouping → Prop
  | refused (e : Fault) : Outlines tines (.error e) (.error e)
  | grouped {outline : Outline} {grouping : Grouping} (describes : outline.Describes tines grouping) :
      Outlines tines (.ok outline) (.ok grouping)

theorem Outlines.cons {tines : List Value} {places : Result Outline} {groups : Result Grouping} {form : Form}
    {step : Step} (takes : form.Takes tines step) (outlines : Outlines tines places groups) :
    Outlines tines ((·.cons form) <$> places) (do return (← groups).cons step) := by
  cases outlines with
  | refused e => exact .refused e
  | grouped describes => exact .grouped (describes.cons takes)

theorem functionArity?_eq_dyadic_iff {value : Value} :
    functionArity? value = some .dyadic ↔ (center? value).isSome = true := by
  cases value with
  | function fn => by_cases dyadic : fn.arity = .dyadic <;> simp [functionArity?, center?, dyadic]
  | number | character | array => simp [functionArity?, center?]

theorem functionArity?_ne_dyadic {value : Value} (other : center? value = none) :
    functionArity? value ≠ some .dyadic := by
  simp [functionArity?_eq_dyadic_iff, other]

theorem outlines_group (before tines : List Value) :
    Outlines (before ++ tines) (outlineFrom before.length (tines.map functionArity?)) (group tines) := by
  match tines with
  | [] => exact .refused _
  | [tine] => exact .grouped ⟨.nil, tine, by simp, rfl⟩
  | [tine, last] =>
    cases tine with
    | function outer =>
      refine .grouped ⟨.cons (.atop ?_) .nil, last, ?_, rfl⟩
      · simp
      · simp
    | number | character | array => exact .refused _
  | tine :: next :: following :: rest =>
    rw [List.map_cons, List.map_cons, List.map_cons, outlineFrom]
    unfold group
    cases isCenter : center? next with
    | some center =>
      have dyadic : functionArity? next = some .dyadic := functionArity?_eq_dyadic_iff.mpr (by simp [isCenter])
      have later := outlines_group (before ++ [tine, next]) (following :: rest)
      rw [List.append_assoc, List.length_append] at later
      rw [if_pos dyadic]
      refine later.cons (.fork ?_ ?_)
      · simp
      · simp [(center?_eq_some isCenter).1]
    | none =>
      rw [if_neg (functionArity?_ne_dyadic isCenter)]
      cases tine with
      | function outer =>
        have later := outlines_group (before ++ [.function outer]) (next :: following :: rest)
        rw [List.append_assoc, List.length_append] at later
        exact later.cons (.atop (by simp))
      | number | character | array => exact .refused _

/-- The arity of the tine at a place, as a function: what is no function takes no arguments. -/
def arityAt (arities : List (Option Arity)) (place : Nat) : Arity :=
  (arities[place]?.getD none).getD .niladic

def Form.arity (arities : List (Option Arity)) (rest : Arity) : Form → Arity
  | fork left _ => (arityAt arities left).sup rest
  | atop outer => if arityAt arities outer = .dyadic then rest.sup .monadic else rest

def Outline.arity (arities : List (Option Arity)) (outline : Outline) : Arity :=
  outline.steps.foldr (fun form rest => form.arity arities rest) (arityAt arities outline.last)

theorem arityAt_eq {tines : List Value} {place : Nat} {tine : Value} (isTine : tines[place]? = some tine) :
    arityAt (tines.map functionArity?) place = (Fn.ofValue tine).arity := by
  rw [arityAt, List.getElem?_map, isTine]
  cases tine <;> rfl

theorem Form.Takes.arity_complete {tines : List Value} {form : Form} {step : Step} (takes : form.Takes tines step)
    (rest : Fn) : (step.complete rest).arity = form.arity (tines.map functionArity?) rest.arity := by
  cases takes with
  | fork isLeft isCenter => rw [Step.complete, Fn.arity, Form.arity, arityAt_eq isLeft]
  | atop isOuter => rw [Step.complete, Fn.arity, Form.arity, arityAt_eq isOuter, Fn.ofValue]

theorem Outline.Describes.arity_toFn {outline : Outline} {tines : List Value} {grouping : Grouping}
    (describes : outline.Describes tines grouping) :
    grouping.toFn.arity = outline.arity (tines.map functionArity?) := by
  obtain ⟨forms, place⟩ := outline
  obtain ⟨steps, last⟩ := grouping
  obtain ⟨takes, tine, isTine, rfl⟩ := describes
  rw [Grouping.toFn, Outline.arity, arityAt_eq isTine]
  dsimp only at takes ⊢
  induction takes with
  | nil => rfl
  | cons first _ ih => rw [List.foldr_cons, List.foldr_cons, first.arity_complete, ih isTine]

/-- How a train ends up: a function that takes arguments is its value, and one that takes none is called. -/
theorem resolve_of_group {tines : List Value} {grouping : Grouping} (grouped : group tines = .ok grouping) :
    resolve tines =
      if grouping.toFn.arity = .niladic then grouping.toFn.call [] else .ok (.function grouping.toFn) := by
  rw [resolve, grouped]
  rfl

/-- Trains whose tines have the same arities are grouped alike, or refused for the same reason. The
functions that they are have one arity, so both are values as they stand, or both are called at once. -/
theorem group_alike {first second : List Value}
    (alike : first.map functionArity? = second.map functionArity?) :
    (∃ e, group first = .error e ∧ group second = .error e) ∨
      ∃ (outline : Outline) (left right : Grouping),
        outlineFrom 0 (first.map functionArity?) = .ok outline ∧
        group first = .ok left ∧ outline.Describes first left ∧
        group second = .ok right ∧ outline.Describes second right ∧
        left.toFn.arity = right.toFn.arity ∧
        (left.toFn.arity ≠ .niladic ∧ resolve first = .ok (.function left.toFn) ∧
            resolve second = .ok (.function right.toFn) ∨
          left.toFn.arity = .niladic ∧ resolve first = left.toFn.call [] ∧
            resolve second = right.toFn.call []) := by
  have outlines := outlines_group [] first
  have outlines' := outlines_group [] second
  rw [← alike] at outlines'
  rw [List.length_nil] at outlines outlines'
  generalize outlineFrom 0 (first.map functionArity?) = places at outlines outlines'
  generalize isFirst : group first = groups at outlines
  generalize isSecond : group second = groups' at outlines'
  cases outlines with
  | refused e =>
    cases outlines'
    exact .inl ⟨e, rfl, rfl⟩
  | @grouped outline left describes =>
    cases outlines' with
    | @grouped _ right describes' =>
      have sameArity : left.toFn.arity = right.toFn.arity := by
        rw [describes.arity_toFn, describes'.arity_toFn, List.nil_append, List.nil_append, alike]
      refine .inr ⟨outline, left, right, rfl, rfl, describes, rfl, describes', sameArity, ?_⟩
      rw [resolve_of_group isFirst, resolve_of_group isSecond, ← sameArity]
      by_cases niladic : left.toFn.arity = .niladic
      · exact .inr ⟨niladic, if_pos niladic, if_pos niladic⟩
      · exact .inl ⟨niladic, if_neg niladic, if_neg niladic⟩

theorem group_alike_of_bound_sides :
    let first : List Value := [.character 'a', .function (.primitive .catenate), .function (.primitive .flat)]
    let second : List Value :=
      [.array ⟨[0], []⟩, .function (.backwards (.primitive .pair)), .function (.reduce (.primitive .left))]
    first.map functionArity? = second.map functionArity? ∧
      resolve first = .ok (.function (.fork (.constant (.character 'a')) (.primitive .catenate)
        (.primitive .flat))) ∧
      ∃ fn, resolve second = .ok (.function fn) := by
  intro first second
  have alike : first.map functionArity? = second.map functionArity? := rfl
  refine ⟨alike, rfl, ?_⟩
  rcases group_alike alike with ⟨e, refused, -⟩ | ⟨_, left, right, -, grouped, -, -, -, -, kept | ⟨niladic, -⟩⟩
  · cases refused
  · exact ⟨right.toFn, kept.2.2⟩
  · cases grouped
    cases niladic

/-- A function that takes no arguments is called, and whether that gives a function depends on more than
arities: the first of two functions is a function, the first of two characters is not. -/
theorem resolve_alike_differs :
    ¬ ∀ first second : List Value, first.map functionArity? = second.map functionArity? →
      (∀ fn, .function fn ∈ first ++ second → fn.arity = .monadic ∨ fn.arity = .dyadic) →
      ((∃ fn, resolve first = .ok (.function fn)) ↔ ∃ fn, resolve second = .ok (.function fn)) := by
  intro same
  let firstOf : Value := .function (.reduce (.primitive .left))
  let functions : Value :=
    .array (Grid.vector [.function (.primitive .add), .function (.primitive .subtract)])
  let characters : Value := .array (Grid.vector [.character 'a', .character 'b'])
  have settles : resolve [firstOf, functions] = .ok (.function (.primitive .add)) := rfl
  have other : resolve [firstOf, characters] = .ok (.character 'a') := rfl
  have takesArguments (fn : Fn) (member : .function fn ∈ [firstOf, functions] ++ [firstOf, characters]) :
      fn.arity = .monadic ∨ fn.arity = .dyadic := by
    simp only [firstOf, functions, characters, List.cons_append, List.nil_append, List.mem_cons,
      Value.function.injEq, reduceCtorEq, List.not_mem_nil, or_false, false_or, or_self] at member
    subst member
    exact .inl rfl
  obtain ⟨fn, isFunction⟩ := (same [firstOf, functions] [firstOf, characters] rfl takesArguments).mp ⟨_, settles⟩
  rw [other] at isFunction
  cases isFunction

end Tacit.Train
