import Tacit.Proofs.Bindings

/-! Evaluation is local. A node reads no names but those that it mentions, so environments that agree on
these cannot be told apart by evaluating it; and it changes no names but those that it binds. Both hold
for evaluations that fail as well, whatever they have bound before. -/
namespace Tacit

/-- Environments that bind certain names alike. -/
def Env.AgreeOn (names : String → Prop) (first second : Env) : Prop :=
  ∀ name, names name → first.get? name = second.get? name

/-- Binding a name to the same value keeps environments alike, also where the name was not. -/
theorem Env.AgreeOn.insert {names : String → Prop} {first second : Env} (agree : first.AgreeOn names second)
    (name : String) (value : Value) : (first.insert name value).AgreeOn names (second.insert name value) := by
  intro other named
  by_cases same : other = name
  · rw [same, get?_insert_self, get?_insert_self]
  · rw [get?_insert_of_ne first same, get?_insert_of_ne second same, agree other named]

namespace Eval

variable {α β : Type} {names : String → Prop}

/-- From environments that agree on the names, a computation ends the same way, and in environments that
agree on them again. -/
def Local (names : String → Prop) (x : Eval α) : Prop :=
  ∀ first second : Env, first.AgreeOn names second →
    (x.outcome first).1 = (x.outcome second).1 ∧ (x.outcome first).2.AgreeOn names (x.outcome second).2

theorem local_pure (a : α) : Local names (pure a) :=
  fun _ _ agree => ⟨rfl, agree⟩

theorem local_throw (e : RuntimeError) : Local names (throw e : Eval α) :=
  fun _ _ agree => ⟨rfl, agree⟩

theorem local_liftAt (line : Nat) (result : Result α) : Local names (liftAt line result) :=
  fun _ _ agree => ⟨rfl, agree⟩

theorem local_lookup {name : String} (named : names name) (line : Nat) : Local names (lookup name line) := by
  intro first second agree
  rw [outcome_lookup, outcome_lookup, agree name named]
  exact ⟨rfl, agree⟩

theorem local_bindName (name : String) (declared : Option Arity) (value : Value) (line : Nat) :
    Local names (bindName name declared value line) := by
  intro first second agree
  rcases declared with _ | arity
  · exact ⟨rfl, agree.insert name value⟩
  · by_cases same : value.arity = arity
    · simp only [bindName, same, ne_eq, not_true_eq_false, if_false]
      exact ⟨rfl, agree.insert name value⟩
    · simp only [bindName, ne_eq, same, not_false_eq_true, if_true]
      exact ⟨rfl, agree⟩

theorem Local.bind {x : Eval α} {f : α → Eval β} (begins : Local names x) (goesOn : ∀ a, Local names (f a)) :
    Local names (x >>= f) := by
  intro first second agree
  obtain ⟨sameResult, agreeAfter⟩ := begins first second agree
  rw [outcome_bind, outcome_bind]
  rcases ended : x.outcome first with ⟨_ | a, after⟩ <;>
    rcases ended' : x.outcome second with ⟨_ | _, after'⟩ <;>
    rw [ended, ended'] at sameResult agreeAfter <;>
    cases sameResult
  · exact ⟨rfl, agreeAfter⟩
  · exact goesOn a after after' agreeAfter

end Eval

namespace Node

def name? : Node → Option String
  | reference name _ => some name
  | binding name _ _ _ => some name
  | _ => none

/-- A node, or one inside it, reads or binds the name. -/
def Mentions (node : Node) (name : String) : Prop :=
  ∃ inner : Node, inner.Inside node ∧ inner.name? = some name

def Binds (node : Node) (name : String) : Prop :=
  ∃ inner : Node, inner.Inside node ∧ inner.IsBinding ∧ inner.name? = some name

theorem mentions_iff {node : Node} {name : String} :
    node.Mentions name ↔ node.name? = some name ∨ ∃ child ∈ node.children, child.Mentions name := by
  constructor
  · rintro ⟨inner, inside, named⟩
    cases inside with
    | self => exact .inl named
    | child isChild deeper => exact .inr ⟨_, isChild, inner, deeper, named⟩
  · rintro (named | ⟨child, isChild, inner, deeper, named⟩)
    · exact ⟨node, .self node, named⟩
    · exact ⟨inner, .child isChild deeper, named⟩

section Local

variable {names : String → Prop}

/-- A step reads the node's own name only. -/
theorem local_act {node : Node} (named : ∀ name, node.name? = some name → names name) (values : List Value) :
    Eval.Local names (node.act values) := by
  fun_cases act node values
  case case4 name line => exact Eval.local_lookup (named name rfl) line
  case case8 name arity value line operand => exact Eval.local_bindName name arity operand line
  case case6 | case7 | case9 | case12 => exact Eval.local_liftAt _ _
  case case13 => exact Eval.local_throw _
  all_goals exact Eval.local_pure _

theorem local_evalAll_of_each {nodes : List Node} (each : ∀ node ∈ nodes, Eval.Local names node.eval) :
    Eval.Local names (evalAll nodes) := by
  induction nodes with
  | nil => exact Eval.local_pure []
  | cons node nodes ih =>
    obtain ⟨first, others⟩ := List.forall_mem_cons.mp each
    exact first.bind fun value => (ih others).bind fun values => Eval.local_pure (value :: values)

theorem local_eval {node : Node} (named : ∀ name, node.Mentions name → names name) :
    Eval.Local names node.eval := by
  induction node using induct_children with
  | step node ih =>
    have children : Eval.Local names (evalAll node.children) := by
      apply local_evalAll_of_each
      intro child isChild
      exact ih child isChild fun name mentions => named name (mentions_iff.mpr (.inr ⟨child, isChild, mentions⟩))
    have own : ∀ name, node.name? = some name → names name :=
      fun name isName => named name (mentions_iff.mpr (.inl isName))
    rw [eval_eq]
    exact children.bind fun values => local_act own values

end Local

theorem name?_of_binding?_eq_some {step : Step} {made : String × Value} (makes : step.binding? = some made) :
    step.node.name? = some made.1 := by
  unfold Step.binding? at makes
  split at makes
  · rename_i isBinding _
    cases makes
    simp [isBinding, name?]
  · cases makes

theorem binds_of_mem_completed {node : Node} {env : Env} {made : String × Value}
    (completes : made ∈ node.completed env) : node.Binds made.1 := by
  obtain ⟨step, taken, makes⟩ := List.mem_filterMap.mp completes
  obtain ⟨inside, -⟩ := inside_of_mem_steps taken
  exact ⟨step.node, inside, isBinding_of_binding?_eq_some makes, name?_of_binding?_eq_some makes⟩

/-- A name that nothing inside the node binds keeps its value. -/
theorem get?_of_not_binds {node : Node} {name : String} (unbound : ¬ node.Binds name) (env : Env) :
    (node.eval.outcome env).2.get? name = env.get? name := by
  have unmade : (node.completed env).reverse.lookup name = none := by
    rw [List.lookup_eq_none_iff]
    intro made completes
    rw [List.mem_reverse] at completes
    by_contra same
    have isName : name = made.1 := by simpa using same
    exact unbound (isName ▸ binds_of_mem_completed completes)
  rw [env_of_eval, Env.get?_insertAll, unmade, Option.none_or]

/-- The value or the error of a node depends only on the names that it mentions, and so does what it
leaves of them; all names that it does not bind are left as they were. -/
theorem eval_local (node : Node) {first second : Env} (agree : first.AgreeOn node.Mentions second) :
    (node.eval.outcome first).1 = (node.eval.outcome second).1 ∧
      (node.eval.outcome first).2.AgreeOn node.Mentions (node.eval.outcome second).2 ∧
      ∀ name, ¬ node.Binds name → ∀ env, (node.eval.outcome env).2.get? name = env.get? name := by
  obtain ⟨sameResult, agreeAfter⟩ := local_eval (fun _ => id) first second agree
  exact ⟨sameResult, agreeAfter, fun name unbound env => get?_of_not_binds unbound env⟩

theorem eval_local_of_late_failure :
    let node : Node := .train [.binding "A" none (.reference "B" 1) 1, .reference "X" 1] 1
    let first := Env.empty.insert "B" (.character 'b')
    let second := first.insert "C" (.character 'c')
    first.AgreeOn node.Mentions second ∧
      (node.eval.outcome first).1 = .error ⟨.unknownVariable "X", 1⟩ ∧
      (node.eval.outcome second).1 = .error ⟨.unknownVariable "X", 1⟩ ∧
      (node.eval.outcome first).2.get? "A" = some (.character 'b') ∧
      (node.eval.outcome second).2.get? "A" = some (.character 'b') ∧
      (node.eval.outcome second).2.get? "C" = some (.character 'c') := by
  intro node first second
  have others {name : String} (mentions : node.Mentions name) : name = "A" ∨ name = "B" ∨ name = "X" := by
    rcases mentions_iff.mp mentions with named | ⟨tine, isTine, mentions⟩
    · cases named
    rcases List.mem_pair.mp isTine with rfl | rfl
    · rcases mentions_iff.mp mentions with named | ⟨value, isValue, mentions⟩
      · exact .inl (Option.some.inj named).symm
      · rw [List.mem_singleton.mp isValue] at mentions
        rcases mentions_iff.mp mentions with named | ⟨_, ⟨⟩, _⟩
        exact .inr (.inl (Option.some.inj named).symm)
    · rcases mentions_iff.mp mentions with named | ⟨_, ⟨⟩, _⟩
      exact .inr (.inr (Option.some.inj named).symm)
  have agree : first.AgreeOn node.Mentions second := by
    intro name mentions
    rcases others mentions with rfl | rfl | rfl <;> rfl
  obtain ⟨sameResult, agreeAfter, kept⟩ := eval_local node agree
  have bound : (node.eval.outcome first).2.get? "A" = some (.character 'b') := rfl
  have mentioned : node.Mentions "A" :=
    mentions_iff.mpr (.inr ⟨_, List.mem_cons_self, mentions_iff.mpr (.inl rfl)⟩)
  have unbound : ¬ node.Binds "C" := by
    rintro ⟨inner, inside, -, named⟩
    have := others ⟨inner, inside, named⟩
    simp at this
  exact ⟨agree, rfl, sameResult.symm, bound, agreeAfter "A" mentioned ▸ bound, kept "C" unbound second⟩

end Node

end Tacit
