import Tacit.Proofs.Steps
import Tacit.Session

/-! What an evaluation does to the environment. A binding takes effect when its step succeeds, and no
other step touches the environment; so an evaluation, whether it fails or not, leaves the environment
it started in with its completed bindings made in order, and the last one of a name counts. -/
namespace Tacit

namespace Env

def insertAll (env : Env) (bindings : List (String × Value)) : Env :=
  bindings.foldl (fun env binding => env.insert binding.1 binding.2) env

@[simp] theorem insertAll_nil (env : Env) : env.insertAll [] = env := rfl

theorem insertAll_append (env : Env) (first second : List (String × Value)) :
    env.insertAll (first ++ second) = (env.insertAll first).insertAll second :=
  List.foldl_append

/-- A name has the value it was last bound to, or its old one. -/
theorem get?_insertAll (env : Env) (bindings : List (String × Value)) (name : String) :
    (env.insertAll bindings).get? name = (bindings.reverse.lookup name).or (env.get? name) := by
  induction bindings generalizing env with
  | nil => rfl
  | cons binding bindings ih =>
    obtain ⟨bound, value⟩ := binding
    have rest : (env.insertAll ((bound, value) :: bindings)) =
        (env.insert bound value).insertAll bindings := rfl
    rw [rest, ih, List.reverse_cons, List.lookup_append, Option.or_assoc]
    congr 1
    by_cases same : name = bound
    · subst name
      simp
    · have differs : (name == bound) = false := by simpa using same
      simp [get?_insert_of_ne env same, List.lookup_cons, differs]

end Env

namespace Node

/-- The bindings that the evaluation of a node gets to make, in order. -/
def completed (node : Node) (env : Env) : List (String × Value) :=
  (node.steps env).filterMap Step.binding?

def completedAll (nodes : List Node) (env : Env) : List (String × Value) :=
  (stepsAll nodes env).filterMap Step.binding?

theorem env_of_evalAll_of_each {nodes : List Node}
    (each : ∀ node ∈ nodes, ∀ env, (node.eval.outcome env).2 = env.insertAll (node.completed env))
    (env : Env) :
    ((Node.evalAll nodes).outcome env).2 = env.insertAll (completedAll nodes env) := by
  induction nodes generalizing env with
  | nil => rfl
  | cons node nodes ih =>
    have first := each node List.mem_cons_self env
    have later := ih fun other member => each other (List.mem_cons_of_mem node member)
    rw [completedAll, stepsAll, List.filterMap_append, Env.insertAll_append, ← completed, ← first,
      outcome_evalAll_cons, followedBy]
    rcases node.eval.outcome env with ⟨_ | value, after⟩
    · simp [yielded]
    · have rest := later after
      rw [completedAll] at rest
      simp only [yielded, List.flatMap_cons, List.flatMap_nil, List.append_nil, ← rest]
      rcases (Node.evalAll nodes).outcome after with ⟨_ | values, final⟩ <;> rfl

theorem env_of_eval (node : Node) (env : Env) :
    (node.eval.outcome env).2 = env.insertAll (node.completed env) := by
  induction node using induct_children generalizing env with
  | step node ih =>
    have inner := env_of_evalAll_of_each ih env
    rw [completed, steps_eq, List.filterMap_append, Env.insertAll_append, ← completedAll, ← inner,
      eval_eq, Eval.outcome_bind, ownStep]
    rcases (Node.evalAll node.children).outcome env with ⟨_ | operands, after⟩
    · simp [yielded]
    · have own := Step.env_of_outcome ⟨node, operands, after⟩
      rw [Step.outcome] at own
      simp only [own, yielded, List.map_cons, List.map_nil]
      cases made : Step.binding? ⟨node, operands, after⟩ <;> simp [made, Env.insertAll]

/-- A node that fails has made none of its own bindings, only those of its children. -/
theorem completed_of_eval_eq_error {node : Node} {env : Env} {e : RuntimeError}
    (failed : (node.eval.outcome env).1 = .error e) :
    node.completed env = completedAll node.children env := by
  rw [eval_eq, Eval.outcome_bind] at failed
  rw [completed, steps_eq, List.filterMap_append, ← completedAll, ownStep]
  rcases ended : (Node.evalAll node.children).outcome env with ⟨_ | operands, after⟩
  · simp [yielded]
  · simp only [ended] at failed
    have unmade : Step.binding? ⟨node, operands, after⟩ = none := by
      simp [Step.binding?, Step.outcome, failed]
    simp [yielded, unmade]

def IsBinding : Node → Prop
  | binding .. => True
  | _ => False

theorem isBinding_of_binding?_eq_some {step : Step} {made : String × Value}
    (makes : step.binding? = some made) : step.node.IsBinding := by
  unfold Step.binding? at makes
  split at makes
  · rename_i isBinding _
    simp [isBinding, IsBinding]
  · cases makes

theorem completedAll_eq_nil {nodes : List Node} (env : Env)
    (plain : ∀ node ∈ nodes, ∀ inner : Node, inner.Inside node → ¬ inner.IsBinding) :
    completedAll nodes env = [] := by
  apply List.filterMap_eq_nil_iff.mpr
  intro step taken
  obtain ⟨node, member, start, taken⟩ := exists_of_mem_stepsAll taken
  obtain ⟨inside, -⟩ := inside_of_mem_steps taken
  by_contra makes
  obtain ⟨made, makes⟩ := Option.ne_none_iff_exists'.mp makes
  exact plain node member step.node inside (isBinding_of_binding?_eq_some makes)

/-- A failing evaluation leaves every name as it was exactly when each name that a binding inside the
node was completed for was last bound to the value it already had. Where nothing inside the node
binds a name, that is so: the node's own binding is not made. -/
theorem env_unchanged_iff_of_eval_eq_error {node : Node} {env : Env} {e : RuntimeError}
    (failed : (node.eval.outcome env).1 = .error e) :
    ((∀ name, (node.eval.outcome env).2.get? name = env.get? name) ↔
      ∀ name value, (completedAll node.children env).reverse.lookup name = some value →
        env.get? name = some value) ∧
    ((∀ child ∈ node.children, ∀ inner : Node, inner.Inside child → ¬ inner.IsBinding) →
      ∀ name, (node.eval.outcome env).2.get? name = env.get? name) := by
  have left := env_of_eval node env
  rw [completed_of_eval_eq_error failed] at left
  refine ⟨⟨fun unchanged name value bound => ?_, fun restored name => ?_⟩, fun plain name => ?_⟩
  · have same := unchanged name
    rw [left, Env.get?_insertAll, bound] at same
    exact same.symm
  · rw [left, Env.get?_insertAll]
    cases bound : (completedAll node.children env).reverse.lookup name with
    | none => rfl
    | some value => exact (restored name value bound).symm
  · rw [left, completedAll_eq_nil env plain]
    rfl

theorem env_unchanged_iff_of_late_failure :
    let node : Node := .train [.binding "A" none (.character 'a' 1) 1, .reference "X" 1] 1
    (node.eval.outcome Env.empty).1 = .error ⟨.unknownVariable "X", 1⟩ ∧
      ¬ ∀ name, (node.eval.outcome Env.empty).2.get? name = Env.empty.get? name := by
  intro node
  have failed : (node.eval.outcome Env.empty).1 = .error ⟨.unknownVariable "X", 1⟩ := rfl
  refine ⟨failed, fun unchanged => ?_⟩
  have restored := (env_unchanged_iff_of_eval_eq_error failed).1.mp unchanged
  have old := restored "A" (.character 'a') rfl
  cases old

/-- A statement that fails after a binding in parentheses keeps the name bound. -/
theorem env_changed_by_failing_statement :
    ¬ ∀ source program, readProgram defaultLimit source = .ok program →
      ∀ node ∈ program, ∀ env e, (node.eval.outcome env).1 = .error e →
        ∀ name, (node.eval.outcome env).2.get? name = env.get? name := by
  intro unchanged
  have ran : (readProgram defaultLimit "(A ← 1) + X").toOption.map (List.map fun node =>
      ((node.eval.outcome Env.empty).1.isOk, ((node.eval.outcome Env.empty).2.get? "A").isSome)) =
        some [(false, true)] := by
    decide +kernel
  obtain ⟨program, isRead, each⟩ := Option.map_eq_some_iff.mp ran
  obtain ⟨node, rfl, ends⟩ := List.map_eq_singleton_iff.mp each
  obtain ⟨fails, bound⟩ := Prod.mk.inj ends
  have read : readProgram defaultLimit "(A ← 1) + X" = .ok [node] := by
    cases isProgram : readProgram defaultLimit "(A ← 1) + X" <;> simp_all [Except.toOption]
  cases ended : (node.eval.outcome Env.empty).1 with
  | ok value => simp [ended, Except.isOk, Except.toBool] at fails
  | error e =>
    have same := unchanged _ _ read node List.mem_cons_self Env.empty e ended "A"
    simp [same] at bound

end Node

end Tacit
