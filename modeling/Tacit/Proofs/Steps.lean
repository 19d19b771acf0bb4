import Tacit.Eval
import Tacit.Proofs.Result

/-! Evaluation, step by step. A node first evaluates the nodes inside it, from left to right, and then
takes a step of its own with their values. The steps of an evaluation are all the steps taken up to
its end or its first failure, in order; what every single step keeps, the whole evaluation keeps. -/
namespace Tacit

namespace Eval

variable {α β : Type}

/-- How a computation started in an environment ends, and the environment it leaves. -/
def outcome (x : Eval α) (env : Env) : Except RuntimeError α × Env := x.run.run env

@[simp] theorem outcome_pure (a : α) (env : Env) : (pure a : Eval α).outcome env = (.ok a, env) := rfl

@[simp] theorem outcome_throw (e : RuntimeError) (env : Env) :
    (throw e : Eval α).outcome env = (.error e, env) := rfl

@[simp] theorem outcome_liftAt (line : Nat) (result : Result α) (env : Env) :
    (liftAt line result).outcome env = (atLine line result, env) := rfl

theorem outcome_bind (x : Eval α) (f : α → Eval β) (env : Env) :
    (x >>= f).outcome env =
      match x.outcome env with
      | (.ok a, after) => (f a).outcome after
      | (.error e, after) => (.error e, after) := by
  simp only [outcome, ExceptT.run_bind, StateT.run_bind]
  rcases x.run.run env with ⟨result, after⟩
  cases result <;> rfl

theorem outcome_lookup (name : String) (line : Nat) (env : Env) :
    (lookup name line).outcome env =
      ((env.get? name).elim (.error ⟨.unknownVariable name, line⟩) .ok, env) := by
  rw [lookup, outcome_bind]
  simp only [show (get : Eval Env).outcome env = (.ok env, env) from rfl]
  cases env.get? name <;> rfl

/-- A binding is made unless its value has another arity than the one declared. -/
theorem outcome_bindName (name : String) (declared : Option Arity) (value : Value) (line : Nat)
    (env : Env) :
    (bindName name declared value line).outcome env = (.ok value, env.insert name value) ∨
      ∃ arity, declared = some arity ∧ value.arity ≠ arity ∧
        (bindName name declared value line).outcome env =
          (.error ⟨.arityMismatch name arity value.arity, line⟩, env) := by
  cases declared with
  | none => exact .inl rfl
  | some arity =>
    by_cases same : value.arity = arity
    · left
      simp only [bindName, same, ne_eq, not_true_eq_false, if_false]
      rfl
    · right
      refine ⟨arity, rfl, same, ?_⟩
      simp only [bindName, ne_eq, same, not_false_eq_true, if_true]
      rfl

/-- What a computation may end with: the value if it yields one, the error if it fails, and in either
case the environment it leaves. -/
structure Ends (envs : Env → Prop) (values : α → Prop) (errors : RuntimeError → Prop)
    (ending : Except RuntimeError α × Env) : Prop where
  value : ∀ a, ending.1 = .ok a → values a
  error : ∀ e, ending.1 = .error e → errors e
  env : envs ending.2

variable {envs : Env → Prop} {values : α → Prop} {others : β → Prop} {errors : RuntimeError → Prop}

theorem Ends.ok {a : α} {env : Env} (value : values a) (held : envs env) :
    Ends envs values errors (.ok a, env) := by
  constructor
  · rintro _ ⟨⟩
    exact value
  · rintro _ ⟨⟩
  · exact held

theorem Ends.failed {e : RuntimeError} {env : Env} (error : errors e) (held : envs env) :
    Ends envs values errors (.error e, env) := by
  constructor
  · rintro _ ⟨⟩
  · rintro _ ⟨⟩
    exact error
  · exact held

theorem Ends.bind {x : Eval α} {f : α → Eval β} {env : Env}
    (first : Ends envs values errors (x.outcome env))
    (second : ∀ a after, x.outcome env = (.ok a, after) → values a → envs after →
      Ends envs others errors ((f a).outcome after)) :
    Ends envs others errors ((x >>= f).outcome env) := by
  rw [outcome_bind]
  rcases ended : x.outcome env with ⟨_ | _, after⟩ <;> rw [ended] at first
  · exact .failed (first.error _ rfl) first.env
  · exact second _ _ ended (first.value _ rfl) first.env

theorem ends_liftAt {line : Nat} {result : Result α} {env : Env}
    (value : ∀ a, result = .ok a → values a) (error : ∀ e, result = .error e → errors ⟨e, line⟩)
    (held : envs env) : Ends envs values errors ((liftAt line result).outcome env) := by
  cases result with
  | ok a => exact .ok (value a rfl) held
  | error e => exact .failed (error e rfl) held

end Eval

namespace Node

/-- The nodes right inside a node, in the order of their evaluation. -/
def children : Node → List Node
  | modified _ operand _ => [operand]
  | combined _ left right _ => [left, right]
  | binding _ _ value _ => [value]
  | train nodes _ | strand nodes _ | array nodes _ | list nodes _ => nodes
  | _ => []

/-- What a node does with the values of its children. -/
def act : Node → List Value → Eval Value
  | number value _, [] => return .number value
  | string text _, [] => return .ofText text.toList
  | character value _, [] => return .character value
  | reference name line, [] => Eval.lookup name line
  | glyph primitive _ _, [] => return .function (.primitive primitive)
  | modified modifier _ line, [operand] => Eval.liftAt line (modifier.applyMonadic operand)
  | combined modifier _ _ line, [left, right] => Eval.liftAt line (modifier.applyDyadic left right)
  | binding name arity _ line, [value] => Eval.bindName name arity value line
  | train _ line, tines => Eval.liftAt line (Train.resolve tines)
  | strand _ _, elements | list _ _, elements => return .array (Grid.vector elements)
  | array _ line, cells => Eval.liftAt line (.array <$> Value.stack cells)
  | node, values => throw ⟨.argumentCount node.children.length values.length, node.line⟩

theorem eval_eq (node : Node) : node.eval = (do node.act (← Node.evalAll node.children)) := by
  cases node
  case array elements line =>
    have lifted (cells : List Value) :
        (do return Value.array (← Eval.liftAt line (Value.stack cells))) =
          Eval.liftAt line (Value.array <$> Value.stack cells) := by
      cases Value.stack cells <;> rfl
    simp only [eval, children, act, lifted]
  all_goals simp [eval, evalAll, children, act]

theorem sizeOf_lt_of_mem_children {node child : Node} (inside : child ∈ node.children) :
    sizeOf child < sizeOf node := by
  cases node <;> simp only [children, List.mem_cons, List.not_mem_nil, or_false] at inside
  case train | strand | array | list =>
    have smaller := List.sizeOf_lt_of_mem inside
    simp
    omega
  case combined =>
    rcases inside with rfl | rfl
    all_goals
      simp
      omega
  case modified | binding =>
    subst child
    simp
    omega

theorem outcome_evalAll_cons (node : Node) (nodes : List Node) (env : Env) :
    (Node.evalAll (node :: nodes)).outcome env =
      match node.eval.outcome env with
      | (.ok first, after) =>
        match (Node.evalAll nodes).outcome after with
        | (.ok others, final) => (.ok (first :: others), final)
        | (.error e, final) => (.error e, final)
      | (.error e, after) => (.error e, after) := by
  rw [evalAll, Eval.outcome_bind]
  rcases node.eval.outcome env with ⟨_ | first, after⟩
  · rfl
  · simp only [Eval.outcome_bind]
    rcases (Node.evalAll nodes).outcome after with ⟨_ | others, final⟩ <;> rfl

theorem induct_children {P : Node → Prop}
    (step : ∀ node : Node, (∀ child ∈ node.children, P child) → P node) (node : Node) : P node :=
  step node fun child _ => induct_children step child
termination_by sizeOf node
decreasing_by exact sizeOf_lt_of_mem_children ‹_›

/-- A node is inside itself and inside whatever one of its ancestors is inside. -/
inductive Inside : Node → Node → Prop
  | self (node : Node) : Inside node node
  | child {inner child outer : Node} (isChild : child ∈ outer.children)
    (deeper : Inside inner child) : Inside inner outer

end Node

/-- The step of a node: it has the values of its children, and the environment they left. -/
structure Step where
  node : Node
  operands : List Value
  before : Env

namespace Step

def outcome (step : Step) : Except RuntimeError Value × Env :=
  (step.node.act step.operands).outcome step.before

def binding? (step : Step) : Option (String × Value) :=
  match step.node, step.outcome.1 with
  | .binding name _ _ _, .ok value => some (name, value)
  | _, _ => none

/-- A step changes nothing in the environment but what it binds. -/
theorem env_of_outcome (step : Step) :
    step.outcome.2 = step.binding?.elim step.before fun made => step.before.insert made.1 made.2 := by
  obtain ⟨node, operands, env⟩ := step
  unfold binding? outcome
  fun_cases Node.act node operands
  case case8 name arity value line operand =>
    rcases Eval.outcome_bindName name arity operand line env with made | ⟨_, _, _, refused⟩
    · simp [made]
    · simp [refused]
  all_goals simp [Eval.outcome_lookup]

end Step

namespace Node

/-- The node's own step, which it takes unless one of its children fails. -/
def ownStep (node : Node) (env : Env) : List Step :=
  let (result, after) := (Node.evalAll node.children).outcome env
  (yielded result).map fun operands => ⟨node, operands, after⟩

/-- The steps of what is evaluated after a node, in the environment that the node leaves. -/
def followedBy (node : Node) (env : Env) (rest : Env → List Step) : List Step :=
  let (result, after) := node.eval.outcome env
  (yielded result).flatMap fun _ => rest after

mutual

/-- The steps of the evaluation of a node, in order, up to the first one that fails. -/
def steps : Node → Env → List Step
  | modified modifier operand line, env =>
    operand.steps env ++ (modified modifier operand line).ownStep env
  | combined modifier left right line, env =>
    left.steps env ++ left.followedBy env right.steps ++
      (combined modifier left right line).ownStep env
  | binding name arity value line, env =>
    value.steps env ++ (binding name arity value line).ownStep env
  | train tines line, env => stepsAll tines env ++ (train tines line).ownStep env
  | strand elements line, env => stepsAll elements env ++ (strand elements line).ownStep env
  | array elements line, env => stepsAll elements env ++ (array elements line).ownStep env
  | list elements line, env => stepsAll elements env ++ (list elements line).ownStep env
  | leaf, env => leaf.ownStep env

def stepsAll : List Node → Env → List Step
  | [], _ => []
  | node :: nodes, env => node.steps env ++ node.followedBy env (stepsAll nodes)

end

theorem stepsAll_singleton (node : Node) (env : Env) : stepsAll [node] env = node.steps env := by
  rcases ended : node.eval.outcome env with ⟨_ | _, after⟩ <;>
    simp [stepsAll, followedBy, ended, yielded]

theorem steps_eq (node : Node) (env : Env) :
    node.steps env = stepsAll node.children env ++ node.ownStep env := by
  cases node
  case combined left right line =>
    have last : stepsAll [right] = right.steps := funext (stepsAll_singleton right)
    rw [children, stepsAll, last, steps]
  all_goals simp [steps, stepsAll, stepsAll_singleton, children]

theorem mem_ownStep {node : Node} {env : Env} {step : Step} :
    step ∈ node.ownStep env ↔
      step.node = node ∧
        (Node.evalAll node.children).outcome env = (.ok step.operands, step.before) := by
  obtain ⟨own, operands, before⟩ := step
  rcases ended : (Node.evalAll node.children).outcome env with ⟨_ | _, after⟩
  · simp [ownStep, ended, yielded]
  · simp [ownStep, ended, yielded, eq_comm]

theorem mem_followedBy {node : Node} {env : Env} {rest : Env → List Step} {step : Step} :
    step ∈ node.followedBy env rest ↔
      ∃ value after, node.eval.outcome env = (.ok value, after) ∧ step ∈ rest after := by
  rcases ended : node.eval.outcome env with ⟨_ | _, after⟩ <;> simp [followedBy, ended, yielded]

theorem mem_stepsAll_cons {node : Node} {nodes : List Node} {env : Env} {step : Step} :
    step ∈ stepsAll (node :: nodes) env ↔
      step ∈ node.steps env ∨
        ∃ value after, node.eval.outcome env = (.ok value, after) ∧ step ∈ stepsAll nodes after := by
  rw [stepsAll, List.mem_append, mem_followedBy]

end Node

section Run

variable (envs : Env → Prop) (values : Value → Prop) (errors : RuntimeError → Prop)

structure Step.Begins (step : Step) : Prop where
  env : envs step.before
  operands : ∀ value ∈ step.operands, values value

/-- Begun as demanded, a step ends as demanded. -/
def Step.Keeps (step : Step) : Prop :=
  step.Begins envs values → Eval.Ends envs values errors step.outcome

namespace Node

/-- An evaluation, and every step of it, goes as demanded. -/
structure Runs (node : Node) (env : Env) : Prop where
  ends : Eval.Ends envs values errors (node.eval.outcome env)
  begins : ∀ step ∈ node.steps env, step.Begins envs values

structure RunsAll (nodes : List Node) (env : Env) : Prop where
  ends : Eval.Ends envs (fun results => ∀ value ∈ results, values value) errors
    ((Node.evalAll nodes).outcome env)
  begins : ∀ step ∈ stepsAll nodes env, step.Begins envs values

variable {envs values errors}

theorem runsAll_of_each {nodes : List Node} {env : Env} (start : envs env)
    (each : ∀ node ∈ nodes, ∀ env, envs env →
      (∀ step ∈ node.steps env, step.Keeps envs values errors) → node.Runs envs values errors env)
    (kept : ∀ step ∈ stepsAll nodes env, step.Keeps envs values errors) :
    RunsAll envs values errors nodes env := by
  induction nodes generalizing env with
  | nil =>
    constructor
    · exact .ok (by simp) start
    · simp [stepsAll]
  | cons node nodes ih =>
    have first : node.Runs envs values errors env := by
      apply each node List.mem_cons_self env start
      intro step taken
      exact kept step (mem_stepsAll_cons.mpr (.inl taken))
    have later {value : Value} {after : Env} (ended : node.eval.outcome env = (.ok value, after))
        (held : envs after) : RunsAll envs values errors nodes after := by
      apply ih held
      · intro other member
        exact each other (List.mem_cons_of_mem node member)
      · intro step taken
        exact kept step (mem_stepsAll_cons.mpr (.inr ⟨value, after, ended, taken⟩))
    constructor
    · rw [evalAll]
      refine first.ends.bind fun value after ended met held => ?_
      refine (later ended held).ends.bind fun results final _ others kept => ?_
      exact .ok (by simpa using ⟨met, others⟩) kept
    · intro step taken
      rcases mem_stepsAll_cons.mp taken with own | ⟨value, after, ended, taken⟩
      · exact first.begins step own
      · have held : envs after := by simpa [ended] using first.ends.env
        exact (later ended held).begins step taken

/-- What every step keeps, the evaluation keeps. -/
theorem runs_of_steps_keep {node : Node} {env : Env} (start : envs env)
    (kept : ∀ step ∈ node.steps env, step.Keeps envs values errors) :
    node.Runs envs values errors env := by
  induction node using induct_children generalizing env with
  | step node ih =>
    have inner : RunsAll envs values errors node.children env := by
      apply runsAll_of_each start
      · intro child inside env start kept
        exact ih child inside start kept
      · intro step taken
        exact kept step (by simp [steps_eq, taken])
    have own {operands : List Value} {after : Env}
        (ended : (Node.evalAll node.children).outcome env = (.ok operands, after)) :
        Step.Begins envs values ⟨node, operands, after⟩ := by
      have ends := ended ▸ inner.ends
      exact ⟨ends.env, ends.value operands rfl⟩
    constructor
    · rw [eval_eq]
      refine inner.ends.bind fun operands after ended _ _ => ?_
      refine kept ⟨node, operands, after⟩ ?_ (own ended)
      rw [steps_eq, List.mem_append, mem_ownStep]
      exact .inr ⟨rfl, ended⟩
    · intro step taken
      rw [steps_eq, List.mem_append, mem_ownStep] at taken
      rcases taken with taken | ⟨rfl, ended⟩
      · exact inner.begins step taken
      · exact own ended

theorem runsAll_of_steps_keep {nodes : List Node} {env : Env} (start : envs env)
    (kept : ∀ step ∈ stepsAll nodes env, step.Keeps envs values errors) :
    RunsAll envs values errors nodes env :=
  runsAll_of_each start (fun _ _ _ start kept => runs_of_steps_keep start kept) kept

end Node

end Run

namespace Node

theorem length_of_evalAll_eq_ok {nodes : List Node} {env after : Env} {results : List Value}
    (ended : (Node.evalAll nodes).outcome env = (.ok results, after)) :
    results.length = nodes.length := by
  induction nodes generalizing env results with
  | nil =>
    cases ended
    rfl
  | cons node nodes ih =>
    rw [outcome_evalAll_cons] at ended
    rcases first : node.eval.outcome env with ⟨_ | _, middle⟩ <;> rw [first] at ended
    · cases ended
    · rcases rest : (Node.evalAll nodes).outcome middle with ⟨_ | _, final⟩ <;>
        simp only [rest] at ended
      · cases ended
      · cases ended
        simp [ih rest]

theorem exists_of_mem_stepsAll {nodes : List Node} {env : Env} {step : Step}
    (taken : step ∈ stepsAll nodes env) : ∃ node ∈ nodes, ∃ start, step ∈ node.steps start := by
  induction nodes generalizing env with
  | nil => simp [stepsAll] at taken
  | cons node nodes ih =>
    rcases mem_stepsAll_cons.mp taken with own | ⟨_, after, _, later⟩
    · exact ⟨node, List.mem_cons_self, env, own⟩
    · obtain ⟨other, member, start, taken⟩ := ih later
      exact ⟨other, List.mem_cons_of_mem node member, start, taken⟩

/-- Every step is the step of a node inside, with a value for each of its children. -/
theorem inside_of_mem_steps {node : Node} {env : Env} {step : Step} (taken : step ∈ node.steps env) :
    step.node.Inside node ∧ step.operands.length = step.node.children.length := by
  induction node using induct_children generalizing env with
  | step node ih =>
    rw [steps_eq, List.mem_append, mem_ownStep] at taken
    rcases taken with taken | ⟨rfl, ended⟩
    · obtain ⟨child, isChild, start, taken⟩ := exists_of_mem_stepsAll taken
      obtain ⟨deeper, counted⟩ := ih child isChild taken
      exact ⟨.child isChild deeper, counted⟩
    · exact ⟨.self _, length_of_evalAll_eq_ok ended⟩

end Node

end Tacit
