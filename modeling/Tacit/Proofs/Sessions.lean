import Tacit.Proofs.Steps
import Tacit.Session

/-! Sessions: source texts submitted one after the other, whether they fail or not. What every step of
their evaluation keeps holds of every result, of every error and of the environment at the end. -/
namespace Tacit

/-- How each submission ends, and the environment that they leave. -/
def session : List String → Env → List (Except Failure (Option Value)) × Env
  | [], env => ([], env)
  | source :: sources, env =>
    let (ending, after) := submit source env
    let (endings, final) := session sources after
    (ending :: endings, final)

/-- The steps of a submission; a text that is no program has none. -/
def submissionSteps (source : String) (env : Env) : List Step :=
  (yielded (readProgram defaultLimit source)).flatMap fun program => Node.stepsAll program env

def sessionSteps : List String → Env → List Step
  | [], _ => []
  | source :: sources, env =>
    submissionSteps source env ++ sessionSteps sources (submit source env).2

theorem readProgram_eq_ok {limit : Nat} {source : String} {program : List Node} :
    readProgram limit source = .ok program ↔ ∃ tokens, scan source = .ok tokens ∧ parse limit tokens = .ok program := by
  simp only [readProgram, bind_eq_ok, mapError_eq_ok]

theorem readProgram_ne_running (limit : Nat) (source : String) (e : RuntimeError) :
    readProgram limit source ≠ .error (.running e) := by
  intro failed
  rcases bind_eq_error.mp failed with scanning | ⟨tokens, _, parsing⟩
  · cases result : scan source <;> rw [result] at scanning <;> cases scanning
  · cases result : parse limit tokens <;> rw [result] at parsing <;> cases parsing

theorem submit_of_readProgram {source : String} {program : List Node}
    (isRead : readProgram defaultLimit source = .ok program) (start : Env) :
    submit source start =
      (((Node.evalAll program).outcome start).1.map List.getLast? |>.mapError .running,
        ((Node.evalAll program).outcome start).2) := by
  have outcome : (evalProgram program).outcome start =
      (((Node.evalAll program).outcome start).1.map List.getLast?,
        ((Node.evalAll program).outcome start).2) := by
    rw [evalProgram, Eval.outcome_bind]
    rcases (Node.evalAll program).outcome start with ⟨_ | results, after⟩ <;> rfl
  rw [Eval.outcome] at outcome
  simp [submit, submitWithLimit, isRead, runProgram, outcome]

/-- Every step of a session is the step of a node in one of the programs, with a value for each of its
children. -/
theorem program_of_mem_sessionSteps {sources : List String} {env : Env} {step : Step}
    (taken : step ∈ sessionSteps sources env) :
    ∃ source ∈ sources, ∃ program, readProgram defaultLimit source = .ok program ∧
      ∃ node ∈ program, step.node.Inside node ∧
        step.operands.length = step.node.children.length := by
  induction sources generalizing env with
  | nil => simp [sessionSteps] at taken
  | cons source sources ih =>
    rcases List.mem_append.mp taken with own | later
    · obtain ⟨program, isRead, taken⟩ := List.mem_flatMap.mp own
      obtain ⟨node, member, start, taken⟩ := Node.exists_of_mem_stepsAll taken
      exact ⟨source, List.mem_cons_self, program, mem_yielded.mp isRead, node, member,
        Node.inside_of_mem_steps taken⟩
    · obtain ⟨other, member, rest⟩ := ih later
      exact ⟨other, List.mem_cons_of_mem source member, rest⟩

section Run

variable (envs : Env → Prop) (values : Value → Prop) (errors : RuntimeError → Prop)

/-- A submission ends as demanded, and every step of it begins so. -/
structure SubmissionRuns (source : String) (start : Env) : Prop where
  value : ∀ v, (submit source start).1 = .ok (some v) → values v
  error : ∀ e, (submit source start).1 = .error (.running e) → errors e
  env : envs (submit source start).2
  begins : ∀ step ∈ submissionSteps source start, step.Begins envs values

structure SessionRuns (sources : List String) (start : Env) : Prop where
  value : ∀ v, .ok (some v) ∈ (session sources start).1 → values v
  error : ∀ e, .error (.running e) ∈ (session sources start).1 → errors e
  env : envs (session sources start).2
  begins : ∀ step ∈ sessionSteps sources start, step.Begins envs values

variable {envs values errors}

theorem submissionRuns_of_steps_keep {source : String} {start : Env} (held : envs start)
    (kept : ∀ step ∈ submissionSteps source start, step.Keeps envs values errors) :
    SubmissionRuns envs values errors source start := by
  unfold submissionSteps at kept
  cases isRead : readProgram defaultLimit source with
  | error failure =>
    have ended : submit source start = (.error failure, start) := by
      simp [submit, submitWithLimit, isRead]
    constructor
    · simp [ended]
    · intro e same
      simp only [ended, Except.error.injEq] at same
      exact (readProgram_ne_running _ _ e (same ▸ isRead)).elim
    · simpa [ended] using held
    · simp [submissionSteps, isRead, yielded]
  | ok program =>
    have runs : Node.RunsAll envs values errors program start := by
      apply Node.runsAll_of_steps_keep held
      simpa [isRead, yielded] using kept
    have ended := submit_of_readProgram isRead start
    constructor
    · intro v same
      rw [ended] at same
      cases result : ((Node.evalAll program).outcome start).1 with
      | error e => simp [result, Except.map, Except.mapError] at same
      | ok results =>
        have last : results.getLast? = some v := by
          simpa [result, Except.map, Except.mapError] using same
        exact runs.ends.value results result v (List.mem_of_getLast? last)
    · intro e same
      rw [ended] at same
      cases result : ((Node.evalAll program).outcome start).1 with
      | error e' =>
        have sameError : e' = e := by simpa [result, Except.map, Except.mapError] using same
        exact runs.ends.error e (sameError ▸ result)
      | ok results => simp [result, Except.map, Except.mapError] at same
    · rw [ended]
      exact runs.ends.env
    · simpa [submissionSteps, isRead, yielded] using runs.begins

/-- What every step keeps, a session keeps. -/
theorem sessionRuns_of_steps_keep {sources : List String} {start : Env} (held : envs start)
    (kept : ∀ step ∈ sessionSteps sources start, step.Keeps envs values errors) :
    SessionRuns envs values errors sources start := by
  induction sources generalizing start with
  | nil => exact ⟨by simp [session], by simp [session], held, by simp [sessionSteps]⟩
  | cons source sources ih =>
    have first : SubmissionRuns envs values errors source start := by
      apply submissionRuns_of_steps_keep held
      intro step taken
      exact kept step (List.mem_append_left _ taken)
    have rest : SessionRuns envs values errors sources (submit source start).2 := by
      apply ih first.env
      intro step taken
      exact kept step (List.mem_append_right _ taken)
    constructor
    · intro v member
      rcases List.mem_cons.mp member with same | member
      · exact first.value v same.symm
      · exact rest.value v member
    · intro e member
      rcases List.mem_cons.mp member with same | member
      · exact first.error e same.symm
      · exact rest.error e member
    · exact rest.env
    · intro step taken
      rcases List.mem_append.mp taken with own | later
      · exact first.begins step own
      · exact rest.begins step later

end Run

end Tacit
