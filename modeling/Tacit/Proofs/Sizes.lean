import Tacit.Proofs.Evaluation
import Tacit.Proofs.Sessions

/-! The sizes of arrays. Whatever is evaluated, every array has as many elements as its shape
describes. -/
namespace Tacit

def Demand.wellFormed : Demand where
  array shape count := count = shape.size
  function _ := True

/-- Every array in the value, at any depth and in the constants of functions, has as many elements as
its shape describes. -/
def Value.WellFormed : Value → Prop := Value.Meets .wellFormed

def Env.WellFormed : Env → Prop := Env.Meets .wellFormed

namespace Shape

theorem eq_size_of_boundedSize {shape : Shape} {n : Nat} (bounded : shape.boundedSize = .ok n) :
    n = shape.size := by
  rw [boundedSize_eq] at bounded
  split at bounded <;> cases bounded
  rfl

theorem piece_eq_size {axis : Nat} {axes : Shape} {i : Nat} (inside : i < axis) :
    min (size axes) (size (axis :: axes) - i * size axes) = size axes := by
  have room : (i + 1) * size axes ≤ axis * size axes := Nat.mul_le_mul_right _ inside
  rw [Nat.succ_mul] at room
  rw [size_cons]
  omega

end Shape

/-- Cells of one shape have together as many elements as the shape of their stack describes. -/
theorem Grid.length_flatMap_data {α : Type} {shape : Shape} {cells : List (Grid α)}
    (same : ∀ cell ∈ cells, cell.data.length = shape.size) :
    (cells.flatMap Grid.data).length = Shape.size (cells.length :: shape) := by
  induction cells with
  | nil => simp
  | cons cell cells ih =>
    have first := same cell List.mem_cons_self
    have others := ih fun cell member => same cell (List.mem_cons_of_mem _ member)
    simp only [Shape.size_cons, List.flatMap_cons, List.length_append, List.length_cons,
      Nat.succ_mul] at *
    omega

theorem closed_wellFormed : Demand.wellFormed.Closed fun _ => True where
  bounded := Shape.eq_size_of_boundedSize
  flat _ := by simp [Demand.wellFormed]
  cell made inside := by
    rw [made]
    exact Shape.piece_eq_size inside
  vector _ := by simp [Demand.wellFormed]
  stacked _ same _ := Grid.length_flatMap_data fun cell member => (same cell member).2

theorem builds_wellFormed : Demand.wellFormed.Builds := by
  constructor <;> intros <;> trivial

/-- Evaluation of any node leaves values and environments well-formed, also where it fails; and so do
the primitives, the modifiers and the functions. -/
theorem wellFormed_of_evaluation :
    (∀ (node : Node) (env : Env), env.WellFormed →
      (∀ v, (node.eval.outcome env).1 = .ok v → v.WellFormed) ∧
        (node.eval.outcome env).2.WellFormed) ∧
    (∀ (primitive : Primitive) (args : List Value) (v : Value), (∀ arg ∈ args, arg.WellFormed) →
      primitive.apply args = .ok v → v.WellFormed) ∧
    (∀ (modifier : Modifier) (operand v : Value), operand.WellFormed →
      modifier.applyMonadic operand = .ok v → v.WellFormed) ∧
    (∀ (modifier : Modifier) (left right v : Value), left.WellFormed → right.WellFormed →
      modifier.applyDyadic left right = .ok v → v.WellFormed) ∧
    ∀ (fn : Fn) (args : List Value) (v : Value), (Value.function fn).WellFormed →
      (∀ arg ∈ args, arg.WellFormed) → fn.call args = .ok v → v.WellFormed := by
  refine ⟨fun node env held => ?_, fun primitive args v held yields => ?_,
    fun modifier operand v held yields => ?_, fun modifier left right v leftHeld rightHeld yields => ?_,
    fun fn args v function held yields => ?_⟩
  · have runs : node.Runs Env.WellFormed Value.WellFormed (fun _ => True) env :=
      Node.runs_of_steps_keep held fun step _ =>
        step.keeps_demand closed_wellFormed builds_wellFormed step.makesOnly_anything
    exact ⟨runs.ends.value, runs.ends.env⟩
  · exact Primitive.apply_meets closed_wellFormed held yields fun _ _ _ => trivial
  · exact Modifier.applyMonadic_meets builds_wellFormed held yields
  · exact Modifier.applyDyadic_meets closed_wellFormed builds_wellFormed leftHeld rightHeld
      (fun call _ => call.1.yieldsOnly_anything call.2) yields
  · exact Fn.call_meets closed_wellFormed (Value.meets_function.mp function).2 held
      (fn.yieldsOnly_anything args) yields

theorem wellFormed_of_stacked_strands :
    let row : Node := .strand [.character 'a' 1, .character 'b' 1] 1
    let node : Node := .binding "A" none (.array [row, row] 1) 1
    let matrix : Value :=
      .array ⟨[2, 2], [.character 'a', .character 'b', .character 'a', .character 'b']⟩
    (node.eval.outcome Env.empty).1 = .ok matrix ∧ matrix.WellFormed ∧
      (node.eval.outcome Env.empty).2.WellFormed ∧
      (Fn.scan (.primitive .left)).call [matrix] = .ok matrix := by
  intro row node matrix
  obtain ⟨values, envs⟩ := wellFormed_of_evaluation.1 node Env.empty Env.meets_empty
  have evaluated : (node.eval.outcome Env.empty).1 = .ok matrix := rfl
  exact ⟨evaluated, values matrix evaluated, envs, rfl⟩

/-! The limit on sizes counts the axes that are not empty. It is checked where an array is made by a
primitive, but not where elements or cells are put together. -/

namespace Shape

/-- The check of a size accepts the shape: the product of its axes that are not empty is within the
limit. -/
def Within (shape : Shape) : Prop := size (shape.filter (· ≠ 0)) ≤ sizeLimit

instance (shape : Shape) : Decidable shape.Within := inferInstanceAs (Decidable (_ ≤ _))

theorem within_of_boundedSize {shape : Shape} {n : Nat} (bounded : shape.boundedSize = .ok n) :
    shape.Within := by
  rw [boundedSize_eq] at bounded
  split at bounded
  · assumption
  · cases bounded

theorem boundedSize_of_within {shape : Shape} (within : shape.Within) : shape.boundedSize = .ok shape.size :=
  (boundedSize_eq shape).trans (if_pos within)

/-- Empty axes only make a shape smaller. -/
theorem size_le_size_filter (shape : Shape) : shape.size ≤ size (shape.filter (· ≠ 0)) := by
  induction shape with
  | nil => simp
  | cons axis axes ih =>
    by_cases empty : axis = 0
    · simp [empty]
    · simpa [empty] using Nat.mul_le_mul_left axis ih

theorem size_filter_pos (shape : Shape) : 0 < size (shape.filter (· ≠ 0)) := by
  have proper : size (shape.filter (· ≠ 0)) ≠ 0 := by
    simp [size_eq_zero_iff]
  omega

/-- The frames and the cells of an array within the limit are within it. -/
theorem Within.of_append {frame cell : Shape} (within : Within (frame ++ cell)) :
    frame.Within ∧ cell.Within := by
  unfold Within at *
  rw [List.filter_append, size_append] at within
  have frameProper := size_filter_pos frame
  have cellProper := size_filter_pos cell
  exact ⟨Nat.le_trans (Nat.le_mul_of_pos_right _ cellProper) within,
    Nat.le_trans (Nat.le_mul_of_pos_left _ frameProper) within⟩

theorem Within.tail {axis : Nat} {axes : Shape} (within : Within (axis :: axes)) : axes.Within :=
  (Within.of_append (show Within ([axis] ++ axes) from within)).2

theorem Within.size_le {shape : Shape} (within : shape.Within) : shape.size ≤ sizeLimit :=
  Nat.le_trans (size_le_size_filter shape) within

theorem within_singleton {n : Nat} (bound : n ≤ sizeLimit) : Within [n] := by
  by_cases empty : n = 0
  · simp [Within, empty, sizeLimit]
  · simpa [Within, empty] using bound

end Shape

def Demand.limited : Demand where
  array shape count := count = shape.size ∧ shape.Within
  function _ := True

def Value.Limited : Value → Prop := Value.Meets .limited

def Env.Limited : Env → Prop := Env.Meets .limited

def Value.axes? : Value → Option Shape
  | array grid => some grid.shape
  | _ => none

theorem Value.Limited.within {value : Value} {shape : Shape} (limited : value.Limited)
    (isShape : value.axes? = some shape) : shape.Within := by
  cases value with
  | array grid =>
    cases isShape
    exact (Value.meets_array.mp limited).1.2
  | number | character | function => cases isShape

theorem closed_limited : Demand.limited.Closed fun grid => grid.shape.Within where
  bounded made := ⟨Shape.eq_size_of_boundedSize made, Shape.within_of_boundedSize made⟩
  flat made := by
    obtain ⟨rfl, within⟩ := made
    exact ⟨by simp, Shape.within_singleton within.size_le⟩
  cell made inside := by
    obtain ⟨rfl, within⟩ := made
    exact ⟨Shape.piece_eq_size inside, within.tail⟩
  vector fits := ⟨by simp, fits⟩
  stacked _ same fits := ⟨Grid.length_flatMap_data fun cell member => (same cell member).2.1, fits⟩

theorem builds_limited : Demand.limited.Builds := by
  constructor <;> intros <;> trivial

/-- A value that a session yields on its way: in a step, or in a call made on behalf of one. -/
def SessionYields (sources : List String) (v : Value) : Prop :=
  ∃ step ∈ sessionSteps sources Env.empty, step.outcome.1 = .ok v ∨
    ∃ call ∈ step.calls, ∃ target reached,
      Fn.Reaches call.1 call.2 target reached ∧ target.call reached = .ok v

/-- Where only allowed arrays are made without a check, a session yields limited values only. -/
theorem limited_of_sessionYields {sources : List String}
    (only : ∀ step ∈ sessionSteps sources Env.empty, step.MakesOnly fun grid => grid.shape.Within)
    (runs : SessionRuns Env.Limited Value.Limited (fun _ => True) sources Env.empty) {v : Value}
    (yields : SessionYields sources v) : v.Limited := by
  obtain ⟨step, taken, yields | ⟨call, made, target, reached, reaches, yields⟩⟩ := yields
  · have ends := step.keeps_demand closed_limited builds_limited (only step taken)
      (runs.begins step taken)
    exact ends.value v yields
  · obtain ⟨constants, held⟩ := Step.calls_meet (runs.begins step taken).operands call made
    obtain ⟨constants, held, fits⟩ := reaches.meets closed_limited constants held
      ((only step taken).called call made)
    exact Fn.call_meets closed_limited constants held fits yields

/-- Over a whole session, every array in every value that is yielded on the way, in every result and
in the environment is within the limit exactly when the arrays that are made without a check are:
texts, strands, lists, stacked arrays, the shapes of arrays, and scans. A shape within the limit has
only frames and cells whose sizes are within it. -/
theorem limited_iff_makesOnly (sources : List String) :
    ((∀ v, SessionYields sources v → v.Limited) ∧
        (∀ v, .ok (some v) ∈ (session sources Env.empty).1 → v.Limited) ∧
        (session sources Env.empty).2.Limited ↔
      ∀ step ∈ sessionSteps sources Env.empty, step.MakesOnly fun grid => grid.shape.Within) ∧
    ∀ (frame cell : Shape), (frame ++ cell).Within →
      frame.size ≤ Shape.sizeLimit ∧ cell.size ≤ Shape.sizeLimit := by
  refine ⟨⟨fun ⟨limited, _⟩ step taken => ?_, fun only => ?_⟩, fun frame cell within => ?_⟩
  · constructor
    · intro _ grid yields
      have made := limited (.array grid) ⟨step, taken, .inl yields⟩
      exact made.within rfl
    · intro call isCall target reached reaches _ grid yields
      have made := limited (.array grid)
        ⟨step, taken, .inr ⟨call, isCall, target, reached, reaches, yields⟩⟩
      exact made.within rfl
  · have runs : SessionRuns Env.Limited Value.Limited (fun _ => True) sources Env.empty :=
      sessionRuns_of_steps_keep Env.meets_empty fun step taken =>
        step.keeps_demand closed_limited builds_limited (only step taken)
    exact ⟨fun v => limited_of_sessionYields only runs, runs.value, runs.env⟩
  · obtain ⟨ofFrame, ofCell⟩ := Shape.Within.of_append within
    exact ⟨ofFrame.size_le, ofCell.size_le⟩

/-- Two arrays without elements, stacked, make an array beyond the limit. -/
theorem not_limited_of_stacked_empties :
    ¬ ∀ sources : List String,
      (∀ v, .ok (some v) ∈ (session sources Env.empty).1 → v.Limited) ∧
        (session sources Env.empty).2.Limited := by
  intro limited
  have ran : (session ["X ← 0‿16777216 ⍴ 1 ⋄ [X ⋄ X]"] Env.empty).1.map (fun ending =>
      ending.toOption.join.bind Value.axes?) = [some [2, 0, 16777216]] := by
    decide +kernel
  obtain ⟨ending, isEnding, shape⟩ := List.map_eq_singleton_iff.mp ran
  obtain ⟨v, isValue, isShape⟩ := Option.bind_eq_some_iff.mp shape
  have yields : ending = .ok (some v) := by
    rcases ending with _ | _ | _ <;> simp_all [Except.toOption]
  have made := (limited ["X ← 0‿16777216 ⍴ 1 ⋄ [X ⋄ X]"]).1 v (by simp [isEnding, yields])
  exact absurd (made.within isShape) (by decide)

end Tacit
