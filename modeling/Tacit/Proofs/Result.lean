import Mathlib.Data.List.Forall2
import Tacit.Fault

/-! Computations that may fail, one after the other: when a sequence of them succeeds and with what,
and which of them a failure comes from. -/
namespace Tacit

variable {ε α β γ : Type}

@[simp] theorem pure_eq_ok {a b : α} : (pure a : Except ε α) = .ok b ↔ a = b := by
  simp [pure, Except.pure]

@[simp] theorem pure_eq_error {a : α} {e : ε} : (pure a : Except ε α) = .error e ↔ False := by
  simp [pure, Except.pure]

@[simp] theorem throw_eq_ok {e : ε} {a : α} : (throw e : Except ε α) = .ok a ↔ False := by
  simp [throw, throwThe, MonadExceptOf.throw]

theorem bind_eq_ok {x : Except ε α} {f : α → Except ε β} {b : β} :
    x >>= f = .ok b ↔ ∃ a, x = .ok a ∧ f a = .ok b := by
  cases x <;> simp [bind, Except.bind]

theorem bind_eq_error {x : Except ε α} {f : α → Except ε β} {e : ε} :
    x >>= f = .error e ↔ x = .error e ∨ ∃ a, x = .ok a ∧ f a = .error e := by
  cases x <;> simp [bind, Except.bind]

theorem map_eq_ok {f : α → β} {x : Except ε α} {b : β} :
    f <$> x = .ok b ↔ ∃ a, x = .ok a ∧ f a = b := by
  cases x <;> simp [Functor.map, Except.map]

theorem map_eq_error {f : α → β} {x : Except ε α} {e : ε} :
    f <$> x = .error e ↔ x = .error e := by
  cases x <;> simp [Functor.map, Except.map]

theorem mapError_eq_ok {ε' : Type} {f : ε → ε'} {x : Except ε α} {a : α} :
    x.mapError f = .ok a ↔ x = .ok a := by
  cases x <;> simp [Except.mapError]

theorem mapM_eq_ok {f : α → Except ε β} {xs : List α} {ys : List β} :
    xs.mapM f = .ok ys ↔ List.Forall₂ (fun x y => f x = .ok y) xs ys := by
  induction xs generalizing ys with
  | nil => simp [pure, Except.pure, eq_comm]
  | cons x xs ih =>
    simp only [List.mapM_cons, bind_eq_ok, ih, List.forall₂_cons_left_iff]
    constructor
    · rintro ⟨y, first, ys', others, same⟩
      cases same
      exact ⟨y, ys', first, others, rfl⟩
    · rintro ⟨y, ys', first, others, rfl⟩
      exact ⟨y, first, ys', others, rfl⟩

theorem mapM_eq_ok_congr {f g : α → Except ε β} {xs : List α} {ys : List β}
    (each : ∀ x ∈ xs, ∀ y, f x = .ok y ↔ g x = .ok y) : xs.mapM f = .ok ys ↔ xs.mapM g = .ok ys := by
  induction xs generalizing ys with
  | nil => rfl
  | cons x xs ih =>
    obtain ⟨first, others⟩ := List.forall_mem_cons.mp each
    simp only [List.mapM_cons, bind_eq_ok, first, ih others]

/-- A sequence succeeds when each of its inputs does. -/
theorem exists_mapM_eq_ok_iff {f : α → Except ε β} {xs : List α} :
    (∃ ys, xs.mapM f = .ok ys) ↔ ∀ x ∈ xs, ∃ y, f x = .ok y := by
  induction xs with
  | nil => simp
  | cons x xs ih =>
    simp only [List.forall_mem_cons, ← ih, List.mapM_cons, bind_eq_ok, pure_eq_ok]
    constructor
    · rintro ⟨_, y, first, ys, others, -⟩
      exact ⟨⟨y, first⟩, ys, others⟩
    · rintro ⟨⟨y, first⟩, ys, others⟩
      exact ⟨_, y, first, ys, others, rfl⟩

theorem getElem?_of_mapM_eq_ok {f : α → Except ε β} {xs : List α} {ys : List β} {i : Nat} {x : α}
    (mapped : xs.mapM f = .ok ys) (isInput : xs[i]? = some x) : ∃ y, ys[i]? = some y ∧ f x = .ok y := by
  obtain ⟨count, each⟩ := List.forall₂_iff_get.mp (mapM_eq_ok.mp mapped)
  obtain ⟨inside, rfl⟩ := List.getElem?_eq_some_iff.mp isInput
  exact ⟨_, List.getElem?_eq_getElem (count ▸ inside), each i inside (count ▸ inside)⟩

/-- The results of a successful sequence are as many as its inputs, and each is what one of them
gives. -/
theorem forall_of_mapM_eq_ok {f : α → Except ε β} {xs : List α} {ys : List β} {P : β → Prop}
    (mapped : xs.mapM f = .ok ys) (each : ∀ x ∈ xs, ∀ y, f x = .ok y → P y) :
    ys.length = xs.length ∧ ∀ y ∈ ys, P y := by
  have pairs := mapM_eq_ok.mp mapped
  refine ⟨pairs.length_eq.symm, ?_⟩
  clear mapped
  induction pairs with
  | nil => simp
  | cons first _ ih =>
    rintro y (_ | ⟨_, member⟩)
    · exact each _ List.mem_cons_self _ first
    · exact ih (fun x member => each x (List.mem_cons_of_mem _ member)) y member

/-- What a computation yields, if it yields anything. -/
def yielded : Except ε α → List α
  | .ok a => [a]
  | .error _ => []

@[simp] theorem mem_yielded {outcome : Except ε α} {a : α} :
    a ∈ yielded outcome ↔ outcome = .ok a := by
  cases outcome <;> simp [yielded, eq_comm]

/-- The inputs that a sequence gets to: all up to the first one that fails. -/
def untilFailure (f : α → Except ε β) : List α → List α
  | [] => []
  | x :: xs => x :: (yielded (f x)).flatMap fun _ => untilFailure f xs

theorem mem_of_mem_untilFailure {f : α → Except ε β} {xs : List α} {x : α}
    (reached : x ∈ untilFailure f xs) : x ∈ xs := by
  induction xs with
  | nil => exact reached
  | cons head tail ih =>
    rcases List.mem_cons.mp reached with rfl | later
    · exact List.mem_cons_self
    · obtain ⟨_, _, later⟩ := List.mem_flatMap.mp later
      exact List.mem_cons_of_mem head (ih later)

theorem untilFailure_of_mapM_eq_ok {f : α → Except ε β} {xs : List α} {ys : List β}
    (mapped : xs.mapM f = .ok ys) : untilFailure f xs = xs := by
  have pairs := mapM_eq_ok.mp mapped
  clear mapped
  induction pairs with
  | nil => rfl
  | cons first _ ih => simp [untilFailure, yielded, first, ih]

/-- A sequence fails with what the last input it gets to fails with. -/
theorem mapM_eq_error {f : α → Except ε β} {xs : List α} {e : ε} (failed : xs.mapM f = .error e) :
    ∃ x ∈ untilFailure f xs, f x = .error e := by
  induction xs with
  | nil => simp at failed
  | cons x xs ih =>
    simp only [List.mapM_cons, bind_eq_error, pure_eq_error] at failed
    rcases failed with first | ⟨y, first, later | ⟨_, _, impossible⟩⟩
    · exact ⟨x, List.mem_cons_self, first⟩
    · obtain ⟨x', reached, failed⟩ := ih later
      exact ⟨x', by simp [untilFailure, yielded, first, reached], failed⟩
    · exact impossible.elim

/-- A sequence fails with its first failure. -/
theorem split_of_mapM_eq_error {f : α → Except ε β} {xs : List α} {e : ε} (failed : xs.mapM f = .error e) :
    ∃ before x after, xs = before ++ x :: after ∧ (∀ y ∈ before, ∃ b, f y = .ok b) ∧ f x = .error e := by
  induction xs with
  | nil => simp at failed
  | cons x xs ih =>
    simp only [List.mapM_cons, bind_eq_error, pure_eq_error, and_false, exists_false, or_false] at failed
    rcases failed with first | ⟨b, passed, later⟩
    · exact ⟨[], x, xs, rfl, by simp, first⟩
    · obtain ⟨before, y, after, rfl, allPassed, failed⟩ := ih later
      exact ⟨x :: before, y, after, rfl, List.forall_mem_cons.mpr ⟨⟨b, passed⟩, allPassed⟩, failed⟩

/-- Where a computation fails, it fails with such an error. -/
def FailsOnly (P : ε → Prop) (x : Except ε α) : Prop := ∀ e, x = .error e → P e

section FailsOnly

variable {P : ε → Prop}

@[simp] theorem failsOnly_ok (a : α) : FailsOnly P (.ok a : Except ε α) := by
  rintro _ ⟨⟩

@[simp] theorem failsOnly_pure (a : α) : FailsOnly P (pure a : Except ε α) :=
  failsOnly_ok a

@[simp] theorem failsOnly_error {e : ε} : FailsOnly P (.error e : Except ε α) ↔ P e :=
  ⟨fun only => only e rfl, fun holds _ same => Except.error.inj same ▸ holds⟩

@[simp] theorem failsOnly_throw {e : ε} : FailsOnly P (throw e : Except ε α) ↔ P e :=
  failsOnly_error

@[simp] theorem failsOnly_bind {x : Except ε α} {f : α → Except ε β} :
    FailsOnly P (x >>= f) ↔ FailsOnly P x ∧ ∀ a, x = .ok a → FailsOnly P (f a) := by
  cases x <;> simp [bind, Except.bind]

@[simp] theorem failsOnly_map {f : α → β} {x : Except ε α} : FailsOnly P (f <$> x) ↔ FailsOnly P x := by
  cases x <;> simp [Functor.map, Except.map]

@[simp] theorem failsOnly_ite {c : Prop} [Decidable c] {x y : Except ε α} :
    FailsOnly P (if c then x else y) ↔ (c → FailsOnly P x) ∧ (¬ c → FailsOnly P y) := by
  by_cases holds : c <;> simp [holds]

theorem failsOnly_mapM {f : α → Except ε β} {xs : List α}
    (each : ∀ x ∈ untilFailure f xs, FailsOnly P (f x)) : FailsOnly P (xs.mapM f) := by
  intro e failed
  obtain ⟨x, reached, failed⟩ := mapM_eq_error failed
  exact each x reached e failed

end FailsOnly

end Tacit
