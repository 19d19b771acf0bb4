import Tacit.Value

/-! Environments: the values that names are bound to. -/
namespace Tacit

structure Env where
  bindings : List (String × Value)

namespace Env

def empty : Env := ⟨[]⟩

def get? (env : Env) (name : String) : Option Value := env.bindings.lookup name

/-- Binds a name, in place of what it was bound to before. -/
def insert (env : Env) (name : String) (value : Value) : Env :=
  ⟨(name, value) :: env.bindings.filter (·.1 ≠ name)⟩

@[simp] theorem get?_empty (name : String) : empty.get? name = none := rfl

@[simp] theorem get?_insert_self (env : Env) (name : String) (value : Value) :
    (env.insert name value).get? name = some value := by
  simp [get?, insert]

theorem lookup_filter_ne {name other : String} (distinct : other ≠ name)
    (bindings : List (String × Value)) :
    (bindings.filter (·.1 ≠ name)).lookup other = bindings.lookup other := by
  induction bindings with
  | nil => rfl
  | cons entry bindings ih =>
    obtain ⟨key, value⟩ := entry
    by_cases same : key = name
    · subst same
      have differs : (other == key) = false := by simpa using distinct
      simpa [List.lookup_cons, differs] using ih
    · have kept : decide (key ≠ name) = true := by simpa using same
      simp only [List.filter_cons, kept, ↓reduceIte, List.lookup_cons, ih]

theorem get?_insert_of_ne (env : Env) {name other : String} (distinct : other ≠ name)
    (value : Value) : (env.insert name value).get? other = env.get? other := by
  have differs : (other == name) = false := by simpa using distinct
  simp only [get?, insert, List.lookup_cons, differs]
  exact lookup_filter_ne distinct env.bindings

end Env

end Tacit
