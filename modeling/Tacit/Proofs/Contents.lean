import Tacit.Env

/-! What a value holds. A demand says which arrays, by their shapes and numbers of elements, and which
functions may occur in a value; a value meets it when all it holds is as demanded: the value itself,
the elements of arrays at any depth, and the constants captured by functions. -/
namespace Tacit

structure Demand where
  array : Shape → Nat → Prop
  function : Fn → Prop

mutual

def Value.Meets (demand : Demand) : Value → Prop
  | .number _ => True
  | .character _ => True
  | .array ⟨shape, data⟩ => demand.array shape data.length ∧ Value.AllMeet demand data
  | .function fn => demand.function fn ∧ fn.ConstantsMeet demand

def Value.AllMeet (demand : Demand) : List Value → Prop
  | [] => True
  | value :: values => value.Meets demand ∧ Value.AllMeet demand values

/-- The constants in a function meet a demand; the function need not be a value that does. -/
def Fn.ConstantsMeet (demand : Demand) : Fn → Prop
  | .primitive _ => True
  | .constant value => value.Meets demand
  | .each fn | .backwards fn | .selfApply fn | .reduce fn | .scan fn => fn.ConstantsMeet demand
  | .atop outer inner | .over outer inner => outer.ConstantsMeet demand ∧ inner.ConstantsMeet demand
  | .fork left center right =>
    left.ConstantsMeet demand ∧ center.ConstantsMeet demand ∧ right.ConstantsMeet demand

end

/-- Every name is bound to a value that meets the demand, or to none. -/
def Env.Meets (demand : Demand) (env : Env) : Prop :=
  ∀ name value, env.get? name = some value → value.Meets demand

namespace Value

/-- Induction on the nesting of arrays: an array may be assumed to have the property in all its
elements. -/
@[elab_as_elim]
theorem induct_elements {P : Value → Prop} (number : ∀ x, P (.number x))
    (character : ∀ c, P (.character c)) (function : ∀ fn, P (.function fn))
    (array : ∀ grid : Grid Value, (∀ x ∈ grid.data, P x) → P (.array grid)) (value : Value) :
    P value :=
  match value with
  | .number x => number x
  | .character c => character c
  | .function fn => function fn
  | .array ⟨shape, data⟩ =>
    array ⟨shape, data⟩ fun x _ => induct_elements number character function array x

variable {demand : Demand}

@[simp] theorem meets_number (x : Float) : (number x).Meets demand := by simp [Meets]

@[simp] theorem meets_character (c : Char) : (character c).Meets demand := by simp [Meets]

@[simp] theorem meets_ofBool (b : Bool) : (ofBool b).Meets demand := meets_number _

theorem allMeet_iff {values : List Value} :
    AllMeet demand values ↔ ∀ value ∈ values, value.Meets demand := by
  induction values with
  | nil => simp [AllMeet]
  | cons value values ih => simp [AllMeet, ih]

theorem meets_array {grid : Grid Value} :
    (array grid).Meets demand ↔
      demand.array grid.shape grid.data.length ∧ ∀ value ∈ grid.data, value.Meets demand := by
  rw [Meets, allMeet_iff]

theorem meets_function {fn : Fn} :
    (function fn).Meets demand ↔ demand.function fn ∧ fn.ConstantsMeet demand := by
  rw [Meets]

end Value

theorem Fn.constantsMeet_ofValue {demand : Demand} {value : Value} (meets : value.Meets demand) :
    (Fn.ofValue value).ConstantsMeet demand := by
  cases value with
  | function fn => exact (Value.meets_function.mp meets).2
  | array grid => simpa [Fn.ofValue, Fn.ConstantsMeet] using meets
  | number | character => simp [Fn.ofValue, Fn.ConstantsMeet]

namespace Env

variable {demand : Demand}

@[simp] theorem meets_empty : empty.Meets demand := by simp [Meets]

theorem Meets.insert {env : Env} (held : env.Meets demand) (name : String) {value : Value}
    (meets : value.Meets demand) : (env.insert name value).Meets demand := by
  intro other found present
  by_cases same : other = name
  · subst other
    rw [get?_insert_self] at present
    cases present
    exact meets
  · rw [get?_insert_of_ne env same] at present
    exact held other found present

end Env

end Tacit
