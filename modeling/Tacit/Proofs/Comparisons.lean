import Tacit.Proofs.Leaves
import Tacit.Proofs.Matching

/-! How the comparisons go together. The four orderings of two leaves are read off one order, and two equalities off
one equality, so the comparisons come in pairs that fail alike and answer oppositely, and the order of two leaves
is turned around with them. Carried into arrays, this holds leaf by leaf. Equality and order differ in one case
only: a NaN stands level with a NaN, but is not equal to it. -/
namespace Tacit

/-- Two computations that fail alike or yield results that are related. -/
inductive Concurs {α β : Type} (related : α → β → Prop) : Result α → Result β → Prop where
  | failed (e : Fault) : Concurs related (.error e) (.error e)
  | yielded {a : α} {b : β} : related a b → Concurs related (.ok a) (.ok b)

section Concurs

variable {α β γ δ : Type}

theorem Concurs.bind {related : α → β → Prop} {results : γ → δ → Prop} {x : Result α} {y : Result β}
    {f : α → Result γ} {g : β → Result δ} (first : Concurs related x y)
    (next : ∀ a b, related a b → Concurs results (f a) (g b)) : Concurs results (x >>= f) (y >>= g) := by
  cases first with
  | failed e => exact .failed e
  | yielded holds => exact next _ _ holds

theorem concurs_mapM {related : β → γ → Prop} {f : α → Result β} {g : α → Result γ} {xs : List α}
    (each : ∀ x ∈ xs, Concurs related (f x) (g x)) :
    Concurs (List.Forall₂ related) (xs.mapM f) (xs.mapM g) := by
  induction xs with
  | nil => exact .yielded .nil
  | cons x xs ih =>
    obtain ⟨first, others⟩ := List.forall_mem_cons.mp each
    rw [List.mapM_cons, List.mapM_cons]
    apply first.bind
    intro a b head
    apply (ih others).bind
    intro as bs tail
    exact .yielded (.cons head tail)

end Concurs

theorem Value.at?_cons_of_plain {value : Value} (plain : value.isArray = false) (i : Nat) (place : List Nat) :
    value.at? (i :: place) = none := by
  cases value <;> cases plain <;> simp [at?]

def Value.isNaN : Value → Bool
  | .number x => Number.isNaN x
  | _ => false

namespace Pervasion

section Alike

variable {op op' : Value → Value → Result Value} {x y : Value}

/-- Operations that concur on leaves concur on all values, if arrays are related whenever their elements are. -/
theorem concurs_dyadic {related : Value → Value → Prop}
    (arrays : ∀ shape zs ws, List.Forall₂ related zs ws → related (.array ⟨shape, zs⟩) (.array ⟨shape, ws⟩))
    (leaf : ∀ l r, Concurs related (op l r) (op' l r)) (left : x.WellFormed) (right : y.WellFormed) :
    Concurs related (dyadic op x y) (dyadic op' x y) := by
  induction x, y using induct_facing with
  | step x y ih =>
    cases faced : facing x y with
    | leaves =>
      rw [dyadic_of_leaves op faced, dyadic_of_leaves op' faced]
      exact leaf x y
    | apart shape other =>
      rw [dyadic_of_apart op faced, dyadic_of_apart op' faced]
      exact .failed _
    | framed shape pairs =>
      rw [dyadic_of_framed op left right faced, dyadic_of_framed op' left right faced]
      refine (concurs_mapM fun pair member => ?_).bind fun zs ws elements => .yielded (arrays shape zs ws elements)
      obtain ⟨leftInside, rightInside⟩ := wellFormed_of_framed left right faced member
      exact ih shape pairs faced pair.1 pair.2 member leftInside rightInside

def Facing.swap : Facing → Facing
  | leaves => leaves
  | apart left right => apart right left
  | framed shape pairs => framed shape (pairs.map Prod.swap)

theorem facing_swap (x y : Value) : facing y x = (facing x y).swap := by
  cases x with
  | array a =>
    cases y with
    | array b =>
      by_cases same : a.shape = b.shape
      · simp [facing, same, Facing.swap, List.zip_swap]
      · simp [facing, same, Ne.symm same, Facing.swap]
    | number | character | function => simp [facing, Facing.swap]
  | number | character | function => cases y <;> simp [facing, Facing.swap]

/-- Operations that give the same on leaves when the leaves change sides do so on all values. -/
theorem dyadic_swap (leaf : ∀ l r v, op l r = .ok v ↔ op' r l = .ok v) (left : x.WellFormed) (right : y.WellFormed)
    (z : Value) : dyadic op x y = .ok z ↔ dyadic op' y x = .ok z := by
  induction x, y using induct_facing generalizing z with
  | step x y ih =>
    have turned := facing_swap x y
    cases faced : facing x y with
    | leaves =>
      rw [faced] at turned
      rw [dyadic_of_leaves op faced, dyadic_of_leaves op' turned]
      exact leaf x y z
    | apart shape other =>
      rw [faced] at turned
      simp [dyadic_of_apart op faced, dyadic_of_apart op' turned]
    | framed shape pairs =>
      rw [faced] at turned
      -- Both descents enter the same pairs in the same order, one of them with each pair turned around.
      rw [dyadic_of_framed op left right faced, dyadic_of_framed op' right left turned, List.mapM_map]
      simp only [bind_eq_ok, pure_eq_ok]
      refine exists_congr fun data => and_congr_left fun _ => mapM_eq_ok_congr fun pair member v => ?_
      obtain ⟨leftInside, rightInside⟩ := wellFormed_of_framed left right faced member
      exact ih shape pairs faced pair.1 pair.2 member leftInside rightInside v

/-- An operation succeeds wherever another one does if it succeeds on all leaves that the other one does. -/
theorem exists_dyadic_eq_ok {z : Value} (leaf : ∀ l r v, op l r = .ok v → ∃ w, op' l r = .ok w) (left : x.WellFormed)
    (right : y.WellFormed) (yields : dyadic op x y = .ok z) : ∃ w, dyadic op' x y = .ok w := by
  cases ended : dyadic op' x y with
  | ok w => exact ⟨w, rfl⟩
  | error e =>
    obtain ⟨place, ⟨l, r, face, fails⟩, -⟩ := first_of_error left right ended
    obtain ⟨v, -, stands⟩ := stands_of_ok left right yields face
    -- Shapes that differ would have stopped the first operation as well, so the failure is that of a leaf.
    cases fails with
    | apart apart => exact absurd (.apart apart) (stands.not_fails _)
    | leaf faced failed =>
      cases stands with
      | frame framed => simp [faced] at framed
      | leaf _ yields =>
        obtain ⟨w, yields'⟩ := leaf l r v yields
        simp [failed] at yields'

theorem FaceAt.unique {place : List Nat} {l r l' r' : Value} (face : FaceAt x y place l r)
    (face' : FaceAt x y place l' r') : l = l' ∧ r = r' := by
  induction face with
  | here =>
    cases face'
    exact ⟨rfl, rfl⟩
  | inside framed isPair _ ih =>
    obtain _ | ⟨framed', isPair', face'⟩ := face'
    cases framed.symm.trans framed'
    cases isPair.symm.trans isPair'
    exact ih face'

/-- Whatever stands in the result stands where two values faced each other, if the operation makes no arrays. -/
theorem face_of_at? {z v : Value} {place : List Nat} (single : ∀ l r v, op l r = .ok v → v.isArray = false)
    (left : x.WellFormed) (right : y.WellFormed) (yields : dyadic op x y = .ok z) (found : z.at? place = some v) :
    ∃ l r, FaceAt x y place l r ∧ Stands op l r v := by
  induction place generalizing x y z with
  | nil =>
    obtain ⟨w, found', stands⟩ := stands_of_ok left right yields (.here x y)
    cases found.symm.trans found'
    exact ⟨x, y, .here x y, stands⟩
  | cons i place ih =>
    cases faced : facing x y with
    | leaves =>
      have plain := single x y z (dyadic_of_leaves op faced ▸ yields)
      rw [Value.at?_cons_of_plain plain] at found
      cases found
    | apart => simp [dyadic_of_apart op faced] at yields
    | framed shape pairs =>
      simp only [dyadic_of_framed op left right faced, bind_eq_ok, pure_eq_ok] at yields
      obtain ⟨data, mapped, rfl⟩ := yields
      obtain ⟨element, isElement, found⟩ := Option.bind_eq_some_iff.mp found
      have inside : i < pairs.length := by
        rw [(mapM_eq_ok.mp mapped).length_eq]
        exact (List.getElem?_eq_some_iff.mp isElement).1
      have isPair : pairs[i]? = some pairs[i] := List.getElem?_eq_getElem inside
      obtain ⟨leftInside, rightInside⟩ := wellFormed_of_framed left right faced (List.mem_of_getElem? isPair)
      obtain ⟨other, isOther, yields⟩ := getElem?_of_mapM_eq_ok mapped isPair
      cases isElement.symm.trans isOther
      obtain ⟨l, r, face, stands⟩ := ih leftInside rightInside yields found
      exact ⟨l, r, .inside faced isPair face, stands⟩

end Alike

end Pervasion

inductive OppositeAt : (left right : Option Value) → Prop where
  | nothing : OppositeAt none none
  | arrays {a b : Grid Value} : a.shape = b.shape → OppositeAt (some (.array a)) (some (.array b))
  | oneZero : OppositeAt (some (.number 1)) (some (.number 0))
  | zeroOne : OppositeAt (some (.number 0)) (some (.number 1))

/-- Two values of one nested structure, with a one in either of them where the other one has a zero. -/
def Value.Opposite (z w : Value) : Prop := ∀ place, OppositeAt (z.at? place) (w.at? place)

namespace Value

theorem ofBool_eq (b : Bool) : ofBool b = if b then number 1 else number 0 := by
  cases b <;> rfl

theorem number_zero_ne_one : number 0 ≠ number 1 := by
  have differ : (0 : Float) ≠ 1 := by decide +kernel
  simpa using differ

theorem ofBool_injective {a b : Bool} (same : ofBool a = ofBool b) : a = b := by
  rw [ofBool_eq, ofBool_eq] at same
  cases a <;> cases b
  · rfl
  · exact absurd same number_zero_ne_one
  · exact absurd same.symm number_zero_ne_one
  · rfl

theorem opposite_ofBool (b : Bool) : (ofBool b).Opposite (ofBool !b) := by
  intro place
  cases place with
  | nil =>
    rw [ofBool_eq, ofBool_eq]
    cases b
    · exact .zeroOne
    · exact .oneZero
  | cons i place =>
    rw [at?_cons_of_plain rfl, at?_cons_of_plain rfl]
    exact .nothing

theorem opposite_array (shape : Shape) (zs ws : List Value) (elements : List.Forall₂ Opposite zs ws) :
    (array ⟨shape, zs⟩).Opposite (array ⟨shape, ws⟩) := by
  intro place
  cases place with
  | nil => exact .arrays rfl
  | cons i place =>
    obtain ⟨count, each⟩ := List.forall₂_iff_get.mp elements
    by_cases inside : i < zs.length
    · have inside' : i < ws.length := count ▸ inside
      simpa [at?, inside, inside'] using each i inside inside' place
    · have beyond : ¬ i < ws.length := count ▸ inside
      simpa [at?, inside, beyond] using .nothing

end Value

namespace Number

theorem order_swap (x y : Float) : order y x = (order x y).swap := by
  unfold order
  cases position x <;> cases position y <;> simp [Int.compare_swap]

/-- Numbers are equal when they stand level, unless both are NaNs. -/
theorem equal_iff_order {x y : Float} :
    equal x y = true ↔ order x y = .eq ∧ ¬ (isNaN x = true ∧ isNaN y = true) := by
  simp only [← position_eq_none_iff, equal, order]
  cases position x <;> cases position y <;> simp

end Number

namespace Comparison

open Pervasion

theorem ordered_eq_ok {accept : Ordering → Bool} {l r v : Value} :
    ordered accept l r = .ok v ↔ ∃ o, order l r = .ok o ∧ .ofBool (accept o) = v := by
  simp only [ordered, bind_eq_ok, pure_eq_ok]

theorem order_swap {l r : Value} {o : Ordering} : order l r = .ok o ↔ order r l = .ok o.swap := by
  cases l with
  | number a =>
    cases r with
    | number b => simp [order, Number.order_swap a b, Ordering.swap_inj]
    | character | array | function => simp [order]
  | character c =>
    cases r with
    | character d => simp [order, ← Nat.compare_swap c.toNat, Ordering.swap_inj]
    | number | array | function => simp [order]
  | array | function => cases r <;> simp [order]

theorem ordered_swap {accept accept' : Ordering → Bool} (turned : ∀ o, accept' o.swap = accept o) (l r v : Value) :
    ordered accept l r = .ok v ↔ ordered accept' r l = .ok v := by
  simp only [ordered_eq_ok]
  constructor
  · rintro ⟨o, isOrder, rfl⟩
    exact ⟨o.swap, order_swap.mp isOrder, by rw [turned]⟩
  · rintro ⟨o, isOrder, rfl⟩
    refine ⟨o.swap, ?_, by rw [← turned, Ordering.swap_swap]⟩
    rwa [order_swap, Ordering.swap_swap]

theorem concurs_ordered {accept accept' : Ordering → Bool} (opposite : ∀ o, accept' o = !accept o) (l r : Value) :
    Concurs Value.Opposite (ordered accept l r) (ordered accept' l r) := by
  unfold ordered
  cases order l r with
  | error e => exact .failed e
  | ok o =>
    have answers := Value.opposite_ofBool (accept o)
    rw [← opposite o] at answers
    exact .yielded answers

/-- A comparison and its complement fail alike, or answer oppositely at every leaf. And two values that change sides
compare alike if the comparison is turned around with them. -/
theorem complements_and_mirrors {x y : Value} (left : x.WellFormed) (right : y.WellFormed) :
    Concurs Value.Opposite (Primitive.greater.applyDyadic x y) (Primitive.lessEqual.applyDyadic x y) ∧
    Concurs Value.Opposite (Primitive.less.applyDyadic x y) (Primitive.greaterEqual.applyDyadic x y) ∧
    Concurs Value.Opposite (Primitive.equal.applyDyadic x y) (Primitive.notEqual.applyDyadic x y) ∧
    (∀ z, Primitive.less.applyDyadic x y = .ok z ↔ Primitive.greater.applyDyadic y x = .ok z) ∧
    ∀ z, Primitive.lessEqual.applyDyadic x y = .ok z ↔ Primitive.greaterEqual.applyDyadic y x = .ok z := by
  have complements {accept accept' : Ordering → Bool} (opposite : ∀ o, accept' o = !accept o) :
      Concurs Value.Opposite (dyadic (ordered accept) x y) (dyadic (ordered accept') x y) :=
    concurs_dyadic Value.opposite_array (concurs_ordered opposite) left right
  refine ⟨complements ?_, complements ?_, ?_, ?_, ?_⟩
  · rintro (_ | _ | _) <;> rfl
  · rintro (_ | _ | _) <;> rfl
  · exact concurs_dyadic Value.opposite_array (fun l r => .yielded (Value.opposite_ofBool (equal l r))) left right
  · exact dyadic_swap (ordered_swap fun o => by cases o <;> rfl) left right
  · exact dyadic_swap (ordered_swap fun o => by cases o <;> rfl) left right

theorem complements_and_mirrors_of_rows :
    let row (xs : List Value) : Value := .array (Grid.vector xs)
    let x := row [.number (0 / 0), row [.number 1, .number 2], .character 'a']
    let y := row [.number 1, .number 2, .character 'b']
    let w := row [.number 0, row [.number 1, .number 1], .number 1]
    x.WellFormed ∧ y.WellFormed ∧ Primitive.lessEqual.applyDyadic x y = .ok w ∧
      Primitive.greaterEqual.applyDyadic y x = .ok w ∧
      ∃ z, Primitive.greater.applyDyadic x y = .ok z ∧ z.Opposite w := by
  intro row x y w
  obtain ⟨left, right⟩ : x.WellFormed ∧ y.WellFormed := by
    simp [x, y, row, Value.WellFormed, Value.Meets, Value.AllMeet, Demand.wellFormed, Grid.vector]
  have orders : Number.order (0 / 0) 1 = .gt ∧ Number.order 1 2 = .lt ∧ Number.order 2 2 = .eq := by decide +kernel
  have yields : Primitive.lessEqual.applyDyadic x y = .ok w := by
    simp [x, y, w, row, Grid.vector, Primitive.applyDyadic, Primitive.scalarDyadic?, dyadic, dyadicPairs, dyadicLeft,
      monadic, ordered, order, orders]
    rfl
  obtain ⟨complement, -, -, -, mirror⟩ := complements_and_mirrors left right
  generalize greater : Primitive.greater.applyDyadic x y = outcome at complement
  rw [yields] at complement
  cases complement with
  | yielded opposite => exact ⟨left, right, yields, (mirror w).mp yields, _, rfl, opposite⟩

/-- A comparison succeeds and has this answer at a place. -/
def Answers (p : Primitive) (x y : Value) (place : List Nat) (answer : Bool) : Prop :=
  ∃ z, p.applyDyadic x y = .ok z ∧ z.at? place = some (if answer then .number 1 else .number 0)

/-- Equality and the orderings agree at a place: at most means less or equal, at least means greater or equal, and just
one of less, equal and greater holds. -/
structure Agreement (x y : Value) (place : List Nat) : Prop where
  atMost : Answers .lessEqual x y place true ↔ Answers .less x y place true ∨ Answers .equal x y place true
  atLeast : Answers .greaterEqual x y place true ↔ Answers .greater x y place true ∨ Answers .equal x y place true
  single : ∃ p ∈ [Primitive.less, .equal, .greater], ∀ q ∈ [Primitive.less, .equal, .greater],
    Answers q x y place (decide (q = p))

section Leaf

variable {x y l r : Value} {place : List Nat}

theorem answers_iff {p : Primitive} {op : Value → Value → Result Value} {z : Value} {a b : Bool}
    (pervades : p.scalarDyadic? = some op) (left : x.WellFormed) (right : y.WellFormed)
    (yields : dyadic op x y = .ok z) (face : FaceAt x y place l r) (leaves : facing l r = .leaves)
    (given : op l r = .ok (.ofBool a)) : Answers p x y place b ↔ a = b := by
  have applied : p.applyDyadic x y = .ok z := by simp [Primitive.applyDyadic, pervades, yields]
  obtain ⟨v, found, stands⟩ := stands_of_ok left right yields face
  have isAnswer : v = .ofBool a := by
    cases stands with
    | frame framed => simp [leaves] at framed
    | leaf _ yields => exact Except.ok.inj (yields.symm.trans given)
  subst isAnswer
  simp only [Answers, ← Value.ofBool_eq]
  constructor
  · rintro ⟨w, applied', found'⟩
    cases applied.symm.trans applied'
    exact Value.ofBool_injective (Option.some.inj (found.symm.trans found'))
  · rintro rfl
    exact ⟨z, applied, found⟩

theorem equal_iff_order {o : Ordering} (isOrder : order l r = .ok o) :
    equal l r = true ↔ o = .eq ∧ ¬ (l.isNaN = true ∧ r.isNaN = true) := by
  cases l with
  | number a =>
    cases r with
    | number b =>
      cases isOrder
      exact Number.equal_iff_order
    | character | array | function => cases isOrder
  | character c =>
    cases r with
    | character d =>
      cases isOrder
      simp [equal, Value.isNaN, Char.toNat_inj]
    | number | array | function => cases isOrder
  | array | function => cases r <;> cases isOrder

theorem order_of_nan (left : l.isNaN = true) (right : r.isNaN = true) : order l r = .ok .eq := by
  cases l with
  | number a =>
    cases r with
    | number b =>
      have nan := Number.position_eq_none_iff.mpr left
      have nan' := Number.position_eq_none_iff.mpr right
      simp [order, Number.order, nan, nan']
    | character | array | function => cases right
  | character | array | function => cases left

variable {z v : Value}

section Ordered

variable {o : Ordering} {b : Bool} (left : x.WellFormed) (right : y.WellFormed)
  (yields : dyadic (ordered Ordering.isLE) x y = .ok z) (face : FaceAt x y place l r) (leaves : facing l r = .leaves)

include left right yields face leaves

/-- Where at most succeeds, every ordering does, and answers by the order of the leaves. -/
theorem answers_ordered_iff {p : Primitive} {accept : Ordering → Bool}
    (pervades : p.scalarDyadic? = some (ordered accept)) (isOrder : order l r = .ok o) :
    Answers p x y place b ↔ accept o = b := by
  have leafwise : ∀ l r v, ordered Ordering.isLE l r = .ok v → ∃ w, ordered accept l r = .ok w := by
    intro l r v yields
    obtain ⟨o, isOrder, -⟩ := ordered_eq_ok.mp yields
    exact ⟨_, ordered_eq_ok.mpr ⟨o, isOrder, rfl⟩⟩
  obtain ⟨w, yields⟩ := exists_dyadic_eq_ok leafwise left right yields
  exact answers_iff pervades left right yields face leaves (ordered_eq_ok.mpr ⟨o, isOrder, rfl⟩)

/-- Equality succeeds with it, since it is defined on all leaves. -/
theorem answers_equal_iff : Answers .equal x y place b ↔ equal l r = b := by
  have pervades : Primitive.equal.scalarDyadic? = some fun l r => .ok (.ofBool (equal l r)) := rfl
  obtain ⟨w, yields⟩ := exists_dyadic_eq_ok (fun _ _ _ _ => ⟨_, rfl⟩) left right yields
  exact answers_iff pervades left right yields face leaves rfl

end Ordered

theorem exists_order (left : x.WellFormed) (right : y.WellFormed)
    (yields : Primitive.lessEqual.applyDyadic x y = .ok z) (found : z.at? place = some v) (leaf : v.isArray = false) :
    ∃ l r o, FaceAt x y place l r ∧ order l r = .ok o ∧ ∀ b,
      (Answers .less x y place b ↔ o.isLT = b) ∧ (Answers .greater x y place b ↔ o.isGT = b) ∧
      (Answers .lessEqual x y place b ↔ o.isLE = b) ∧ (Answers .greaterEqual x y place b ↔ o.isGE = b) ∧
      (Answers .equal x y place b ↔ equal l r = b) := by
  have single : ∀ l r v, ordered Ordering.isLE l r = .ok v → v.isArray = false := by
    intro l r v yields
    obtain ⟨o, -, rfl⟩ := ordered_eq_ok.mp yields
    rfl
  obtain ⟨l, r, face, stands⟩ := face_of_at? single left right yields found
  cases stands with
  | frame => cases leaf
  | leaf leaves given =>
    obtain ⟨o, isOrder, -⟩ := ordered_eq_ok.mp given
    have byOrder {p : Primitive} {accept : Ordering → Bool} (pervades : p.scalarDyadic? = some (ordered accept))
        (b : Bool) : Answers p x y place b ↔ accept o = b :=
      answers_ordered_iff left right yields face leaves pervades isOrder
    refine ⟨l, r, o, face, isOrder, fun b => ⟨byOrder rfl b, byOrder rfl b, byOrder rfl b, byOrder rfl b, ?_⟩⟩
    exact answers_equal_iff left right yields face leaves

/-- Where at most succeeds, all comparisons answer at every leaf. Equality and order agree there, unless a NaN faces a
NaN. -/
theorem agreement_iff_not_nan (left : x.WellFormed) (right : y.WellFormed)
    (yields : Primitive.lessEqual.applyDyadic x y = .ok z) (found : z.at? place = some v) (leaf : v.isArray = false) :
    (∀ p ∈ [Primitive.less, .equal, .greater, .lessEqual, .greaterEqual], ∃ b, Answers p x y place b) ∧
      ∃ l r, FaceAt x y place l r ∧ (Agreement x y place ↔ ¬ (l.isNaN = true ∧ r.isNaN = true)) := by
  obtain ⟨l, r, o, face, isOrder, answers⟩ := exists_order left right yields found leaf
  refine ⟨?_, l, r, face, ?_⟩
  · simp only [List.forall_mem_cons, answers, exists_eq']
    simp
  · constructor
    · rintro ⟨atMost, -, -⟩ bothNaN
      have level : o = .eq := Except.ok.inj (isOrder.symm.trans (order_of_nan bothNaN.1 bothNaN.2))
      subst level
      have equal : equal l r = true := by simpa [answers] using atMost
      exact ((equal_iff_order isOrder).mp equal).2 bothNaN
    · intro proper
      have level : equal l r = decide (o = .eq) := by
        rw [Bool.eq_iff_iff, equal_iff_order isOrder]
        simpa using fun _ => proper
      constructor
      · simp only [answers, level]
        cases o <;> decide
      · simp only [answers, level]
        cases o <;> decide
      · simp only [List.forall_mem_cons, answers, level]
        cases o <;> simp

end Leaf

theorem agreement_iff_not_nan_of_rows :
    let row (xs : List Value) : Value := .array (Grid.vector xs)
    let x := row [.number (0 / 0), row [.number 1, .number 2]]
    let y := row [.number (0 / 0), .number 2]
    let z := row [.number 1, row [.number 1, .number 1]]
    Primitive.lessEqual.applyDyadic x y = .ok z ∧ Agreement x y [1, 0] ∧ ¬ Agreement x y [0] := by
  intro row x y z
  obtain ⟨left, right⟩ : x.WellFormed ∧ y.WellFormed := by
    simp [x, y, row, Value.WellFormed, Value.Meets, Value.AllMeet, Demand.wellFormed, Grid.vector]
  have orders : Number.order (0 / 0) (0 / 0) = .eq ∧ Number.order 1 2 = .lt ∧ Number.order 2 2 = .eq := by
    decide +kernel
  have yields : Primitive.lessEqual.applyDyadic x y = .ok z := by
    simp [x, y, z, row, Grid.vector, Primitive.applyDyadic, Primitive.scalarDyadic?, dyadic, dyadicPairs, dyadicLeft,
      monadic, ordered, order, orders]
    rfl
  have nans : Number.isNaN (0 / 0) = true ∧ Number.isNaN 1 = false := by decide +kernel
  have first : FaceAt x y [0] (.number (0 / 0)) (.number (0 / 0)) := .inside rfl rfl (.here _ _)
  have inner : FaceAt x y [1, 0] (.number 1) (.number 2) := .inside rfl rfl (.inside rfl rfl (.here _ _))
  have found : z.at? [0] = some (.number 1) := rfl
  have found' : z.at? [1, 0] = some (.number 1) := rfl
  obtain ⟨-, l, r, face, agrees⟩ := agreement_iff_not_nan left right yields found rfl
  obtain ⟨-, l', r', face', agrees'⟩ := agreement_iff_not_nan left right yields found' rfl
  obtain ⟨rfl, rfl⟩ := first.unique face
  obtain ⟨rfl, rfl⟩ := inner.unique face'
  refine ⟨yields, agrees'.mpr ?_, fun agreement => agrees.mp agreement ?_⟩
  · simp [Value.isNaN, nans]
  · simp [Value.isNaN, nans]

/-- A NaN is at most a NaN, but neither less than it nor equal to it. -/
theorem not_agreement_of_nan :
    ¬ ∀ x y z v : Value, ∀ place : List Nat, x.WellFormed → y.WellFormed →
      Primitive.lessEqual.applyDyadic x y = .ok z → z.at? place = some v → v.isArray = false →
      Agreement x y place := by
  intro always
  have atMost : Primitive.lessEqual.applyDyadic (.number (0 / 0)) (.number (0 / 0)) = .ok (.number 1) := by rfl
  have less : Primitive.less.applyDyadic (.number (0 / 0)) (.number (0 / 0)) = .ok (.number 0) := by rfl
  have equal : Primitive.equal.applyDyadic (.number (0 / 0)) (.number (0 / 0)) = .ok (.number 0) := by rfl
  have agreement := always _ _ _ _ [] (Value.meets_number _) (Value.meets_number _) atMost rfl rfl
  rcases agreement.atMost.mp ⟨_, atMost, rfl⟩ with ⟨w, yields, found⟩ | ⟨w, yields, found⟩
  · cases less.symm.trans yields
    exact Value.number_zero_ne_one (Option.some.inj found)
  · cases equal.symm.trans yields
    exact Value.number_zero_ne_one (Option.some.inj found)

end Comparison

end Tacit
