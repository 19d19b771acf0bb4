import Tacit.Proofs.Sizes

/-! Scalar operations act leaf by leaf. Two values are descended into together: arrays of one shape are entered at
equal positions, and what is no array is held fixed against all elements of the other side. The operation
succeeds when no two arrays that face each other differ in shape and it succeeds on every pair of leaves; otherwise
the first failure on the way, depth first and in row-major order, is the failure of the whole. -/
namespace Tacit

/-- The value at a place, which is the way to it through nested arrays: a row-major position in each. -/
def Value.at? : Value → List Nat → Option Value
  | value, [] => some value
  | .array grid, i :: place => grid.data[i]?.bind fun element => element.at? place
  | _, _ :: _ => none

namespace Pervasion

/-- How two values face each other: as leaves, as arrays that are kept apart by their shapes, or as frames of one
shape whose elements face each other in turn. -/
inductive Facing where
  | leaves
  | apart (left right : Shape)
  | framed (shape : Shape) (pairs : List (Value × Value))

def facing : (x y : Value) → Facing
  | .array a, .array b =>
    if a.shape = b.shape then .framed a.shape (a.data.zip b.data) else .apart a.shape b.shape
  | .array a, y => .framed a.shape (a.data.map fun x => (x, y))
  | x, .array b => .framed b.shape (b.data.map fun y => (x, y))
  | _, _ => .leaves

theorem facing_eq_leaves {x y : Value} : facing x y = .leaves ↔ x.isArray = false ∧ y.isArray = false := by
  cases x with
  | array a =>
    cases y with
    | array b =>
      simp only [facing, Value.isArray]
      split <;> simp
    | number | character | function => simp [facing, Value.isArray]
  | number | character | function => cases y <;> simp [facing, Value.isArray]

theorem apart_cases {x y : Value} {left right : Shape} (apart : facing x y = .apart left right) :
    left ≠ right ∧ ∃ data others, x = .array ⟨left, data⟩ ∧ y = .array ⟨right, others⟩ := by
  cases x with
  | array a =>
    cases y with
    | array b =>
      simp only [facing] at apart
      split at apart
      · cases apart
      · cases apart
        exact ⟨‹_›, a.data, b.data, rfl, rfl⟩
    | number | character | function => cases apart
  | number | character | function => cases y <;> cases apart

theorem framed_cases {x y : Value} {shape : Shape} {pairs : List (Value × Value)}
    (framed : facing x y = .framed shape pairs) :
    (∃ data others, x = .array ⟨shape, data⟩ ∧ y = .array ⟨shape, others⟩ ∧ pairs = data.zip others) ∨
    (∃ data, x = .array ⟨shape, data⟩ ∧ y.isArray = false ∧ pairs = data.map fun l => (l, y)) ∨
    ∃ data, x.isArray = false ∧ y = .array ⟨shape, data⟩ ∧ pairs = data.map fun r => (x, r) := by
  cases x with
  | array a =>
    cases y with
    | array b =>
      simp only [facing] at framed
      split at framed
      · cases framed
        obtain ⟨_, others⟩ := b
        subst_vars
        exact .inl ⟨a.data, others, rfl, rfl, rfl⟩
      · cases framed
    | number | character | function =>
      cases framed
      exact .inr (.inl ⟨a.data, rfl, rfl, rfl⟩)
  | number | character | function =>
    cases y <;> cases framed
    exact .inr (.inr ⟨_, rfl, rfl, rfl⟩)

section Framed

variable {x y : Value} {shape : Shape} {pairs : List (Value × Value)}

theorem mem_elements_of_framed (framed : facing x y = .framed shape pairs) {l r : Value}
    (member : (l, r) ∈ pairs) : l ∈ x.elements ∧ r ∈ y.elements := by
  have held {z : Value} (single : z.isArray = false) : z ∈ z.elements := by
    cases z <;> simp_all [Value.isArray, Value.elements]
  rcases framed_cases framed with ⟨data, others, rfl, rfl, rfl⟩ | ⟨data, rfl, single, rfl⟩ | ⟨data, single, rfl, rfl⟩
  · exact List.of_mem_zip member
  · obtain ⟨element, isElement, same⟩ := List.mem_map.mp member
    cases same
    exact ⟨isElement, held single⟩
  · obtain ⟨element, isElement, same⟩ := List.mem_map.mp member
    cases same
    exact ⟨held single, isElement⟩

theorem wellFormed_of_framed (left : x.WellFormed) (right : y.WellFormed) (framed : facing x y = .framed shape pairs)
    {l r : Value} (member : (l, r) ∈ pairs) : l.WellFormed ∧ r.WellFormed := by
  obtain ⟨inLeft, inRight⟩ := mem_elements_of_framed framed member
  exact ⟨Value.elements_meet left l inLeft, Value.elements_meet right r inRight⟩

theorem length_of_framed (left : x.WellFormed) (right : y.WellFormed) (framed : facing x y = .framed shape pairs) :
    pairs.length = shape.size := by
  rcases framed_cases framed with ⟨data, others, rfl, rfl, rfl⟩ | ⟨data, rfl, -, rfl⟩ | ⟨data, -, rfl, rfl⟩
  · have count : data.length = shape.size := (Value.meets_array.mp left).1
    have others : others.length = shape.size := (Value.meets_array.mp right).1
    rw [List.length_zip, count, others, Nat.min_self]
  · exact (List.length_map _).trans (Value.meets_array.mp left).1
  · exact (List.length_map _).trans (Value.meets_array.mp right).1

end Framed

theorem induct_facing {P : Value → Value → Prop}
    (step : ∀ x y, (∀ shape pairs, facing x y = .framed shape pairs → ∀ l r, (l, r) ∈ pairs → P l r) → P x y)
    (x y : Value) : P x y := by
  induction x using Value.induct_elements generalizing y with
  | array grid ih =>
    apply step
    intro shape pairs framed l r member
    exact ih l (mem_elements_of_framed framed member).1 r
  | number | character | function =>
    induction y using Value.induct_elements with
    | array grid ih =>
      apply step
      intro shape pairs framed l r member
      cases framed
      obtain ⟨r, isElement, same⟩ := List.mem_map.mp member
      cases same
      exact ih r isElement
    | number | character | function =>
      apply step
      rintro shape pairs ⟨⟩

theorem dyadicPairs_eq_mapM (op : Value → Value → Result Value) {xs ys : List Value}
    (same : xs.length = ys.length) :
    dyadicPairs op xs ys = (xs.zip ys).mapM fun pair => dyadic op pair.1 pair.2 := by
  induction xs generalizing ys with
  | nil => rfl
  | cons x xs ih =>
    cases ys with
    | nil => cases same
    | cons y ys => rw [dyadicPairs, ih (Nat.succ.inj same), List.zip_cons_cons, List.mapM_cons]

theorem dyadic_of_plain (op : Value → Value → Result Value) {x : Value} (single : x.isArray = false) (y : Value) :
    dyadic op x y = monadic (op x) y := by
  cases x <;> cases single <;> simp [dyadic]

theorem dyadic_of_leaves (op : Value → Value → Result Value) {x y : Value} (leaves : facing x y = .leaves) :
    dyadic op x y = op x y := by
  obtain ⟨left, right⟩ := facing_eq_leaves.mp leaves
  rw [dyadic_of_plain op left]
  cases y <;> cases right <;> simp [monadic]

theorem dyadic_of_apart (op : Value → Value → Result Value) {x y : Value} {left right : Shape}
    (apart : facing x y = .apart left right) : dyadic op x y = .error (.shapeMismatch (.pairing left right)) := by
  obtain ⟨different, data, others, rfl, rfl⟩ := apart_cases apart
  simp [dyadic, different]

/-- One level of the descent: all pairs of elements that face each other, in order. -/
theorem dyadic_of_framed (op : Value → Value → Result Value) {x y : Value} {shape : Shape}
    {pairs : List (Value × Value)} (left : x.WellFormed) (right : y.WellFormed)
    (framed : facing x y = .framed shape pairs) :
    dyadic op x y = (do return .array ⟨shape, ← pairs.mapM fun pair => dyadic op pair.1 pair.2⟩) := by
  rcases framed_cases framed with ⟨data, others, rfl, rfl, rfl⟩ | ⟨data, rfl, single, rfl⟩ | ⟨data, single, rfl, rfl⟩
  · have same : data.length = others.length :=
      (Value.meets_array.mp left).1.trans (Value.meets_array.mp right).1.symm
    simp [dyadic, dyadicPairs_eq_mapM op same]
  · cases y <;> cases single <;> simp [dyadic, dyadicLeft_eq_mapM, List.mapM_map, Function.comp_def]
  · simp [dyadic_of_plain op single, monadic, monadicAll_eq_mapM, List.mapM_map, Function.comp_def]

/-- Descending into `x` and `y` together leads to `l` and `r` at a place. -/
inductive FaceAt : (x y : Value) → (place : List Nat) → (l r : Value) → Prop where
  | here (x y : Value) : FaceAt x y [] x y
  | inside {x y l r v w : Value} {shape : Shape} {pairs : List (Value × Value)} {i : Nat} {place : List Nat} :
    facing x y = .framed shape pairs → pairs[i]? = some (l, r) → FaceAt l r place v w → FaceAt x y (i :: place) v w

/-- What stands where `l` and `r` face each other when the operation succeeds: a full array of their shape, or what
the operation makes of two leaves. -/
inductive Stands (op : Value → Value → Result Value) (l r : Value) : Value → Prop where
  | frame {shape : Shape} {pairs : List (Value × Value)} {data : List Value} :
    facing l r = .framed shape pairs → data.length = shape.size → Stands op l r (.array ⟨shape, data⟩)
  | leaf {v : Value} : facing l r = .leaves → op l r = .ok v → Stands op l r v

/-- What goes wrong where `l` and `r` face each other, whatever may go wrong inside. -/
inductive Fails (op : Value → Value → Result Value) (l r : Value) : Fault → Prop where
  | apart {left right : Shape} : facing l r = .apart left right → Fails op l r (.shapeMismatch (.pairing left right))
  | leaf {e : Fault} : facing l r = .leaves → op l r = .error e → Fails op l r e

def FailsAt (op : Value → Value → Result Value) (x y : Value) (place : List Nat) (e : Fault) : Prop :=
  ∃ l r, FaceAt x y place l r ∧ Fails op l r e

/-- The order in which nested arrays are gone through: an array before its elements, and all that is in an element
before the next one. -/
def Earlier (place other : List Nat) : Prop := List.Lex (· < ·) place other

section Descent

variable {op : Value → Value → Result Value} {x y : Value}

theorem Stands.not_fails {l r v : Value} (stands : Stands op l r v) (e : Fault) : ¬ Fails op l r e := by
  intro fails
  cases stands with
  | frame framed => cases fails <;> simp_all
  | leaf leaves yields => cases fails <;> simp_all

/-- Where the operation succeeds as a whole, it has been carried out at every place. -/
theorem stands_of_ok {z : Value} (left : x.WellFormed) (right : y.WellFormed) (yields : dyadic op x y = .ok z)
    {place : List Nat} {l r : Value} (face : FaceAt x y place l r) :
    ∃ v, z.at? place = some v ∧ Stands op l r v := by
  induction face generalizing z with
  | here x y =>
    refine ⟨z, rfl, ?_⟩
    cases faced : facing x y with
    | leaves => exact .leaf faced (dyadic_of_leaves op faced ▸ yields)
    | apart => simp [dyadic_of_apart op faced] at yields
    | framed shape pairs =>
      simp only [dyadic_of_framed op left right faced, bind_eq_ok, pure_eq_ok] at yields
      obtain ⟨data, mapped, rfl⟩ := yields
      have count := (mapM_eq_ok.mp mapped).length_eq
      exact .frame faced (count.symm.trans (length_of_framed left right faced))
  | @inside x y l r v w shape pairs i place framed isPair face ih =>
    simp only [dyadic_of_framed op left right framed, bind_eq_ok, pure_eq_ok] at yields
    obtain ⟨data, mapped, rfl⟩ := yields
    obtain ⟨leftInside, rightInside⟩ := wellFormed_of_framed left right framed (List.mem_of_getElem? isPair)
    obtain ⟨element, isElement, yields⟩ := getElem?_of_mapM_eq_ok mapped isPair
    obtain ⟨v, found, stands⟩ := ih leftInside rightInside yields
    exact ⟨v, by simp [Value.at?, isElement, found], stands⟩

/-- Where the operation fails, it fails with what goes wrong at the first place where anything does. -/
theorem first_of_error {e : Fault} (left : x.WellFormed) (right : y.WellFormed) (failed : dyadic op x y = .error e) :
    ∃ place, FailsAt op x y place e ∧ ∀ earlier, Earlier earlier place → ∀ e', ¬ FailsAt op x y earlier e' := by
  induction x, y using induct_facing with
  | step x y ih =>
    have begins : ∀ earlier : List Nat, ¬ Earlier earlier [] := by
      rintro earlier ⟨⟩
    cases faced : facing x y with
    | leaves => exact ⟨[], ⟨x, y, .here x y, .leaf faced (dyadic_of_leaves op faced ▸ failed)⟩, by simp [begins]⟩
    | apart shape other =>
      rw [dyadic_of_apart op faced] at failed
      cases failed
      exact ⟨[], ⟨x, y, .here x y, .apart faced⟩, by simp [begins]⟩
    | framed shape pairs =>
      rw [dyadic_of_framed op left right faced] at failed
      simp only [bind_eq_error, pure_eq_error, and_false, exists_false, or_false] at failed
      obtain ⟨before, ⟨l, r⟩, after, rfl, passed, failed⟩ := split_of_mapM_eq_error failed
      have member : (l, r) ∈ before ++ (l, r) :: after := by simp
      obtain ⟨leftInside, rightInside⟩ := wellFormed_of_framed left right faced member
      obtain ⟨place, ⟨v, w, face, fails⟩, first⟩ := ih shape _ faced l r member leftInside rightInside failed
      refine ⟨before.length :: place, ⟨v, w, .inside faced (by simp) face, fails⟩, ?_⟩
      rintro earlier isEarlier e' ⟨v', w', face', fails'⟩
      cases face' with
      | here => cases fails' <;> simp_all
      | @inside _ _ l' r' _ _ _ _ i _ framed' isPair face' =>
        rw [faced] at framed'
        cases framed'
        cases isEarlier with
        | rel sooner =>
          have isBefore : (l', r') ∈ before := by
            rw [List.getElem?_append_left sooner] at isPair
            exact List.mem_of_getElem? isPair
          obtain ⟨leftInside, rightInside⟩ := wellFormed_of_framed left right faced (List.mem_append_left _ isBefore)
          obtain ⟨z, yields⟩ := passed (l', r') isBefore
          obtain ⟨_, -, stands⟩ := stands_of_ok leftInside rightInside yields face'
          exact stands.not_fails e' fails'
        | cons sooner =>
          have same : (l', r') = (l, r) := by simpa [eq_comm] using isPair
          cases same
          exact first _ sooner e' ⟨v', w', face', fails'⟩

end Descent

/-- An operation carried into two well-formed values succeeds exactly when all arrays that face each other have
equal shapes and it succeeds on all leaves that do. The result then has an array of the same shape wherever arrays
were entered, and what the operation makes of two leaves wherever leaves were reached. Otherwise the failure is the
one at the first place, depth first and in row-major order, where anything goes wrong. -/
theorem dyadic_leafwise (op : Value → Value → Result Value) {x y : Value} (left : x.WellFormed)
    (right : y.WellFormed) :
    ((∃ z, dyadic op x y = .ok z) ↔
      (∀ place a b, FaceAt x y place (.array a) (.array b) → a.shape = b.shape) ∧
        ∀ place l r, FaceAt x y place l r → l.isArray = false → r.isArray = false → ∃ v, op l r = .ok v) ∧
    (∀ z, dyadic op x y = .ok z →
      ∀ place l r, FaceAt x y place l r → ∃ v, z.at? place = some v ∧ Stands op l r v) ∧
    ∀ e, dyadic op x y = .error e →
      ∃ place, FailsAt op x y place e ∧ ∀ earlier, Earlier earlier place → ∀ e', ¬ FailsAt op x y earlier e' := by
  refine ⟨⟨?_, ?_⟩, fun z yields place l r => stands_of_ok left right yields, fun e => first_of_error left right⟩
  · rintro ⟨z, yields⟩
    constructor
    · intro place a b face
      obtain ⟨v, -, stands⟩ := stands_of_ok left right yields face
      by_contra different
      have apart : facing (.array a) (.array b) = .apart a.shape b.shape := if_neg different
      exact stands.not_fails _ (.apart apart)
    · intro place l r face leftLeaf rightLeaf
      obtain ⟨v, -, stands⟩ := stands_of_ok left right yields face
      have leaves := facing_eq_leaves.mpr ⟨leftLeaf, rightLeaf⟩
      cases stands with
      | frame framed => simp [leaves] at framed
      | leaf _ yields => exact ⟨v, yields⟩
  · rintro ⟨shapes, leaves⟩
    cases ended : dyadic op x y with
    | ok z => exact ⟨z, rfl⟩
    | error e =>
      obtain ⟨place, ⟨l, r, face, fails⟩, -⟩ := first_of_error left right ended
      cases fails with
      | apart apart =>
        obtain ⟨different, _, _, rfl, rfl⟩ := apart_cases apart
        exact absurd (shapes place _ _ face) different
      | leaf faced failed =>
        obtain ⟨leftLeaf, rightLeaf⟩ := facing_eq_leaves.mp faced
        obtain ⟨v, yields⟩ := leaves place l r face leftLeaf rightLeaf
        rw [yields] at failed
        cases failed

theorem dyadic_leafwise_of_nested_texts :
    let x : Value := .array (Grid.vector [.character 'a', .ofText ['b', 'c'], .character 'd'])
    let y : Value := .array (Grid.vector [.character 'e', .character 'c', .character 'a'])
    let z : Value := .array (Grid.vector [.character 'e', .ofText ['c', 'c'], .character 'd'])
    let ragged : Value := .array (Grid.vector [.character 'e', .ofText ['c'], .function (.primitive .add)])
    x.WellFormed ∧ y.WellFormed ∧ ragged.WellFormed ∧ dyadic Arithmetic.maximum x y = .ok z ∧
      (∃ v, z.at? [1, 0] = some v ∧ Stands Arithmetic.maximum (.character 'b') (.character 'c') v) ∧
      dyadic Arithmetic.maximum x ragged = .error (.shapeMismatch (.pairing [2] [1])) ∧
      ∃ place, FailsAt Arithmetic.maximum x ragged place (.shapeMismatch (.pairing [2] [1])) ∧
        ∀ earlier, Earlier earlier place → ∀ e, ¬ FailsAt Arithmetic.maximum x ragged earlier e := by
  intro x y z ragged
  have formed : x.WellFormed ∧ y.WellFormed ∧ ragged.WellFormed := by
    simp [x, y, ragged, Value.WellFormed, Value.Meets, Value.AllMeet, Demand.wellFormed, Grid.vector, Value.ofText,
      Fn.ConstantsMeet]
  obtain ⟨left, right, other⟩ := formed
  have yields : dyadic Arithmetic.maximum x y = .ok z := by rfl
  have failed : dyadic Arithmetic.maximum x ragged = .error (.shapeMismatch (.pairing [2] [1])) := by rfl
  have face : FaceAt x y [1, 0] (.character 'b') (.character 'c') := .inside rfl rfl (.inside rfl rfl (.here _ _))
  have stands := (dyadic_leafwise Arithmetic.maximum left right).2.1 z yields [1, 0] _ _ face
  have first := (dyadic_leafwise Arithmetic.maximum left other).2.2 _ failed
  exact ⟨left, right, other, yields, stands, failed, first⟩

end Pervasion

end Tacit
