import Mathlib.Algebra.GroupWithZero.Nat
import Mathlib.Order.Bounds.Defs
import Tacit.Proofs.Statements
import Tacit.Proofs.Steps

/-! How deeply the nodes of a program nest. Evaluation descends into every node, while the levels that
are counted in reading are those of brackets, right operands and bound values. Between two levels
only so many nodes can nest, except for modifiers of one operand: these nest without end on one
level. -/
namespace Tacit

namespace Node

mutual

/-- The largest total weight of nodes each of which is right inside the one before, from a node on. -/
def heaviest (weight : Node → Nat) : Node → Nat
  | modified modifier operand line => weight (modified modifier operand line) + operand.heaviest weight
  | combined modifier left right line =>
    weight (combined modifier left right line) + max (left.heaviest weight) (right.heaviest weight)
  | binding name arity value line => weight (binding name arity value line) + value.heaviest weight
  | train tines line => weight (train tines line) + heaviestAll weight tines
  | strand elements line => weight (strand elements line) + heaviestAll weight elements
  | array elements line => weight (array elements line) + heaviestAll weight elements
  | list elements line => weight (list elements line) + heaviestAll weight elements
  | leaf => weight leaf

def heaviestAll (weight : Node → Nat) : List Node → Nat
  | [] => 0
  | node :: nodes => max (node.heaviest weight) (heaviestAll weight nodes)

end

variable {weight weight' : Node → Nat}

theorem heaviest_eq (weight : Node → Nat) (node : Node) :
    node.heaviest weight = weight node + heaviestAll weight node.children := by
  cases node <;> simp [heaviest, heaviestAll, children]

theorem heaviestAll_le_iff {nodes : List Node} {n : Nat} :
    heaviestAll weight nodes ≤ n ↔ ∀ node ∈ nodes, node.heaviest weight ≤ n := by
  induction nodes with
  | nil => simp [heaviestAll]
  | cons node nodes ih => rw [heaviestAll, Nat.max_le, ih, List.forall_mem_cons]

theorem heaviest_le_heaviestAll {nodes : List Node} {node : Node} (member : node ∈ nodes) :
    node.heaviest weight ≤ heaviestAll weight nodes :=
  heaviestAll_le_iff.mp (Nat.le_refl _) node member

def Nested (nodes : List Node) : Prop := nodes.IsChain fun outer inner => inner ∈ outer.children

theorem sum_le_heaviest {node : Node} {inner : List Node} (nested : Nested (node :: inner)) :
    ((node :: inner).map weight).sum ≤ node.heaviest weight := by
  induction inner generalizing node with
  | nil =>
    rw [heaviest_eq]
    simp
  | cons child inner ih =>
    obtain ⟨isChild, deeper⟩ := List.isChain_cons_cons.mp nested
    have below := ih deeper
    have atMost : child.heaviest weight ≤ heaviestAll weight node.children := heaviest_le_heaviestAll isChild
    rw [heaviest_eq, List.map_cons, List.sum_cons]
    omega

theorem exists_nested_heaviest (weight : Node → Nat) (node : Node) :
    ∃ inner, Nested (node :: inner) ∧ ((node :: inner).map weight).sum = node.heaviest weight := by
  have ofAll (nodes : List Node) : nodes = [] ∨
      ∃ node ∈ nodes, node.heaviest weight = heaviestAll weight nodes := by
    induction nodes with
    | nil => exact .inl rfl
    | cons node nodes ih =>
      right
      by_cases smaller : heaviestAll weight nodes ≤ node.heaviest weight
      · exact ⟨node, List.mem_cons_self, (Nat.max_eq_left smaller).symm⟩
      · rcases ih with rfl | ⟨other, member, same⟩
        · simp [heaviestAll] at smaller
        · refine ⟨other, List.mem_cons_of_mem node member, ?_⟩
          rw [heaviestAll, same]
          omega
  induction node using induct_children with
  | step node ih =>
    rcases ofAll node.children with none | ⟨child, isChild, same⟩
    · refine ⟨[], List.IsChain.singleton node, ?_⟩
      rw [heaviest_eq, none]
      simp [heaviestAll]
    · obtain ⟨inner, nested, sum⟩ := ih child isChild
      refine ⟨child :: inner, List.isChain_cons_cons.mpr ⟨isChild, nested⟩, ?_⟩
      rw [heaviest_eq, List.map_cons, List.sum_cons, sum, same]

theorem heaviest_le_add {weight weight₁ weight₂ : Node → Nat}
    (atMost : ∀ node, weight node ≤ weight₁ node + weight₂ node) (node : Node) :
    node.heaviest weight ≤ node.heaviest weight₁ + node.heaviest weight₂ := by
  induction node using induct_children with
  | step node ih =>
    have below : heaviestAll weight node.children ≤
        heaviestAll weight₁ node.children + heaviestAll weight₂ node.children := by
      apply heaviestAll_le_iff.mpr
      intro child isChild
      exact (ih child isChild).trans
        (Nat.add_le_add (heaviest_le_heaviestAll isChild) (heaviest_le_heaviestAll isChild))
    have own := atMost node
    rw [heaviest_eq, heaviest_eq, heaviest_eq]
    omega

def isModified : Node → Bool
  | modified .. => true
  | _ => false

/-- How many nodes nest, one inside the other, which is how deep evaluation descends. -/
def height : Node → Nat := heaviest fun _ => 1

/-- The height of a node is the length of its longest chain of nested nodes. -/
theorem isGreatest_height (node : Node) :
    IsGreatest {n | ∃ inner, Nested (node :: inner) ∧ (node :: inner).length = n} node.height := by
  have sum (nodes : List Node) : (nodes.map fun _ => 1).sum = nodes.length := by simp
  constructor
  · obtain ⟨inner, nested, same⟩ := exists_nested_heaviest (fun _ => 1) node
    exact ⟨inner, nested, (sum _).symm.trans same⟩
  · rintro _ ⟨inner, nested, rfl⟩
    exact (sum _).symm.trans_le (sum_le_heaviest nested)

/-- How many modifiers of one operand nest, whatever nodes lie between them. -/
def stacked : Node → Nat := heaviest fun node => node.isModified.toNat

/-- How many nodes nest, modifiers of one operand apart. -/
def framed : Node → Nat := heaviest fun node => (!node.isModified).toNat

theorem height_le (node : Node) : node.height ≤ node.framed + node.stacked := by
  apply heaviest_le_add
  intro node
  cases node.isModified <;> decide

/-- What a modifier is applied to is no such modifier in the end. -/
theorem stacked_lt_height (node : Node) : node.stacked < node.height := by
  induction node using induct_children with
  | step node ih =>
    have below : heaviestAll (fun node => node.isModified.toNat) node.children ≤
        heaviestAll (fun _ => 1) node.children := by
      apply heaviestAll_le_iff.mpr
      intro child isChild
      exact (ih child isChild).le.trans (heaviest_le_heaviestAll isChild)
    rw [stacked, height, heaviest_eq, heaviest_eq]
    cases isModifier : node.isModified with
    | false =>
      rw [Bool.toNat_false]
      omega
    | true =>
      obtain ⟨modifier, operand, line, rfl⟩ : ∃ modifier operand line, node = modified modifier operand line := by
        cases node <;> simp [isModified] at isModifier ⊢
      have inner : operand.stacked < operand.height := ih operand List.mem_cons_self
      simp only [stacked, height] at inner
      simp only [children, heaviestAll, Nat.max_zero]
      rw [Bool.toNat_true]
      omega

theorem framed_eq (node : Node) :
    node.framed = (!node.isModified).toNat + heaviestAll (fun node => (!node.isModified).toNat) node.children :=
  heaviest_eq _ node

/-- A node holds no more than one level beyond its children. -/
theorem framed_le {node : Node} {n : Nat} (each : ∀ child ∈ node.children, child.framed ≤ n) :
    node.framed ≤ n + 1 := by
  have below := heaviestAll_le_iff.mpr each
  have own := (!node.isModified).toNat_le
  rw [framed_eq]
  omega

@[simp] theorem framed_modified (modifier : Modifier) (operand : Node) (line : Nat) :
    (modified modifier operand line).framed = operand.framed := by
  rw [framed_eq]
  simp [isModified, children, heaviestAll, framed]

end Node

namespace Grammar

open Node

variable {levels : Nat} {tokens : List Token} {node : Node}

theorem Wraps.framed {operand : Node} (wraps : Wraps operand tokens node) : node.framed = operand.framed := by
  induction wraps with
  | done => rfl
  | next kind spells others ih => rw [ih, framed_modified]

theorem framed_grouped {group : List Node → Nat → Node} (groups : ∀ nodes line, (group nodes line).children = nodes)
    {first : Node} {others : List Node} {n : Nat} (begins : first.framed ≤ n)
    (each : ∀ node ∈ others, node.framed ≤ n) : (grouped group first others).framed ≤ n + 1 := by
  cases others with
  | nil => exact Nat.le_succ_of_le begins
  | cons other others =>
    apply framed_le
    change ∀ child ∈ (group (first :: other :: others) first.line).children, child.framed ≤ n
    rw [groups]
    exact List.forall_mem_cons.mpr ⟨begins, each⟩

/-- How many nodes nest within a number of levels, modifiers of one operand apart. -/
structure Bounded (levels : Nat) : Prop where
  primary : ∀ {tokens node}, Primary levels tokens node → node.framed ≤ max 1 (4 * levels)
  expression : ∀ {tokens node}, Expression levels tokens node → node.framed ≤ 4 * levels + 3
  statement : ∀ {tokens node}, Statement levels tokens node → node.framed ≤ 4 * levels + 3

section Level

variable (primary : ∀ {tokens node}, Primary levels tokens node → node.framed ≤ max 1 (4 * levels))
  (deeper : ∀ {inner}, levels = inner + 1 → Bounded inner)

include primary deeper

theorem Modified.framed_le (derived : Modified levels tokens node) : node.framed ≤ 4 * levels + 1 := by
  cases derived with
  | wrapped operand wraps =>
    have bound := primary operand
    rw [wraps.framed]
    omega
  | combined operand wraps kind spells second =>
    have left := primary operand
    have right := (deeper rfl).primary second
    apply Node.framed_le
    simp only [children, List.forall_mem_cons, wraps.framed]
    exact ⟨by omega, by omega, by simp⟩

theorem Joined.framed_le (derived : Joined levels tokens node) : node.framed ≤ 4 * levels + 1 := by
  cases derived with
  | behind kind element => exact element.framed_le primary deeper

theorem Strand.framed_le (derived : Strand levels tokens node) : node.framed ≤ 4 * levels + 2 := by
  cases derived with
  | elements begins each =>
    apply framed_grouped (fun _ _ => rfl) (begins.framed_le primary deeper)
    intro other member
    obtain ⟨part, isPart, rfl⟩ := List.mem_map.mp member
    exact (each part isPart).framed_le primary deeper

theorem Expression.framed_le (derived : Expression levels tokens node) : node.framed ≤ 4 * levels + 3 := by
  cases derived with
  | tines begins each =>
    apply framed_grouped (fun _ _ => rfl) (begins.framed_le primary deeper)
    intro other member
    obtain ⟨part, isPart, rfl⟩ := List.mem_map.mp member
    exact (each part isPart).framed_le primary deeper

theorem Statement.framed_le (derived : Statement levels tokens node) : node.framed ≤ 4 * levels + 3 := by
  cases derived with
  | plain only => exact only.framed_le primary deeper
  | @binding inner name marker arity taken value named marked bound =>
    have held : (Node.binding name.image arity value name.line).framed ≤ 4 * inner + 3 + 1 := by
      apply Node.framed_le
      simpa only [children, List.mem_singleton, forall_eq] using (deeper rfl).statement bound
    omega

end Level

theorem Separated.expression (derived : Separated levels tokens node) :
    ∃ taken, Expression levels taken node := by
  cases derived with
  | behind kind element => exact ⟨_, element⟩

/-- A bracket pair holds statements or elements of the next level in. -/
theorem Primary.framed_le (deeper : ∀ {inner}, levels = inner + 1 → Bounded inner)
    (derived : Primary levels tokens node) : node.framed ≤ max 1 (4 * levels) := by
  have leaf {node : Node} (childless : node.children = []) : node.framed ≤ max 1 (4 * levels) := by
    have alone : node.framed ≤ 0 + 1 := Node.framed_le (by simp [childless])
    omega
  have ofElements {inner : Nat} {inside : List Token} {nodes : List Node} (isLevel : levels = inner + 1)
      (elements : Elements inner inside nodes) (isHeld : node.children = nodes) :
      node.framed ≤ max 1 (4 * levels) := by
    obtain ⟨begins, each⟩ := elements
    have held : node.framed ≤ 4 * inner + 3 + 1 := by
      apply Node.framed_le
      rw [isHeld]
      refine List.forall_mem_cons.mpr ⟨(deeper isLevel).expression begins, fun other member => ?_⟩
      obtain ⟨part, isPart, rfl⟩ := List.mem_map.mp member
      obtain ⟨taken, element⟩ := (each part isPart).expression
      exact (deeper isLevel).expression element
    omega
  cases derived with
  | number | string | character | reference | function => exact leaf rfl
  | parenthesized opens inner closes =>
    have held := (deeper rfl).statement inner
    omega
  | array opens inner closes => exact ofElements rfl inner rfl
  | list opens inner closes => exact ofElements rfl inner rfl

theorem bounded (levels : Nat) : Bounded levels := by
  induction levels with
  | zero =>
    have deeper {inner : Nat} (isLevel : 0 = inner + 1) : Bounded inner := by cases isLevel
    have primary {tokens node} (derived : Primary 0 tokens node) := derived.framed_le deeper
    exact ⟨primary, fun derived => derived.framed_le primary deeper, fun derived => derived.framed_le primary deeper⟩
  | succ levels ih =>
    have deeper {inner : Nat} (isLevel : levels + 1 = inner + 1) : Bounded inner := by
      cases isLevel
      exact ih
    have primary {tokens node} (derived : Primary (levels + 1) tokens node) := derived.framed_le deeper
    exact ⟨primary, fun derived => derived.framed_le primary deeper, fun derived => derived.framed_le primary deeper⟩

end Grammar

/-- Within a limit on the levels only modifiers of one operand nest without end: so many of them as nest
in a program, so much deeper may it be than the limit allows. -/
theorem height_of_parse {limit : Nat} {tokens : List Token} {program : List Node}
    (parsed : parse limit tokens = .ok program) :
    ∀ node ∈ program, node.stacked < node.height ∧ node.height ≤ 4 * limit + 3 + node.stacked := by
  intro node member
  obtain ⟨taken, derived⟩ := derived_of_parse parsed node member
  have framed := (Grammar.bounded limit).statement derived
  have height := node.height_le
  exact ⟨node.stacked_lt_height, by omega⟩

theorem height_of_nested_array :
    let node : Node := .train [.reference "A" 1, .strand [.reference "B" 1,
      .combined .atop (.array [.train [.reference "C" 1, .strand [.reference "D" 1,
        .modified .each (.reference "E" 1) 1] 1] 1] 1) (.reference "F" 1) 1] 1] 1
    parse 1 [⟨.identifier, "A", 1⟩, ⟨.identifier, "B", 1⟩, ⟨.ligature, "‿", 1⟩, ⟨.openArray, "[", 1⟩,
        ⟨.identifier, "C", 1⟩, ⟨.identifier, "D", 1⟩, ⟨.ligature, "‿", 1⟩, ⟨.identifier, "E", 1⟩,
        ⟨.monadicModifier, "¨", 1⟩, ⟨.closeArray, "]", 1⟩, ⟨.dyadicModifier, "∘", 1⟩,
        ⟨.identifier, "F", 1⟩] = .ok [node] ∧
      node.stacked = 1 ∧ node.height = 8 ∧ node.height ≤ 4 * 1 + 3 + node.stacked := by
  intro node
  have parsed : parse 1 [⟨.identifier, "A", 1⟩, ⟨.identifier, "B", 1⟩, ⟨.ligature, "‿", 1⟩,
    ⟨.openArray, "[", 1⟩, ⟨.identifier, "C", 1⟩, ⟨.identifier, "D", 1⟩, ⟨.ligature, "‿", 1⟩,
    ⟨.identifier, "E", 1⟩, ⟨.monadicModifier, "¨", 1⟩, ⟨.closeArray, "]", 1⟩, ⟨.dyadicModifier, "∘", 1⟩,
    ⟨.identifier, "F", 1⟩] = .ok [node] := by rfl
  exact ⟨parsed, rfl, rfl, (height_of_parse parsed node List.mem_cons_self).2⟩

theorem Node.height_modified (modifier : Modifier) (operand : Node) (line : Nat) :
    (modified modifier operand line).height = operand.height + 1 :=
  Nat.add_comm 1 operand.height

/-- Modifiers of one operand nest as deeply as one likes, all on one level. -/
theorem exists_parse_of_height (limit n : Nat) :
    ∃ tokens node, parse limit tokens = .ok [node] ∧ node.height = n + 1 := by
  have spells : Rule.glyphModifier ⟨.monadicModifier, "¨", 1⟩ = .ok .each := by rfl
  have stack (operand : Node) : ∃ node, node.height = n + operand.height ∧
      Grammar.Wraps operand (List.replicate n ⟨.monadicModifier, "¨", 1⟩) node := by
    induction n generalizing operand with
    | zero => exact ⟨operand, (Nat.zero_add _).symm, .done operand⟩
    | succ n ih =>
      obtain ⟨node, height, wraps⟩ := ih (.modified .each operand 1)
      refine ⟨node, ?_, .next rfl spells wraps⟩
      rw [height, Node.height_modified]
      omega
  obtain ⟨node, height, wraps⟩ := stack (.glyph .add .dyadic 1)
  have function : Grammar.Primary limit [⟨.dyadicFunction, "+", 1⟩] (.glyph .add .dyadic 1) :=
    .function (.inr rfl) rfl
  have derived : Grammar.Statement limit _ node := .plain (Grammar.Modified.wrapped function wraps).expression
  let tokens : List Token := [⟨.dyadicFunction, "+", 1⟩] ++ List.replicate n ⟨.monadicModifier, "¨", 1⟩
  have isSignificant : significant tokens = tokens := by
    simp [tokens, significant, Token.isSignificant]
  have unbroken : Unbroken tokens := by
    simp [tokens, Unbroken]
  refine ⟨tokens, node, (readsWhole_of_derived ?_ ?_).parse, height⟩
  · rwa [isSignificant]
  · rwa [isSignificant]

/-- No limit on the levels bounds the depth of what is read. -/
theorem height_unbounded :
    ¬ ∃ bound : Nat → Nat, ∀ (limit : Nat) (tokens : List Token) (program : List Node),
      parse limit tokens = .ok program → ∀ node ∈ program, node.height ≤ bound limit := by
  rintro ⟨bound, bounds⟩
  obtain ⟨tokens, node, parsed, height⟩ := exists_parse_of_height 0 (bound 0)
  have atMost := bounds 0 tokens [node] parsed node List.mem_cons_self
  omega

end Tacit
