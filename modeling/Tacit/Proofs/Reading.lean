import Mathlib.Data.List.DropRight
import Tacit.Proofs.Sessions

/-! Reading programs. A token is legible if it is spelled as its kind says. What the rules read from legible
tokens is well made: modifiers have as many operands as they take, glyphs have the arities of their
primitives, and nothing that groups nodes is empty. Where the rules refuse such tokens, it is for the order in
which they stand and never for the spelling of one, and it is at the line of a token or at the end. -/
namespace Tacit

namespace Node

/-- What a node holds fits its form. -/
def Fits : Node → Prop
  | glyph primitive arity _ => arity = primitive.arity
  | modified modifier _ _ => modifier.arity = .monadic
  | combined modifier _ _ _ => modifier.arity = .dyadic
  | train nodes _ | strand nodes _ => 2 ≤ nodes.length
  | array nodes _ | list nodes _ => 1 ≤ nodes.length
  | _ => True

def WellMade (node : Node) : Prop := ∀ inner : Node, inner.Inside node → inner.Fits

theorem wellMade_of_children {node : Node} (fits : node.Fits)
    (children : ∀ child ∈ node.children, child.WellMade) : node.WellMade := by
  intro inner inside
  cases inside with
  | self => exact fits
  | child isChild deeper => exact children _ isChild inner deeper

end Node

/-- The spelling of a token can be read as its kind says. -/
structure Token.Legible (token : Token) : Prop where
  number : token.kind = .number → ∃ value, Rule.numberOf token = .ok value
  character : token.kind = .character → ∃ c, Rule.characterOf token = .ok c
  function : token.kind = .monadicFunction ∨ token.kind = .dyadicFunction →
    ∃ primitive, Rule.glyphFunction token = .ok primitive
  monadic : token.kind = .monadicModifier →
    ∃ modifier, Rule.glyphModifier token = .ok modifier ∧ modifier.arity = .monadic
  dyadic : token.kind = .dyadicModifier →
    ∃ modifier, Rule.glyphModifier token = .ok modifier ∧ modifier.arity = .dyadic

/-- A token is refused for its spelling, though it is of the right kind. -/
def ParseFault.OfSpelling : ParseFault → Prop
  | .unexpected .number _ | .unexpected .singleCharacter _ | .unexpected .functionGlyph _
  | .unexpected .modifierGlyph _ => True
  | _ => False

/-- What a program is read from: tokens, and the line at which their end is reported. -/
structure Input where
  tokens : List Token
  endLine : Nat

namespace Input

variable {input : Input}

/-- A line on which a token stands, or that of the end. -/
def Placed (input : Input) (line : Nat) : Prop :=
  line = input.endLine ∨ ∃ token ∈ input.tokens, token.line = line

/-- A reason to refuse legible tokens. -/
structure Complaint (input : Input) (e : ParseError) : Prop where
  cause : ¬ e.cause.OfSpelling
  placed : input.Placed e.line

theorem placed_of_mem {token : Token} (member : token ∈ input.tokens) : input.Placed token.line :=
  .inr ⟨token, member, rfl⟩

end Input

namespace Rule

variable {α β : Type} {Q : α → Prop} {R : β → Prop} {input : Input}

/-- A rule ends as it may: it has read something with a property and leaves tokens of the input, or it has
a reason to refuse them. -/
structure Fair (input : Input) (Q : α → Prop) (outcome : Except ParseError (α × List Token)) : Prop where
  refuses : FailsOnly input.Complaint outcome
  reads : ∀ a rest, outcome = .ok (a, rest) → Q a ∧ rest ⊆ input.tokens

theorem fair_ok {a : α} {rest : List Token} (holds : Q a) (among : rest ⊆ input.tokens) :
    Fair input Q (.ok (a, rest)) := by
  refine ⟨failsOnly_ok (a, rest), ?_⟩
  rintro _ _ ⟨⟩
  exact ⟨holds, among⟩

theorem fair_error {e : ParseError} (complaint : input.Complaint e) : Fair input Q (.error e) := by
  refine ⟨failsOnly_error.mpr complaint, ?_⟩
  rintro _ _ ⟨⟩

/-- A rule that ends as it may, whichever tokens of the input it is applied to. -/
def Gives (input : Input) (rule : Rule α) (Q : α → Prop) : Prop :=
  ∀ tokens, tokens ⊆ input.tokens → Fair input Q (rule.run tokens)

theorem gives_pure {a : α} (holds : Q a) : Gives input (pure a) Q :=
  fun _ among => fair_ok holds among

theorem gives_throw {e : ParseError} (complaint : input.Complaint e) : Gives input (throw e : Rule α) Q :=
  fun _ _ => fair_error complaint

theorem Fair.bind {x : Rule α} {f : α → Rule β} {tokens : List Token} (first : Fair input Q (x.run tokens))
    (second : ∀ a, Q a → (f a).Gives input R) : Fair input R ((x >>= f).run tokens) := by
  rw [StateT.run_bind]
  cases ran : x.run tokens with
  | error e => exact fair_error (first.refuses e ran)
  | ok result =>
    obtain ⟨holds, among⟩ := first.reads _ _ ran
    exact second _ holds _ among

theorem Gives.bind {x : Rule α} {f : α → Rule β} (first : x.Gives input Q)
    (second : ∀ a, Q a → (f a).Gives input R) : (x >>= f).Gives input R :=
  fun tokens among => (first tokens among).bind second

theorem gives_lift {x : Except ParseError α} (fails : FailsOnly input.Complaint x)
    (holds : ∀ a, x = .ok a → Q a) : Gives input (liftM x : Rule α) Q := by
  cases x with
  | error e => exact gives_throw (failsOnly_error.mp fails)
  | ok a => exact gives_pure (holds a rfl)

theorem gives_get : Gives input (get : Rule (List Token)) (· ⊆ input.tokens) :=
  fun _ among => fair_ok among among

theorem gives_modify {f : List Token → List Token} (takes : ∀ tokens, f tokens ⊆ tokens) :
    Gives input (modify f : Rule Unit) fun _ => True :=
  fun tokens among => fair_ok trivial (List.Subset.trans (takes tokens) among)

theorem gives_advance : advance.Gives input fun _ => True :=
  gives_modify fun tokens => (List.tail_sublist tokens).subset

/-- The tokens that a rule looks at in a scope. -/
def visible (scope : Scope) (tokens : List Token) : List Token :=
  if scope.bracketed then tokens.dropWhile (·.kind = .newline) else tokens

theorem run_peek (scope : Scope) (tokens : List Token) :
    (peek scope).run tokens = .ok ((visible scope tokens).head?, visible scope tokens) := by
  unfold peek visible
  cases scope.bracketed <;> rfl

theorem visible_subset (scope : Scope) (tokens : List Token) : visible scope tokens ⊆ tokens := by
  unfold visible
  split
  · exact List.dropWhile_subset _
  · exact List.Subset.refl _

theorem gives_peek (scope : Scope) :
    (peek scope).Gives input fun next => ∀ token, next = some token → token ∈ input.tokens := by
  intro tokens among
  have amongVisible := List.Subset.trans (visible_subset scope tokens) among
  rw [run_peek]
  exact fair_ok (fun token isNext => amongVisible (List.mem_of_mem_head? isNext)) amongVisible

theorem visible_visible (scope : Scope) (tokens : List Token) :
    visible scope (visible scope tokens) = visible scope tokens := by
  unfold visible
  split
  · exact List.dropWhile_idempotent _ _
  · rfl

theorem run_peekIs (scope : Scope) (accept : TokenKind → Bool) (tokens : List Token) :
    (peekIs scope accept).run tokens =
      .ok ((visible scope tokens).head?.any (accept ·.kind), visible scope tokens) := by
  rw [peekIs, StateT.run_bind, run_peek]
  rfl

/-- A rule that is applied only where a token of an accepted kind comes next. -/
def GivesAt (input : Input) (scope : Scope) (accept : TokenKind → Bool) (rule : Rule α) (Q : α → Prop) : Prop :=
  ∀ tokens, tokens ⊆ input.tokens → (visible scope tokens).head?.any (accept ·.kind) = true →
    Fair input Q (rule.run tokens)

theorem gives_ifPeekIs {scope : Scope} {accept : TokenKind → Bool} {yes no : Rule α}
    (follows : yes.GivesAt input scope accept Q) (otherwise : no.Gives input Q) :
    Gives input (do if ← peekIs scope accept then yes else no) Q := by
  intro tokens among
  have amongVisible := List.Subset.trans (visible_subset scope tokens) among
  rw [StateT.run_bind, run_peekIs]
  change Fair input Q ((if (visible scope tokens).head?.any (accept ·.kind) then yes else no).run
    (visible scope tokens))
  by_cases next : (visible scope tokens).head?.any (accept ·.kind) = true
  · rw [if_pos next]
    exact follows _ amongVisible (by rwa [visible_visible])
  · rw [if_neg next]
    exact otherwise _ amongVisible

theorem GivesAt.bind {scope : Scope} {accept : TokenKind → Bool} {x : Rule α} {f : α → Rule β}
    (first : x.GivesAt input scope accept Q) (second : ∀ a, Q a → (f a).Gives input R) :
    (x >>= f).GivesAt input scope accept R :=
  fun tokens among next => (first tokens among next).bind second

theorem Gives.at {rule : Rule α} (gives : rule.Gives input Q) (scope : Scope) (accept : TokenKind → Bool) :
    rule.GivesAt input scope accept Q :=
  fun tokens among _ => gives tokens among

/-- An item of a repetition is read only where it is seen to follow. -/
theorem gives_many {scope : Scope} {accept : TokenKind → Bool} {item : Rule α}
    (each : item.GivesAt input scope accept Q) :
    (many (peekIs scope accept) item).Gives input fun items => ∀ a ∈ items, Q a := by
  have loop (budget : List Token) :
      (repeatWhile (peekIs scope accept) item budget).Gives input fun items => ∀ a ∈ items, Q a := by
    induction budget with
    | nil => exact gives_pure (by simp)
    | cons _ budget ih =>
      refine gives_ifPeekIs (each.bind fun first holds => ?_) (gives_pure (by simp))
      exact ih.bind fun others hold => gives_pure (by simpa using ⟨holds, hold⟩)
  exact gives_get.bind fun budget _ => loop budget

theorem gives_close {scope : Scope} {bracket : Bracket} {expected : Expectation} {line : Nat}
    (ofKind : ∀ got, ¬ (ParseFault.unexpected expected got).OfSpelling) (placed : input.Placed line) :
    (close scope bracket expected line).Gives input fun _ => True := by
  refine (gives_peek scope).bind fun next among => ?_
  cases next with
  | none => exact gives_throw ⟨id, placed⟩
  | some token =>
    dsimp only
    split
    · exact gives_advance
    · exact gives_throw ⟨ofKind token.image, Input.placed_of_mem (among token rfl)⟩

theorem gives_nonempty {scope : Scope} {bracket : Bracket} {empty : Token → ParseError} {line : Nat}
    (refuses : ∀ token ∈ input.tokens, input.Complaint (empty token)) (placed : input.Placed line) :
    (nonempty scope bracket empty line).Gives input fun _ => True := by
  refine (gives_peek scope).bind fun next among => ?_
  cases next with
  | none => exact gives_throw ⟨id, placed⟩
  | some token =>
    dsimp only
    split
    · exact gives_throw (refuses token (among token rfl))
    · exact gives_pure trivial

end Rule

/-- Every rule of a level reads well-made nodes, or has a reason to refuse the tokens. -/
structure Rules.Sound (input : Input) (rules : Rules) : Prop where
  primary : rules.primary.Gives input Node.WellMade
  expression : rules.expression.Gives input Node.WellMade
  statement : rules.statement.Gives input Node.WellMade
  program : rules.program.Gives input fun nodes => ∀ node ∈ nodes, node.WellMade

/-- A descent from a scope of the input gives sound rules, or refuses to go deeper for a reason. -/
structure Descent.Sound (input : Input) (descend : Descent) : Prop where
  refuses : ∀ scope line, input.Placed line → FailsOnly input.Complaint (descend scope line)
  reads : ∀ scope line rules, scope.endLine = input.endLine → descend scope line = .ok rules → rules.Sound input

namespace Rule

variable {input : Input}

theorem gives_parenthesized {scope : Scope} {statement : Rule Node} {line : Nat}
    (inner : statement.Gives input Node.WellMade) (placed : input.Placed line) :
    (parenthesized scope statement line).Gives input Node.WellMade := by
  refine (gives_nonempty ?_ placed).bind fun _ _ => ?_
  · exact fun _ _ => ⟨id, placed⟩
  refine inner.bind fun node wellMade => ?_
  exact (gives_close (fun _ => id) placed).bind fun _ _ => gives_pure wellMade

theorem gives_elements {scope : Scope} {expression : Rule Node} {bracket : Bracket} {line : Nat}
    (inner : expression.Gives input Node.WellMade) (placed : input.Placed line) :
    (elements scope expression bracket line).Gives input fun nodes =>
      1 ≤ nodes.length ∧ ∀ node ∈ nodes, node.WellMade := by
  refine (gives_nonempty ?_ placed).bind fun _ _ => ?_
  · exact fun _ _ => ⟨id, placed⟩
  refine inner.bind fun first firstMade => ?_
  refine (gives_many (Q := Node.WellMade) (Gives.at ?_ _ _)).bind fun others othersMade => ?_
  · refine gives_advance.bind fun _ _ => ?_
    refine (gives_nonempty (fun token member => ?_) placed).bind fun _ _ => inner
    exact ⟨id, Input.placed_of_mem member⟩
  · refine (gives_close (fun _ => id) placed).bind fun _ _ => gives_pure ⟨by simp, ?_⟩
    simpa using ⟨firstMade, othersMade⟩

theorem wellMade_foldl_modified {modifiers : List (Modifier × Nat)} {operand : Node}
    (monadic : ∀ item ∈ modifiers, item.1.arity = .monadic) (wellMade : operand.WellMade) :
    (modifiers.foldl (fun node (modifier, line) => .modified modifier node line) operand).WellMade := by
  induction modifiers generalizing operand with
  | nil => exact wellMade
  | cons item modifiers ih =>
    apply ih fun other member => monadic other (List.mem_cons_of_mem item member)
    exact Node.wellMade_of_children (monadic item List.mem_cons_self) (by simpa [Node.children])

section Level

variable (legible : ∀ token ∈ input.tokens, token.Legible)

include legible

theorem gives_monadicModifier (scope : Scope) :
    (monadicModifier scope).GivesAt input scope (· = .monadicModifier) fun item =>
      item.1.arity = .monadic := by
  intro tokens among next
  have amongVisible := List.Subset.trans (visible_subset scope tokens) among
  rw [monadicModifier, StateT.run_bind, run_peek]
  cases head : (visible scope tokens).head? with
  | none => simp [head] at next
  | some token =>
    have kind : token.kind = .monadicModifier := by simpa [head] using next
    obtain ⟨modifier, spells, monadic⟩ := (legible token (amongVisible (List.mem_of_mem_head? head))).monadic kind
    have reads : Gives input (do
        advance
        return (← glyphModifier token, token.line)) fun item => item.1.arity = .monadic := by
      rw [spells]
      exact gives_advance.bind fun _ _ => gives_pure monadic
    exact reads _ amongVisible

variable {descend : Descent} (deeper : descend.Sound input) {scope : Scope} (ends : scope.endLine = input.endLine)

include deeper ends

theorem gives_primary : (primary descend scope).Gives input Node.WellMade := by
  have leaf {node : Node} (fits : node.Fits) (plain : node.children = []) :
      Gives input (pure node) Node.WellMade :=
    gives_pure (Node.wellMade_of_children fits (by simp [plain]))
  refine (gives_peek scope).bind fun next among => ?_
  cases next with
  | none => exact gives_throw ⟨id, .inl ends⟩
  | some token =>
    have member := among token rfl
    have placed := Input.placed_of_mem member
    have spelled := legible token member
    have inside : Gives input (liftM (descend scope.insideBrackets token.line) : Rule Rules) (Rules.Sound input) :=
      gives_lift (deeper.refuses _ _ placed) (fun rules => deeper.reads _ _ rules ends)
    refine gives_advance.bind fun _ _ => ?_
    dsimp only
    split
    · rename_i kind
      obtain ⟨value, spells⟩ := spelled.number kind
      rw [spells]
      exact leaf trivial rfl
    · exact leaf trivial rfl
    · rename_i kind
      obtain ⟨c, spells⟩ := spelled.character kind
      rw [spells]
      exact leaf trivial rfl
    · exact leaf trivial rfl
    · rename_i kind
      obtain ⟨primitive, spells⟩ := spelled.function (.inl kind)
      rw [spells]
      exact leaf rfl rfl
    · rename_i kind
      obtain ⟨primitive, spells⟩ := spelled.function (.inr kind)
      rw [spells]
      exact leaf rfl rfl
    · exact inside.bind fun inner sound => gives_parenthesized sound.statement placed
    · refine inside.bind fun inner sound => ?_
      refine (gives_elements sound.expression placed).bind fun nodes made => ?_
      exact gives_pure (Node.wellMade_of_children made.1 made.2)
    · refine inside.bind fun inner sound => ?_
      refine (gives_elements sound.expression placed).bind fun nodes made => ?_
      exact gives_pure (Node.wellMade_of_children made.1 made.2)
    · exact gives_throw ⟨id, placed⟩

theorem gives_modified : (modified descend scope).Gives input Node.WellMade := by
  refine (gives_primary legible deeper ends).bind fun operand operandMade => ?_
  refine (gives_many (gives_monadicModifier legible scope)).bind fun modifiers monadic => ?_
  have left := wellMade_foldl_modified monadic operandMade
  refine (gives_peek scope).bind fun next among => ?_
  cases next with
  | none => exact gives_pure left
  | some token =>
    have member := among token rfl
    have placed := Input.placed_of_mem member
    dsimp only
    split
    · rename_i kind
      obtain ⟨modifier, spells, dyadic⟩ := (legible token member).dyadic kind
      rw [spells]
      refine gives_advance.bind fun _ _ => ?_
      refine gives_ifPeekIs (Gives.at ?_ _ _) (gives_throw ⟨id, placed⟩)
      refine (gives_lift (deeper.refuses _ _ placed) fun rules => deeper.reads _ _ rules ends).bind
        fun inner sound => ?_
      refine sound.primary.bind fun right rightMade => gives_pure ?_
      exact Node.wellMade_of_children dyadic (by simpa [Node.children] using ⟨left, rightMade⟩)
    · exact gives_pure left

theorem gives_strandElement : (strandElement descend scope).Gives input Node.WellMade := by
  refine (gives_peek scope).bind fun ligature among => ?_
  have placed : input.Placed ((ligature.map Token.line).getD scope.endLine) := by
    cases ligature with
    | none => exact .inl ends
    | some token => exact Input.placed_of_mem (among token rfl)
  refine gives_advance.bind fun _ _ => ?_
  refine (gives_peek scope).bind fun next among => ?_
  cases next with
  | none => exact gives_throw ⟨id, placed⟩
  | some token =>
    dsimp only
    split
    · exact gives_modified legible deeper ends
    · exact gives_throw ⟨id, Input.placed_of_mem (among token rfl)⟩

theorem gives_strand : (strand descend scope).Gives input Node.WellMade := by
  refine (gives_peek scope).bind fun next among => ?_
  cases next with
  | none => exact gives_throw ⟨id, .inl ends⟩
  | some token =>
    dsimp only
    split
    · refine (gives_modified legible deeper ends).bind fun first firstMade => ?_
      refine (gives_many ((gives_strandElement legible deeper ends).at _ _)).bind fun others made => ?_
      cases others with
      | nil => exact gives_pure firstMade
      | cons second others =>
        refine gives_pure (Node.wellMade_of_children (by simp [Node.Fits]) ?_)
        exact List.forall_mem_cons.mpr ⟨firstMade, made⟩
    · exact gives_throw ⟨id, Input.placed_of_mem (among token rfl)⟩

theorem gives_expression : (expression descend scope).Gives input Node.WellMade := by
  have strands := gives_strand legible deeper ends
  refine strands.bind fun first firstMade => ?_
  refine (gives_many (strands.at _ _)).bind fun others made => ?_
  cases others with
  | nil => exact gives_pure firstMade
  | cons second others =>
    refine gives_pure (Node.wellMade_of_children (by simp [Node.Fits]) ?_)
    exact List.forall_mem_cons.mpr ⟨firstMade, made⟩

omit legible in
theorem gives_bindingValue {name : Token} (member : name ∈ input.tokens) (arity : Option Arity) :
    (bindingValue descend scope name arity).Gives input Node.WellMade := by
  have placed := Input.placed_of_mem member
  refine (gives_peek scope).bind fun next _ => ?_
  have value : Gives input (do
      let inner ← descend scope name.line
      return .binding name.image arity (← inner.statement) name.line) Node.WellMade := by
    refine (gives_lift (deeper.refuses _ _ placed) fun rules => deeper.reads _ _ rules ends).bind
      fun inner sound => ?_
    refine sound.statement.bind fun value valueMade => gives_pure ?_
    exact Node.wellMade_of_children trivial (by simpa [Node.children] using valueMade)
  split
  · exact (gives_throw ⟨id, placed⟩).bind fun _ (_ : True) => value
  · exact value

theorem gives_statement : (statement descend scope).Gives input Node.WellMade := by
  have expressions := gives_expression legible deeper ends
  refine (gives_peek scope).bind fun next among => ?_
  cases next with
  | none => exact expressions
  | some token =>
    dsimp only
    split
    · refine gives_get.bind fun tokens _ => ?_
      split
      · refine gives_advance.bind fun _ _ => gives_advance.bind fun _ _ => ?_
        exact gives_bindingValue deeper ends (among token rfl) _
      · exact expressions
    · exact expressions

theorem gives_statements (budget : List Token) :
    (statements descend scope budget).Gives input fun nodes => ∀ node ∈ nodes, node.WellMade := by
  induction budget with
  | nil => exact gives_pure (by simp)
  | cons _ budget ih =>
    refine (gives_modify fun tokens => List.dropWhile_subset _).bind fun _ _ => ?_
    refine gives_ifPeekIs (Gives.at ?_ _ _) (gives_pure (by simp))
    refine (gives_statement legible deeper ends).bind fun first firstMade => ?_
    refine gives_ifPeekIs (Gives.at ?_ _ _) (gives_pure (by simpa using firstMade))
    exact ih.bind fun others made => gives_pure (by simpa using ⟨firstMade, made⟩)

end Level

end Rule

namespace Rules

variable {input : Input} (legible : ∀ token ∈ input.tokens, token.Legible)

include legible

/-- Where the next level in is sound, so is this one. -/
theorem sound_layer {descend : Descent} (deeper : descend.Sound input) {scope : Scope}
    (ends : scope.endLine = input.endLine) : (layer descend scope).Sound input where
  primary := Rule.gives_primary legible deeper ends
  expression := Rule.gives_expression legible deeper ends
  statement := Rule.gives_statement legible deeper ends
  program := Rule.gives_get.bind fun budget _ => Rule.gives_statements legible deeper ends budget

theorem sound_below (levels : Nat) : (below levels).Sound input := by
  induction levels with
  | zero =>
    refine ⟨fun scope line placed => ?_, ?_⟩
    · exact failsOnly_error.mpr ⟨id, placed⟩
    · rintro _ _ _ _ ⟨⟩
  | succ levels ih =>
    refine ⟨fun scope line _ => failsOnly_ok _, ?_⟩
    rintro scope _ _ ends ⟨⟩
    rw [withLevels_eq_layer]
    exact sound_layer legible ih ends

end Rules

/-- The programs that are read from legible tokens are well made, and if such tokens are refused, then for a
reason. -/
theorem parse_of_legible {tokens : List Token} (legible : ∀ token ∈ tokens, token.Legible) (limit : Nat) :
    FailsOnly (Input.Complaint ⟨tokens, (tokens.getLast?.map Token.line).getD 1⟩) (parse limit tokens) ∧
      ∀ program, parse limit tokens = .ok program → ∀ node ∈ program, node.WellMade := by
  let input : Input := ⟨tokens, (tokens.getLast?.map Token.line).getD 1⟩
  have sound := Rules.sound_layer legible (Rules.sound_below legible limit)
    (show (Scope.outermost limit input.endLine).endLine = input.endLine from rfl)
  rw [← Rules.withLevels_eq_layer] at sound
  have fair := sound.program (significant tokens) (List.filter_subset_self tokens)
  constructor
  · exact failsOnly_map.mpr fair.refuses
  · intro program parsed
    obtain ⟨⟨nodes, rest⟩, ran, rfl⟩ := map_eq_ok.mp parsed
    exact (fair.reads nodes rest ran).1

end Tacit
