import Tacit.Proofs.Reading

/-! Derivations. The grammar of programs is stated apart from the rules that read it, as relations
between tokens and the nodes they stand for. Whatever a rule reads, in whatever scope, is derived by
the tokens it takes once the breaks between lines are left out. -/
namespace Tacit

def bare (tokens : List Token) : List Token := tokens.filter (·.kind ≠ .newline)

@[simp] theorem bare_nil : bare [] = [] := rfl

@[simp] theorem bare_append (first second : List Token) :
    bare (first ++ second) = bare first ++ bare second :=
  List.filter_append ..

theorem bare_cons_of_ne {token : Token} (kind : token.kind ≠ .newline) (tokens : List Token) :
    bare (token :: tokens) = token :: bare tokens := by
  simp [bare, kind]

/-- There is a first token, and it is of an accepted kind. -/
def Starts (accept : TokenKind → Bool) (tokens : List Token) : Prop :=
  ∃ token later, tokens = token :: later ∧ accept token.kind = true

theorem Starts.append {accept : TokenKind → Bool} {first : List Token} (starts : Starts accept first)
    (second : List Token) : Starts accept (first ++ second) := by
  obtain ⟨token, later, rfl, accepted⟩ := starts
  exact ⟨token, later ++ second, rfl, accepted⟩

theorem Starts.ne_nil {accept : TokenKind → Bool} {tokens : List Token} (starts : Starts accept tokens) :
    tokens ≠ [] := by
  obtain ⟨token, later, rfl, -⟩ := starts
  simp

namespace Grammar

/-- Modifiers of one operand, each applied to all that stands before it. -/
inductive Wraps : Node → List Token → Node → Prop
  | done (node : Node) : Wraps node [] node
  | next {node final : Node} {mark : Token} {modifier : Modifier} {marks : List Token}
      (kind : mark.kind = .monadicModifier) (spells : Rule.glyphModifier mark = .ok modifier)
      (others : Wraps (.modified modifier node mark.line) marks final) :
      Wraps node (mark :: marks) final

/-- Several parts make a group on the line of the first; one part alone stays as it is. -/
def grouped (group : List Node → Nat → Node) (first : Node) : List Node → Node
  | [] => first
  | others => group (first :: others) first.line

/-! Each relation is indexed by a number of levels that its derivations may nest: a bracket pair, the
right operand of a modifier and the value of a binding each use up one of them. -/
mutual

/-- `primary := literal | name | function | '(' statement ')' | '[' elements ']' | '⟨' elements '⟩'` -/
inductive Primary : Nat → List Token → Node → Prop
  | number {levels : Nat} {token : Token} {value : Float} (kind : token.kind = .number)
      (spells : Rule.numberOf token = .ok value) :
      Primary levels [token] (.number value token.line)
  | string {levels : Nat} {token : Token} (kind : token.kind = .string) :
      Primary levels [token] (.string (Quoted.content token.image) token.line)
  | character {levels : Nat} {token : Token} {value : Char} (kind : token.kind = .character)
      (spells : Rule.characterOf token = .ok value) :
      Primary levels [token] (.character value token.line)
  | reference {levels : Nat} {token : Token} (kind : token.kind = .identifier) :
      Primary levels [token] (.reference token.image token.line)
  | function {levels : Nat} {token : Token} {primitive : Primitive}
      (kind : token.kind = .monadicFunction ∨ token.kind = .dyadicFunction)
      (spells : Rule.glyphFunction token = .ok primitive) :
      Primary levels [token] (.glyph primitive primitive.arity token.line)
  | parenthesized {levels : Nat} {opening closing : Token} {inside : List Token} {node : Node}
      (opens : opening.kind = .openParen) (inner : Statement levels inside node)
      (closes : closing.kind = .closeParen) :
      Primary (levels + 1) (opening :: inside ++ [closing]) node
  | array {levels : Nat} {opening closing : Token} {inside : List Token} {nodes : List Node}
      (opens : opening.kind = .openArray) (inner : Elements levels inside nodes)
      (closes : closing.kind = .closeArray) :
      Primary (levels + 1) (opening :: inside ++ [closing]) (.array nodes opening.line)
  | list {levels : Nat} {opening closing : Token} {inside : List Token} {nodes : List Node}
      (opens : opening.kind = .openList) (inner : Elements levels inside nodes)
      (closes : closing.kind = .closeList) :
      Primary (levels + 1) (opening :: inside ++ [closing]) (.list nodes opening.line)

/-- `modified := primary monadicModifier* (dyadicModifier primary)?` -/
inductive Modified : Nat → List Token → Node → Prop
  | wrapped {levels : Nat} {tokens marks : List Token} {operand node : Node}
      (primary : Primary levels tokens operand) (wraps : Wraps operand marks node) :
      Modified levels (tokens ++ marks) node
  | combined {levels : Nat} {tokens marks others : List Token} {operand left right : Node}
      {mark : Token} {modifier : Modifier} (primary : Primary (levels + 1) tokens operand)
      (wraps : Wraps operand marks left) (kind : mark.kind = .dyadicModifier)
      (spells : Rule.glyphModifier mark = .ok modifier) (second : Primary levels others right) :
      Modified (levels + 1) (tokens ++ marks ++ mark :: others) (.combined modifier left right mark.line)

/-- `ligature modified` -/
inductive Joined : Nat → List Token → Node → Prop
  | behind {levels : Nat} {mark : Token} {tokens : List Token} {node : Node}
      (kind : mark.kind = .ligature) (element : Modified levels tokens node) :
      Joined levels (mark :: tokens) node

/-- `strand := modified (ligature modified)*` -/
inductive Strand : Nat → List Token → Node → Prop
  | elements {levels : Nat} {tokens : List Token} {first : Node} {others : List (List Token × Node)}
      (begins : Modified levels tokens first) (each : ∀ part ∈ others, Joined levels part.1 part.2) :
      Strand levels (tokens ++ others.flatMap Prod.fst) (grouped .strand first (others.map Prod.snd))

/-- `expression := strand strand*` -/
inductive Expression : Nat → List Token → Node → Prop
  | tines {levels : Nat} {tokens : List Token} {first : Node} {others : List (List Token × Node)}
      (begins : Strand levels tokens first) (each : ∀ part ∈ others, Strand levels part.1 part.2) :
      Expression levels (tokens ++ others.flatMap Prod.fst) (grouped .train first (others.map Prod.snd))

/-- `separator expression` -/
inductive Separated : Nat → List Token → Node → Prop
  | behind {levels : Nat} {mark : Token} {tokens : List Token} {node : Node}
      (kind : mark.kind = .separator) (element : Expression levels tokens node) :
      Separated levels (mark :: tokens) node

/-- `elements := expression (separator expression)*` -/
inductive Elements : Nat → List Token → List Node → Prop
  | listed {levels : Nat} {tokens : List Token} {first : Node} {others : List (List Token × Node)}
      (begins : Expression levels tokens first)
      (each : ∀ part ∈ others, Separated levels part.1 part.2) :
      Elements levels (tokens ++ others.flatMap Prod.fst) (first :: others.map Prod.snd)

/-- `statement := name marker statement | expression` -/
inductive Statement : Nat → List Token → Node → Prop
  | plain {levels : Nat} {tokens : List Token} {node : Node} (only : Expression levels tokens node) :
      Statement levels tokens node
  | binding {levels : Nat} {name marker : Token} {arity : Option Arity} {tokens : List Token}
      {value : Node} (named : name.kind = .identifier) (marked : marker.kind = .binding arity)
      (bound : Statement levels tokens value) :
      Statement (levels + 1) (name :: marker :: tokens) (.binding name.image arity value name.line)

end

variable {levels : Nat} {tokens : List Token} {node : Node}

theorem Primary.starts (derived : Primary levels tokens node) : Starts Rule.beginsPrimary tokens := by
  cases derived with
  | number kind | string kind | character kind | reference kind =>
    exact ⟨_, [], rfl, by simp [kind, Rule.beginsPrimary]⟩
  | function kind => exact ⟨_, [], rfl, by rcases kind with kind | kind <;> simp [kind, Rule.beginsPrimary]⟩
  | parenthesized opens | array opens | list opens =>
    exact ⟨_, _, rfl, by simp [opens, Rule.beginsPrimary]⟩

theorem Modified.starts (derived : Modified levels tokens node) : Starts Rule.beginsPrimary tokens := by
  cases derived with
  | wrapped primary => exact primary.starts.append _
  | combined primary => exact (primary.starts.append _).append _

theorem Strand.starts (derived : Strand levels tokens node) : Starts Rule.beginsPrimary tokens := by
  cases derived with
  | elements begins => exact begins.starts.append _

theorem Expression.starts (derived : Expression levels tokens node) :
    Starts Rule.beginsPrimary tokens := by
  cases derived with
  | tines begins => exact begins.starts.append _

theorem Statement.starts (derived : Statement levels tokens node) :
    Starts Rule.beginsPrimary tokens := by
  cases derived with
  | plain only => exact only.starts
  | binding named => exact ⟨_, _, rfl, by simp [named, Rule.beginsPrimary]⟩

end Grammar

namespace Rule

variable {α β : Type} {R : List Token → α → Prop} {S : List Token → β → Prop}

theorem run_bind_of_ok {x : Rule α} {f : α → Rule β} {tokens rest : List Token} {a : α}
    (ran : x.run tokens = .ok (a, rest)) : (x >>= f).run tokens = (f a).run rest := by
  rw [StateT.run_bind, ran]
  rfl

/-- What a rule reads is related to the tokens it takes, breaks between lines apart. -/
def Takes (rule : Rule α) (R : List Token → α → Prop) : Prop :=
  ∀ tokens a rest, rule.run tokens = .ok (a, rest) →
    ∃ taken, tokens = taken ++ rest ∧ R (bare taken) a

/-- The same of a rule that is applied where a certain token comes next. -/
def TakesAt (token : Token) (rule : Rule α) (R : List Token → α → Prop) : Prop :=
  ∀ later a rest, rule.run (token :: later) = .ok (a, rest) →
    ∃ taken, token :: later = taken ++ rest ∧ R (bare taken) a

theorem Takes.at {rule : Rule α} (takes : rule.Takes R) (token : Token) : TakesAt token rule R :=
  fun later => takes (token :: later)

/-- Taking more than breaks leaves fewer tokens. -/
theorem length_lt_of_taken {tokens taken rest : List Token} (split : tokens = taken ++ rest)
    (some : bare taken ≠ []) : rest.length < tokens.length := by
  have positive : 0 < taken.length := List.length_pos_of_ne_nil fun empty => some (by rw [empty]; rfl)
  rw [split, List.length_append]
  omega

theorem TakesAt.shortens {token : Token} {rule : Rule α} {later : List Token} {result : α × List Token}
    (consumes : TakesAt token rule fun taken _ => taken ≠ [])
    (ran : rule.run (token :: later) = .ok result) : result.2.length < (token :: later).length := by
  obtain ⟨taken, split, some⟩ := consumes later result.1 result.2 ran
  exact length_lt_of_taken split some

theorem Takes.shortens {rule : Rule α} {tokens : List Token} {result : α × List Token}
    (consumes : rule.Takes fun taken _ => taken ≠ []) (ran : rule.run tokens = .ok result) :
    result.2.length < tokens.length := by
  obtain ⟨taken, split, some⟩ := consumes tokens result.1 result.2 ran
  exact length_lt_of_taken split some

theorem takes_pure {a : α} (holds : R [] a) : Takes (pure a) R := by
  intro tokens b rest ran
  cases ran
  exact ⟨[], rfl, holds⟩

theorem takes_throw (e : ParseError) : Takes (throw e : Rule α) R := by
  intro tokens b rest ran
  cases ran

/-- A refusal that needs no tokens. -/
theorem takes_lift (x : Except ParseError α) :
    Takes (liftM x : Rule α) fun taken a => taken = [] ∧ x = .ok a := by
  intro tokens a rest ran
  cases x with
  | error e => cases ran
  | ok b =>
    cases ran
    exact ⟨[], rfl, rfl, rfl⟩

theorem Takes.mono {rule : Rule α} {Q : List Token → α → Prop} (takes : rule.Takes Q)
    (weaker : ∀ taken a, Q taken a → R taken a) : rule.Takes R := by
  intro tokens a rest ran
  obtain ⟨taken, split, related⟩ := takes tokens a rest ran
  exact ⟨taken, split, weaker _ a related⟩

theorem TakesAt.mono {token : Token} {rule : Rule α} {Q : List Token → α → Prop}
    (takes : TakesAt token rule Q) (weaker : ∀ taken a, Q taken a → R taken a) : TakesAt token rule R := by
  intro later a rest ran
  obtain ⟨taken, split, related⟩ := takes later a rest ran
  exact ⟨taken, split, weaker _ a related⟩

theorem Takes.bind {x : Rule α} {f : α → Rule β} (first : x.Takes R)
    (second : ∀ taken a, R taken a → (f a).Takes fun later b => S (taken ++ later) b) :
    (x >>= f).Takes S := by
  intro tokens b rest ran
  rw [StateT.run_bind, bind_eq_ok] at ran
  obtain ⟨⟨a, middle⟩, firstRan, secondRan⟩ := ran
  obtain ⟨taken, rfl, related⟩ := first tokens a middle firstRan
  obtain ⟨later, rfl, holds⟩ := second _ a related middle b rest secondRan
  exact ⟨taken ++ later, by simp, by simpa using holds⟩

theorem TakesAt.bind {token : Token} {x : Rule α} {f : α → Rule β} (first : TakesAt token x R)
    (second : ∀ taken a, R taken a → (f a).Takes fun later b => S (taken ++ later) b) :
    TakesAt token (x >>= f) S := by
  intro later b rest ran
  rw [StateT.run_bind, bind_eq_ok] at ran
  obtain ⟨⟨a, middle⟩, firstRan, secondRan⟩ := ran
  obtain ⟨taken, split, related⟩ := first later a middle firstRan
  obtain ⟨behind, rfl, holds⟩ := second _ a related middle b rest secondRan
  exact ⟨taken ++ behind, by simp [split], by simpa using holds⟩

theorem takesAt_advance (token : Token) : TakesAt token advance fun taken _ => taken = bare [token] := by
  intro later a rest ran
  cases ran
  exact ⟨[token], rfl, rfl⟩

/-- What a rule looks at is all it is given, but for breaks. -/
theorem exists_eq_append_visible (scope : Scope) (tokens : List Token) :
    ∃ breaks, tokens = breaks ++ visible scope tokens ∧ bare breaks = [] := by
  unfold visible
  split
  · refine ⟨tokens.takeWhile (·.kind = .newline), List.takeWhile_append_dropWhile.symm, ?_⟩
    apply List.filter_eq_nil_iff.mpr
    intro token member
    simpa using List.mem_takeWhile_imp member
  · exact ⟨[], rfl, rfl⟩

theorem takes_peek {scope : Scope} {f : Option Token → Rule α} (nothing : (f none).Takes R)
    (next : ∀ token, TakesAt token (f (some token)) R) : (peek scope >>= f).Takes R := by
  intro tokens a rest ran
  obtain ⟨breaks, split, isBare⟩ := exists_eq_append_visible scope tokens
  rw [StateT.run_bind, run_peek] at ran
  change (f (visible scope tokens).head?).run (visible scope tokens) = .ok (a, rest) at ran
  have read : ∃ taken, visible scope tokens = taken ++ rest ∧ R (bare taken) a := by
    cases shown : visible scope tokens with
    | nil =>
      rw [shown] at ran
      exact nothing [] a rest ran
    | cons token later =>
      rw [shown] at ran
      exact next token later a rest ran
  obtain ⟨taken, shown, related⟩ := read
  exact ⟨breaks ++ taken, by rw [split, shown, List.append_assoc], by simpa [isBare] using related⟩

theorem takesAt_peek {scope : Scope} {token : Token} {f : Option Token → Rule α}
    (kind : token.kind ≠ .newline) (next : TakesAt token (f (some token)) R) :
    TakesAt token (peek scope >>= f) R := by
  intro later a rest ran
  have shown : visible scope (token :: later) = token :: later := by
    simp [visible, kind]
  rw [StateT.run_bind, run_peek, shown] at ran
  exact next later a rest ran

theorem takes_ifPeekIs {scope : Scope} {accept : TokenKind → Bool} {yes no : Rule α}
    (follows : ∀ token, accept token.kind = true → TakesAt token yes R) (otherwise : no.Takes R) :
    Takes (do if ← peekIs scope accept then yes else no) R := by
  have asPeek : (do if ← peekIs scope accept then yes else no : Rule α) =
      peek scope >>= fun next => if next.any (accept ·.kind) then yes else no := by
    simp [peekIs]
  rw [asPeek]
  refine takes_peek otherwise fun token => ?_
  by_cases accepted : accept token.kind = true
  · simpa [accepted] using follows token accepted
  · simpa [accepted] using otherwise.at token

/-- A sequence of parts that stand one behind the other. -/
def Parts (R : List Token → α → Prop) (taken : List Token) (items : List α) : Prop :=
  ∃ parts : List (List Token × α), taken = parts.flatMap Prod.fst ∧ items = parts.map Prod.snd ∧
    ∀ part ∈ parts, R part.1 part.2

theorem parts_nil : Parts R [] [] := ⟨[], rfl, rfl, by simp⟩

theorem Parts.cons {taken others : List Token} {a : α} {items : List α} (first : R taken a)
    (rest : Parts R others items) : Parts R (taken ++ others) (a :: items) := by
  obtain ⟨parts, rfl, rfl, each⟩ := rest
  exact ⟨(taken, a) :: parts, rfl, rfl, List.forall_mem_cons.mpr ⟨first, each⟩⟩

theorem takes_many {scope : Scope} {accept : TokenKind → Bool} {item : Rule α}
    (each : ∀ token, accept token.kind = true → TakesAt token item R) :
    (many (peekIs scope accept) item).Takes (Parts R) := by
  have loop (budget : List Token) :
      (repeatWhile (peekIs scope accept) item budget).Takes (Parts R) := by
    induction budget with
    | nil => exact takes_pure parts_nil
    | cons _ budget ih =>
      refine takes_ifPeekIs (fun token accepted => (each token accepted).bind fun taken a first => ?_)
        (takes_pure parts_nil)
      exact ih.bind fun others items rest => takes_pure (by simpa using Parts.cons first rest)
  intro tokens items rest ran
  exact loop tokens tokens items rest ran

theorem bare_singleton {token : Token} (kind : token.kind ≠ .newline) : bare [token] = [token] :=
  bare_cons_of_ne kind []

theorem takes_close (scope : Scope) (bracket : Bracket) (expected : Expectation) (line : Nat) :
    (close scope bracket expected line).Takes fun taken _ =>
      ∃ closing, taken = [closing] ∧ closing.kind = bracket.closingKind := by
  refine takes_peek (takes_throw _) fun token => ?_
  dsimp only
  split
  · rename_i kind
    intro later a rest ran
    cases ran
    refine ⟨[token], rfl, token, bare_singleton ?_, kind⟩
    cases bracket <;> simp [kind, Bracket.closingKind]
  · exact (takes_throw _).at token

theorem takes_nonempty (scope : Scope) (bracket : Bracket) (empty : Token → ParseError) (line : Nat) :
    (nonempty scope bracket empty line).Takes fun taken _ => taken = [] := by
  refine takes_peek (takes_throw _) fun token => ?_
  dsimp only
  split
  · exact (takes_throw _).at token
  · exact Takes.at (takes_pure (by rfl)) token

end Rule

/-- Every rule of a level reads what the grammar derives within a number of levels. -/
structure Rules.Derives (levels : Nat) (rules : Rules) : Prop where
  primary : rules.primary.Takes (Grammar.Primary levels)
  expression : rules.expression.Takes (Grammar.Expression levels)
  statement : rules.statement.Takes (Grammar.Statement levels)

namespace Rule

open Grammar

theorem takes_parenthesized {scope : Scope} {statement : Rule Node} {levels : Nat}
    (inner : statement.Takes (Statement levels)) (line : Nat) :
    (parenthesized scope statement line).Takes fun taken node =>
      ∃ inside closing, taken = inside ++ [closing] ∧ Statement levels inside node ∧
        closing.kind = .closeParen := by
  refine (takes_nonempty scope .paren _ line).bind fun _ _ isEmpty => ?_
  subst isEmpty
  refine inner.bind fun inside node derived => ?_
  refine (takes_close scope .paren _ line).bind fun _ _ ⟨closing, isTaken, closes⟩ => ?_
  exact takes_pure ⟨inside, closing, by simp [isTaken], derived, closes⟩

theorem takes_separated (scope : Scope) {expression : Rule Node} {levels : Nat}
    (inner : expression.Takes (Expression levels)) (bracket : Bracket) (line : Nat) (token : Token)
    (isMark : decide (token.kind = .separator) = true) :
    TakesAt token (do
      advance
      nonempty scope bracket (fun token => ⟨.trailingSeparator, token.line⟩) line
      expression) (Separated levels) := by
  have kind : token.kind = .separator := of_decide_eq_true isMark
  refine (takesAt_advance token).bind fun _ _ isTaken => ?_
  refine (takes_nonempty scope bracket _ line).bind fun _ _ isEmpty => ?_
  subst isTaken isEmpty
  rw [bare_singleton (by simp [kind])]
  exact inner.mono fun taken node derived => .behind kind derived

theorem takes_elements {scope : Scope} {expression : Rule Node} {levels : Nat}
    (inner : expression.Takes (Expression levels)) (bracket : Bracket) (line : Nat) :
    (elements scope expression bracket line).Takes fun taken nodes =>
      ∃ inside closing, taken = inside ++ [closing] ∧ Elements levels inside nodes ∧
        closing.kind = bracket.closingKind := by
  refine (takes_nonempty scope bracket _ line).bind fun _ _ isEmpty => ?_
  subst isEmpty
  refine inner.bind fun tokens first begins => ?_
  refine (takes_many (takes_separated scope inner bracket line)).bind
    fun others nodes ⟨parts, isOthers, isNodes, each⟩ => ?_
  refine (takes_close scope bracket _ line).bind fun _ _ ⟨closing, isTaken, closes⟩ => ?_
  subst isOthers isNodes isTaken
  exact takes_pure ⟨_, closing, by simp, .listed begins each, closes⟩

/-- A modifier of one operand, with its line, is spelled by one token. -/
def Marks (taken : List Token) (item : Modifier × Nat) : Prop :=
  ∃ mark, taken = [mark] ∧ mark.kind = .monadicModifier ∧ glyphModifier mark = .ok item.1 ∧
    item.2 = mark.line

theorem takes_monadicModifier (scope : Scope) (token : Token)
    (isMark : decide (token.kind = .monadicModifier) = true) :
    TakesAt token (monadicModifier scope) Marks := by
  have kind : token.kind = .monadicModifier := of_decide_eq_true isMark
  refine takesAt_peek (by simp [kind]) ?_
  refine (takesAt_advance token).bind fun _ _ isTaken => ?_
  subst isTaken
  refine (takes_lift (glyphModifier token)).bind fun _ modifier ⟨isEmpty, spells⟩ => takes_pure ?_
  exact ⟨token, by simp [isEmpty, bare_singleton, kind], kind, spells, rfl⟩

/-- Modifiers read one after the other wrap the operand in turn. -/
theorem wraps_of_marks {parts : List (List Token × (Modifier × Nat))} (operand : Node)
    (each : ∀ part ∈ parts, Marks part.1 part.2) :
    Wraps operand (parts.flatMap Prod.fst)
      ((parts.map Prod.snd).foldl (fun node (modifier, line) => .modified modifier node line) operand) := by
  induction parts generalizing operand with
  | nil => exact .done operand
  | cons part parts ih =>
    obtain ⟨⟨mark, isMark, kind, spells, isLine⟩, others⟩ := List.forall_mem_cons.mp each
    have later := ih (.modified part.2.1 operand part.2.2) others
    rw [List.flatMap_cons, isMark]
    rw [isLine] at later
    exact .next kind spells (by simpa [isLine] using later)

def marker? : TokenKind → Option (Option Arity)
  | .binding arity => some arity
  | _ => none

/-- A marker is seen past breaks where those are not seen. -/
theorem markerAfterName?_eq (scope : Scope) (tokens : List Token) :
    markerAfterName? scope tokens = (visible scope tokens).head?.bind (marker? ·.kind) := by
  have next : (if scope.bracketed then tokens.dropWhile (·.kind = .newline) else tokens) =
    visible scope tokens := rfl
  rw [markerAfterName?]
  simp only [next]
  cases visible scope tokens with
  | nil => rfl
  | cons marker behind => cases kind : marker.kind <;> simp [kind, marker?]

theorem markerAfterName?_eq_some {scope : Scope} {tokens : List Token} {arity : Option Arity} :
    markerAfterName? scope tokens = some arity ↔
      ∃ marker behind, visible scope tokens = marker :: behind ∧ marker.kind = .binding arity := by
  rw [markerAfterName?_eq]
  cases visible scope tokens with
  | nil => simp
  | cons marker behind => cases kind : marker.kind <;> simp [kind, marker?]

/-- What a statement that begins with a name is read as, given the marker behind the name. -/
def afterName (descend : Descent) (scope : Scope) (name : Token) : Option (Option Arity) → Rule Node
  | some arity => do
    advance
    advance
    bindingValue descend scope name arity
  | none => expression descend scope

section Level

variable {descend : Descent} {levels : Nat}
  (deeper : ∀ scope line rules, descend scope line = .ok rules →
    ∃ inner, levels = inner + 1 ∧ rules.Derives inner)

include deeper

theorem takes_primary (scope : Scope) : (primary descend scope).Takes (Primary levels) := by
  refine takes_peek (takes_throw _) fun token => ?_
  refine (takesAt_advance token).bind fun _ _ isTaken => ?_
  subst isTaken
  dsimp only
  split
  · rename_i kind
    refine (takes_lift (numberOf token)).bind fun _ value ⟨isEmpty, spells⟩ => takes_pure ?_
    simpa [isEmpty, bare_singleton, kind] using .number kind spells
  · rename_i kind
    exact takes_pure (by simpa [bare_singleton, kind] using .string kind)
  · rename_i kind
    refine (takes_lift (characterOf token)).bind fun _ value ⟨isEmpty, spells⟩ => takes_pure ?_
    simpa [isEmpty, bare_singleton, kind] using .character kind spells
  · rename_i kind
    exact takes_pure (by simpa [bare_singleton, kind] using .reference kind)
  · rename_i kind
    refine (takes_lift (glyphFunction token)).bind fun _ value ⟨isEmpty, spells⟩ => takes_pure ?_
    simpa [isEmpty, bare_singleton, kind] using .function (.inl kind) spells
  · rename_i kind
    refine (takes_lift (glyphFunction token)).bind fun _ value ⟨isEmpty, spells⟩ => takes_pure ?_
    simpa [isEmpty, bare_singleton, kind] using .function (.inr kind) spells
  · rename_i kind
    refine (takes_lift _).bind fun _ rules ⟨isEmpty, descends⟩ => ?_
    obtain ⟨inner, rfl, derives⟩ := deeper _ _ _ descends
    refine (takes_parenthesized derives.statement _).mono ?_
    rintro _ node ⟨inside, closing, rfl, derived, closes⟩
    simpa [isEmpty, bare_singleton, kind] using .parenthesized kind derived closes
  · rename_i kind
    refine (takes_lift _).bind fun _ rules ⟨isEmpty, descends⟩ => ?_
    obtain ⟨inner, rfl, derives⟩ := deeper _ _ _ descends
    refine (takes_elements derives.expression .array _).bind
      fun _ nodes ⟨inside, closing, isTaken, derived, closes⟩ => takes_pure ?_
    simpa [isEmpty, isTaken, bare_singleton, kind] using .array kind derived closes
  · rename_i kind
    refine (takes_lift _).bind fun _ rules ⟨isEmpty, descends⟩ => ?_
    obtain ⟨inner, rfl, derives⟩ := deeper _ _ _ descends
    refine (takes_elements derives.expression .list _).bind
      fun _ nodes ⟨inside, closing, isTaken, derived, closes⟩ => takes_pure ?_
    simpa [isEmpty, isTaken, bare_singleton, kind] using .list kind derived closes
  · exact takes_throw _

theorem takes_modified (scope : Scope) : (modified descend scope).Takes (Modified levels) := by
  refine (takes_primary deeper scope).bind fun tokens operand primary => ?_
  refine (takes_many (takes_monadicModifier scope)).bind fun _ _ ⟨parts, isMarks, isItems, each⟩ => ?_
  subst isMarks isItems
  have wraps := wraps_of_marks operand each
  refine takes_peek ?_ fun token => ?_
  · exact takes_pure (by simpa using .wrapped primary wraps)
  · dsimp only
    split
    · rename_i kind
      refine (takesAt_advance token).bind fun _ _ isTaken => ?_
      subst isTaken
      refine (takes_lift (glyphModifier token)).bind fun _ modifier ⟨isEmpty, spells⟩ => ?_
      subst isEmpty
      refine takes_ifPeekIs (fun next _ => Takes.at ?_ next) (takes_throw _)
      refine (takes_lift _).bind fun _ rules ⟨isEmpty, descends⟩ => ?_
      subst isEmpty
      obtain ⟨inner, rfl, derives⟩ := deeper _ _ _ descends
      refine derives.primary.bind fun others right second => takes_pure ?_
      have combined := Modified.combined primary wraps kind spells second
      simpa [bare_singleton, kind] using combined
    · exact (takes_pure (by simpa using .wrapped primary wraps)).at token

theorem takes_strandElement (scope : Scope) (token : Token)
    (isMark : decide (token.kind = .ligature) = true) :
    TakesAt token (strandElement descend scope) (Joined levels) := by
  have kind : token.kind = .ligature := of_decide_eq_true isMark
  refine takesAt_peek (by simp [kind]) ?_
  refine (takesAt_advance token).bind fun _ _ isTaken => ?_
  rw [bare_singleton (by simp [kind])] at isTaken
  subst isTaken
  refine takes_peek (takes_throw _) fun next => ?_
  dsimp only
  split
  · exact ((takes_modified deeper scope).mono fun taken node element => .behind kind element).at next
  · exact (takes_throw _).at next

theorem takes_strand (scope : Scope) : (strand descend scope).Takes (Strand levels) := by
  refine takes_peek (takes_throw _) fun token => ?_
  dsimp only
  split
  · refine Takes.at ?_ token
    refine (takes_modified deeper scope).bind fun tokens first begins => ?_
    refine (takes_many (takes_strandElement deeper scope)).bind fun _ _ ⟨parts, isOthers, isNodes, each⟩ => ?_
    subst isOthers isNodes
    have derived := Strand.elements begins each
    cases parts <;> exact takes_pure (by simpa [grouped] using derived)
  · exact (takes_throw _).at token

theorem takes_expression (scope : Scope) : (expression descend scope).Takes (Expression levels) := by
  refine (takes_strand deeper scope).bind fun tokens first begins => ?_
  refine (takes_many fun token _ => (takes_strand deeper scope).at token).bind
    fun _ _ ⟨parts, isOthers, isNodes, each⟩ => ?_
  subst isOthers isNodes
  have derived := Expression.tines begins each
  cases parts <;> exact takes_pure (by simpa [grouped] using derived)

theorem takes_bindingValue (scope : Scope) (name : Token) (arity : Option Arity) :
    (bindingValue descend scope name arity).Takes fun taken node =>
      ∃ inner value, levels = inner + 1 ∧ Statement inner taken value ∧
        node = .binding name.image arity value name.line := by
  refine takes_peek ?_ fun token => Takes.at ?_ token
  · exact (takes_throw _).bind fun _ _ (impossible : False) => impossible.elim
  · refine (takes_lift _).bind fun _ rules ⟨isEmpty, descends⟩ => ?_
    subst isEmpty
    obtain ⟨inner, isLevels, derives⟩ := deeper _ _ _ descends
    refine derives.statement.bind fun taken value bound => takes_pure ?_
    exact ⟨inner, value, isLevels, by simpa using bound, rfl⟩

/-- A marker that stands behind a break is left for the value, which cannot begin with it. -/
theorem takes_statement (scope : Scope) : (statement descend scope).Takes (Statement levels) := by
  have plain := (takes_expression deeper scope).mono fun _ _ only => Statement.plain only
  refine takes_peek plain fun name => ?_
  dsimp only
  split
  · rename_i named
    intro later node rest ran
    change (afterName descend scope name (markerAfterName? scope later)).run (name :: later) =
      .ok (node, rest) at ran
    cases found : markerAfterName? scope later with
    | none =>
      rw [found] at ran
      exact plain (name :: later) node rest ran
    | some arity =>
      rw [found] at ran
      obtain ⟨breaks, split, isBare⟩ := exists_eq_append_visible scope later
      obtain ⟨marker, behind, shown, marked⟩ := markerAfterName?_eq_some.mp found
      change (bindingValue descend scope name arity).run later.tail = .ok (node, rest) at ran
      obtain ⟨taken, isTail, inner, value, rfl, bound, rfl⟩ :=
        takes_bindingValue deeper scope name arity _ _ _ ran
      rw [shown] at split
      cases breaks with
      | nil =>
        subst split
        refine ⟨name :: marker :: taken, by simp [← isTail], ?_⟩
        rw [bare_cons_of_ne (by simp [named]), bare_cons_of_ne (by simp [marked])]
        exact .binding named marked bound
      | cons _ breaks =>
        obtain ⟨first, others, isTaken, accepted⟩ := bound.starts
        have bareTail : bare later.tail = marker :: bare behind := by
          rw [← List.singleton_append, bare_append, List.append_eq_nil_iff] at isBare
          simp [split, isBare.2, bare_cons_of_ne, marked]
        rw [isTail, bare_append, isTaken] at bareTail
        have same : first = marker := by simpa using (List.cons.inj bareTail).1
        simp [same, marked, beginsPrimary] at accepted
  · exact plain.at name

/-! Every rule takes a token to read a node, and so do the items of repetitions. -/

theorem consumes_primary (scope : Scope) : (primary descend scope).Takes fun taken _ => taken ≠ [] :=
  (takes_primary deeper scope).mono fun _ _ derived => derived.starts.ne_nil

theorem consumes_modified (scope : Scope) : (modified descend scope).Takes fun taken _ => taken ≠ [] :=
  (takes_modified deeper scope).mono fun _ _ derived => derived.starts.ne_nil

theorem consumes_strand (scope : Scope) : (strand descend scope).Takes fun taken _ => taken ≠ [] :=
  (takes_strand deeper scope).mono fun _ _ derived => derived.starts.ne_nil

theorem consumes_expression (scope : Scope) : (expression descend scope).Takes fun taken _ => taken ≠ [] :=
  (takes_expression deeper scope).mono fun _ _ derived => derived.starts.ne_nil

theorem consumes_statement (scope : Scope) : (statement descend scope).Takes fun taken _ => taken ≠ [] :=
  (takes_statement deeper scope).mono fun _ _ derived => derived.starts.ne_nil

theorem consumes_strandElement (scope : Scope) (token : Token) (isMark : decide (token.kind = .ligature) = true) :
    TakesAt token (strandElement descend scope) fun taken _ => taken ≠ [] := by
  refine (takes_strandElement deeper scope token isMark).mono ?_
  rintro _ _ ⟨⟩
  simp

end Level

theorem consumes_monadicModifier (scope : Scope) (token : Token)
    (isMark : decide (token.kind = .monadicModifier) = true) :
    TakesAt token (monadicModifier scope) fun taken _ => taken ≠ [] := by
  refine (takes_monadicModifier scope token isMark).mono ?_
  rintro _ _ ⟨mark, rfl, -⟩
  simp

theorem consumes_separated (scope : Scope) {expression : Rule Node} {levels : Nat}
    (inner : expression.Takes (Expression levels)) (bracket : Bracket) (line : Nat) (token : Token)
    (isMark : decide (token.kind = .separator) = true) :
    TakesAt token (do
      advance
      nonempty scope bracket (fun token => ⟨.trailingSeparator, token.line⟩) line
      expression) fun taken _ => taken ≠ [] := by
  refine (takes_separated scope inner bracket line token isMark).mono ?_
  rintro _ _ ⟨⟩
  simp

end Rule

theorem Rules.derives_layer {descend : Descent} {levels : Nat}
    (deeper : ∀ scope line rules, descend scope line = .ok rules →
      ∃ inner, levels = inner + 1 ∧ rules.Derives inner) (scope : Scope) :
    (layer descend scope).Derives levels where
  primary := Rule.takes_primary deeper scope
  expression := Rule.takes_expression deeper scope
  statement := Rule.takes_statement deeper scope

/-- Whatever is read is derived, within the levels that the rules have. -/
theorem Rules.derives_withLevels (levels : Nat) (scope : Scope) :
    (withLevels levels scope).Derives levels := by
  induction levels generalizing scope with
  | zero =>
    apply derives_layer
    intro scope line rules refused
    cases refused
  | succ levels ih =>
    apply derives_layer
    intro scope line rules descends
    cases descends
    exact ⟨levels, rfl, ih scope⟩

theorem Rules.derives_below (levels : Nat) (scope : Scope) (line : Nat) (rules : Rules)
    (descends : below levels scope line = .ok rules) :
    ∃ inner, levels = inner + 1 ∧ rules.Derives inner := by
  cases levels with
  | zero => cases descends
  | succ levels =>
    cases descends
    exact ⟨levels, rfl, derives_withLevels levels scope⟩

end Tacit
