import Mathlib.Algebra.BigOperators.Group.List.Basic
import Tacit.Proofs.Derivations

/-! Acceptance. What the grammar derives is read, so that the rules read exactly what is derived. Each
rule goes on as long as it can: derived tokens are read to their end only where the next token could
not continue them, and for every rule it is said which tokens could. -/
namespace Tacit

def Unbroken (tokens : List Token) : Prop := ∀ token ∈ tokens, token.kind ≠ .newline

theorem bare_of_unbroken {tokens : List Token} (unbroken : Unbroken tokens) : bare tokens = tokens := by
  simpa [bare, Unbroken] using unbroken

namespace Rule

variable {α β : Type}

theorem visible_of_unbroken (scope : Scope) {tokens : List Token} (unbroken : Unbroken tokens) :
    visible scope tokens = tokens := by
  unfold visible
  split
  · cases tokens with
    | nil => rfl
    | cons token later => simp [unbroken token List.mem_cons_self]
  · rfl

/-- The next token, if there is one, is of no accepted kind. -/
def Ends (accept : TokenKind → Bool) (rest : List Token) : Prop :=
  rest.head?.any (accept ·.kind) = false

theorem Ends.mono {continues goesOn : TokenKind → Bool} {rest : List Token}
    (ends : Ends goesOn rest) (fewer : ∀ kind, continues kind = true → goesOn kind = true) :
    Ends continues rest := by
  cases rest with
  | nil => rfl
  | cons token later =>
    simp only [Ends, List.head?_cons, Option.any_some] at ends ⊢
    by_contra accepted
    simp [fewer token.kind (by simpa using accepted)] at ends

/-- Nothing that may follow makes the rule go on. -/
def never : TokenKind → Bool := fun _ => false

theorem ends_never (rest : List Token) : Ends never rest := by
  cases rest <;> rfl

/-- A rule reads certain tokens to their end where none that could continue them follows. -/
def Reads (rule : Rule α) (continues : TokenKind → Bool) (taken : List Token) (a : α) : Prop :=
  ∀ rest, Unbroken (taken ++ rest) → Ends continues rest → rule.run (taken ++ rest) = .ok (a, rest)

section Reads

variable {continues goesOn : TokenKind → Bool} {taken later : List Token} {token : Token} {a : α} {b : β}

theorem reads_pure (a : α) : Reads (pure a) continues [] a :=
  fun _ _ _ => rfl

theorem Reads.bind {x : Rule α} {f : α → Rule β} (first : x.Reads continues taken a)
    (second : (f a).Reads goesOn later b)
    (apart : ∀ rest, Ends goesOn rest → Ends continues (later ++ rest)) :
    (x >>= f).Reads goesOn (taken ++ later) b := by
  intro rest unbroken ends
  rw [List.append_assoc] at unbroken ⊢
  have firstRan := first (later ++ rest) unbroken (apart rest ends)
  rw [run_bind_of_ok firstRan]
  exact second rest (fun token member => unbroken token (List.mem_append_right _ member)) ends

theorem Reads.anywhere {x : Rule α} (reads : x.Reads never taken a) : x.Reads continues taken a :=
  fun rest unbroken _ => reads rest unbroken (ends_never rest)

theorem Reads.map {x : Rule α} (reads : x.Reads continues taken a) (f : α → β) :
    (x >>= fun a => pure (f a)).Reads continues taken (f a) := by
  have whole : (x >>= fun a => pure (f a)).Reads continues (taken ++ []) (f a) :=
    reads.bind (reads_pure (f a)) fun rest ends => ends
  simpa using whole

theorem reads_lift {x : Except ParseError α} {f : α → Rule β} (gives : x = .ok a)
    (second : (f a).Reads continues taken b) : ((liftM x : Rule α) >>= f).Reads continues taken b := by
  subst gives
  exact second

theorem reads_advance {rule : Rule α} (second : rule.Reads continues taken a) :
    (advance >>= fun _ => rule).Reads continues (token :: taken) a :=
  fun rest unbroken => second rest fun other member => unbroken other (List.mem_cons_of_mem token member)

theorem reads_peek {scope : Scope} {f : Option Token → Rule α}
    (next : (f (some token)).Reads continues (token :: taken) a) :
    (peek scope >>= f).Reads continues (token :: taken) a := by
  intro rest unbroken ends
  rw [StateT.run_bind, run_peek, visible_of_unbroken scope unbroken]
  exact next rest unbroken ends

/-- Looking at what follows takes nothing of it. -/
theorem reads_peek_past {scope : Scope} {f : Option Token → Rule α}
    (nothing : (f none).Reads continues [] a)
    (past : ∀ token, continues token.kind = false → (f (some token)).Reads continues [] a) :
    (peek scope >>= f).Reads continues [] a := by
  intro rest unbroken ends
  rw [StateT.run_bind, run_peek, visible_of_unbroken scope unbroken]
  cases rest with
  | nil => exact nothing [] unbroken ends
  | cons token later => exact past token ends (token :: later) unbroken ends

theorem reads_ifPeekIs {scope : Scope} {accept : TokenKind → Bool} {yes no : Rule α}
    (accepted : accept token.kind = true) (follows : yes.Reads continues (token :: taken) a) :
    Reads (do if ← peekIs scope accept then yes else no) continues (token :: taken) a := by
  intro rest unbroken ends
  have ran : (peekIs scope accept).run (token :: taken ++ rest) = .ok (true, token :: taken ++ rest) := by
    rw [run_peekIs, visible_of_unbroken scope unbroken]
    simp [accepted]
  rw [run_bind_of_ok ran]
  exact follows rest unbroken ends

theorem reads_close {scope : Scope} {bracket : Bracket} {expected : Expectation} {line : Nat}
    (closes : token.kind = bracket.closingKind) :
    (close scope bracket expected line).Reads continues [token] () := by
  refine reads_peek ?_
  dsimp only
  rw [if_pos closes]
  exact fun _ _ _ => rfl

theorem reads_nonempty {scope : Scope} {bracket : Bracket} {empty : Token → ParseError} {line : Nat}
    {rule : Rule α} (starts : Starts beginsPrimary taken) (second : rule.Reads continues taken a) :
    (nonempty scope bracket empty line >>= fun _ => rule).Reads continues taken a := by
  obtain ⟨token, later, rfl, accepted⟩ := starts
  have notClosing : token.kind ≠ bracket.closingKind := by
    intro closes
    cases bracket <;> simp [closes, Bracket.closingKind, beginsPrimary] at accepted
  intro rest unbroken ends
  have ran : (nonempty scope bracket empty line).run (token :: later ++ rest) =
      .ok ((), token :: later ++ rest) := by
    have shown := run_peek scope (token :: later ++ rest)
    rw [visible_of_unbroken scope unbroken] at shown
    rw [nonempty, run_bind_of_ok shown]
    simp [notClosing]
  rw [run_bind_of_ok ran]
  exact second rest unbroken ends

/-- Where no part begins with what goes on, a sequence of parts does not go on. -/
theorem ends_flatMap {accept : TokenKind → Bool} {parts : List (List Token × α)} {rest : List Token}
    (each : ∀ part ∈ parts, Starts accept part.1)
    (apart : ∀ kind, accept kind = true → continues kind = false) (ends : Ends continues rest) :
    Ends continues (parts.flatMap Prod.fst ++ rest) := by
  cases parts with
  | nil => exact ends
  | cons part parts =>
    obtain ⟨token, others, isPart, accepted⟩ := each part List.mem_cons_self
    simp [Ends, isPart, apart _ accepted]

/-- A repetition reads its parts up to a token that no further part begins with. -/
theorem reads_many (scope : Scope) {accept : TokenKind → Bool} {item : Rule α}
    {parts : List (List Token × α)}
    (each : ∀ part ∈ parts, item.Reads continues part.1 part.2 ∧ Starts accept part.1)
    (apart : ∀ kind, accept kind = true → continues kind = false) :
    (many (peekIs scope accept) item).Reads (fun kind => accept kind || continues kind)
      (parts.flatMap Prod.fst) (parts.map Prod.snd) := by
  intro rest unbroken ends
  have stops : Ends accept rest := ends.mono fun kind accepted => by simp [accepted]
  have parted : Ends continues rest := ends.mono fun kind continued => by simp [continued]
  have loop (budget : List Token) (enough : parts.length ≤ budget.length) :
      (repeatWhile (peekIs scope accept) item budget).run (parts.flatMap Prod.fst ++ rest) =
        .ok (parts.map Prod.snd, rest) := by
    induction parts generalizing budget with
    | nil =>
      rw [List.flatMap_nil, List.nil_append] at unbroken ⊢
      have stop : (peekIs scope accept).run rest = .ok (false, rest) := by
        rw [run_peekIs, visible_of_unbroken scope unbroken, stops]
      cases budget with
      | nil => rfl
      | cons _ budget =>
        simp only [repeatWhile]
        rw [run_bind_of_ok stop]
        rfl
    | cons part parts ih =>
      obtain ⟨⟨reads, token, others, isPart, accepted⟩, each⟩ := List.forall_mem_cons.mp each
      rw [List.flatMap_cons, List.append_assoc] at unbroken ⊢
      have go : (peekIs scope accept).run (part.1 ++ (parts.flatMap Prod.fst ++ rest)) =
          .ok (true, part.1 ++ (parts.flatMap Prod.fst ++ rest)) := by
        rw [run_peekIs, visible_of_unbroken scope unbroken, isPart]
        simp [accepted]
      have first := reads _ unbroken (ends_flatMap (fun part member => (each part member).2) apart parted)
      cases budget with
      | nil => simp at enough
      | cons _ budget =>
        have later := ih each (fun token member => unbroken token (List.mem_append_right _ member))
          budget (by simpa using enough)
        simp only [repeatWhile]
        rw [run_bind_of_ok go, if_pos rfl, run_bind_of_ok first, run_bind_of_ok later]
        rfl
  -- Every part holds a token, so there are no more parts than tokens.
  have enough : parts.length ≤ (parts.flatMap Prod.fst).length := by
    rw [List.length_flatMap, ← List.length_map (·.1.length)]
    apply List.length_le_sum_of_one_le
    rintro _ counted
    obtain ⟨part, member, rfl⟩ := List.mem_map.mp counted
    obtain ⟨-, token, others, isPart, -⟩ := each part member
    simp [isPart]
  exact loop (parts.flatMap Prod.fst ++ rest) (by rw [List.length_append]; omega)

/-- A first part, further parts behind it, and what the rule does with all of them. -/
theorem reads_sequence {scope : Scope} {accept : TokenKind → Bool} {x item : Rule α}
    {f : α → List α → Rule β} {parts : List (List Token × α)} (first : x.Reads continues taken a)
    (each : ∀ part ∈ parts, item.Reads continues part.1 part.2 ∧ Starts accept part.1)
    (apart : ∀ kind, accept kind = true → continues kind = false)
    (final : (f a (parts.map Prod.snd)).Reads goesOn later b)
    (ends : ∀ rest, Ends goesOn rest → Ends (fun kind => accept kind || continues kind) (later ++ rest)) :
    (x >>= fun a => many (peekIs scope accept) item >>= f a).Reads goesOn
      (taken ++ (parts.flatMap Prod.fst ++ later)) b := by
  refine first.bind ((reads_many scope each apart).bind final ends) fun rest ended => ?_
  rw [List.append_assoc]
  apply ends_flatMap (fun part member => (each part member).2) apart
  exact (ends rest ended).mono fun kind continued => by simp [continued]

end Reads

def continuesModified (kind : TokenKind) : Bool :=
  decide (kind = .monadicModifier) || decide (kind = .dyadicModifier)

def continuesStrand (kind : TokenKind) : Bool := decide (kind = .ligature) || continuesModified kind

def continuesExpression (kind : TokenKind) : Bool := beginsPrimary kind || continuesStrand kind

/-- A marker turns the name before it into the beginning of a binding. -/
def continuesStatement : TokenKind → Bool
  | .binding _ => true
  | kind => continuesExpression kind

end Rule

/-- Every rule of a level reads all that the grammar derives within a number of levels. -/
structure Rules.Complete (levels : Nat) (rules : Rules) : Prop where
  primary : ∀ {tokens node}, Grammar.Primary levels tokens node →
    rules.primary.Reads Rule.never tokens node
  expression : ∀ {tokens node}, Grammar.Expression levels tokens node →
    rules.expression.Reads Rule.continuesExpression tokens node
  statement : ∀ {tokens node}, Grammar.Statement levels tokens node →
    rules.statement.Reads Rule.continuesStatement tokens node

namespace Rule

open Grammar

theorem reads_parenthesized {scope : Scope} {statement : Rule Node} {levels line : Nat}
    {inside : List Token} {closing : Token} {node : Node}
    (inner : statement.Reads continuesStatement inside node) (derived : Statement levels inside node)
    (closes : closing.kind = .closeParen) :
    (parenthesized scope statement line).Reads never (inside ++ [closing]) node := by
  refine reads_nonempty (derived.starts.append _) ?_
  refine inner.bind ((reads_close closes).map fun _ => node) fun rest _ => ?_
  simp [Ends, closes, continuesStatement, continuesExpression, continuesStrand, continuesModified,
    beginsPrimary]

theorem reads_elements (scope : Scope) (bracket : Bracket) (line : Nat) {expression : Rule Node}
    {levels : Nat} {inside : List Token} {closing : Token} {nodes : List Node}
    (inner : ∀ {tokens node}, Expression levels tokens node →
      expression.Reads continuesExpression tokens node)
    (derived : Elements levels inside nodes) (closes : closing.kind = bracket.closingKind) :
    (elements scope expression bracket line).Reads never (inside ++ [closing]) nodes := by
  cases derived with
  | @listed _ tokens first others begins each =>
    have separated : ∀ part ∈ others, Reads (do
        advance
        nonempty scope bracket (fun token => ⟨.trailingSeparator, token.line⟩) line
        expression) continuesExpression part.1 part.2 ∧ Starts (· = .separator) part.1 := by
      rintro ⟨tokens, node⟩ member
      cases each _ member with
      | behind isMark element =>
        exact ⟨reads_advance (reads_nonempty element.starts (inner element)), _, _, rfl, by simp [isMark]⟩
    have apart (kind : TokenKind) (isMark : decide (kind = .separator) = true) :
        continuesExpression kind = false := by
      rw [of_decide_eq_true isMark]
      rfl
    have closed (rest : List Token) : Ends (fun kind => decide (kind = .separator) || continuesExpression kind)
        ([closing] ++ rest) := by
      cases bracket <;> simp [Ends, closes, Bracket.closingKind, continuesExpression, continuesStrand,
        continuesModified, beginsPrimary]
    rw [List.append_assoc]
    refine reads_nonempty (begins.starts.append _) ?_
    exact reads_sequence (inner begins) separated apart
      ((reads_close closes).map fun _ => first :: others.map Prod.snd) fun rest _ => closed rest

/-- The modifiers that wrap an operand are parts of one token each. -/
theorem marks_of_wraps {operand node : Node} {marks : List Token} (wraps : Wraps operand marks node) :
    ∃ parts : List (List Token × (Modifier × Nat)), marks = parts.flatMap Prod.fst ∧
      node = (parts.map Prod.snd).foldl (fun node (modifier, line) => .modified modifier node line) operand ∧
      ∀ part ∈ parts, Marks part.1 part.2 := by
  induction wraps with
  | done => exact ⟨[], rfl, rfl, by simp⟩
  | @next _ _ mark modifier _ kind spells _ ih =>
    obtain ⟨parts, rfl, rfl, each⟩ := ih
    refine ⟨([mark], (modifier, mark.line)) :: parts, rfl, rfl, ?_⟩
    exact List.forall_mem_cons.mpr ⟨⟨mark, rfl, kind, spells, rfl⟩, each⟩

theorem reads_marks (scope : Scope) {parts : List (List Token × (Modifier × Nat))}
    (each : ∀ part ∈ parts, Marks part.1 part.2) :
    (many (peekIs scope (· = .monadicModifier)) (monadicModifier scope)).Reads
      (fun kind => decide (kind = .monadicModifier) || never kind)
      (parts.flatMap Prod.fst) (parts.map Prod.snd) := by
  refine reads_many scope ?_ fun _ _ => rfl
  rintro ⟨_, modifier, line⟩ member
  obtain ⟨mark, rfl, kind, spells, rfl⟩ := each _ member
  exact ⟨reads_peek (reads_advance (reads_lift spells (reads_pure _))), mark, [], rfl, by simp [kind]⟩

section Level

variable {descend : Descent} {levels : Nat}
  (deeper : ∀ scope line inner, levels = inner + 1 →
    ∃ rules, descend scope line = .ok rules ∧ rules.Complete inner)

include deeper

theorem reads_primary (scope : Scope) {tokens : List Token} {node : Node}
    (derived : Primary levels tokens node) : (primary descend scope).Reads never tokens node := by
  cases derived with
  | number kind spells =>
    refine reads_peek (reads_advance ?_)
    simp only [kind]
    exact reads_lift spells (reads_pure _)
  | string kind =>
    refine reads_peek (reads_advance ?_)
    simp only [kind]
    exact reads_pure _
  | character kind spells =>
    refine reads_peek (reads_advance ?_)
    simp only [kind]
    exact reads_lift spells (reads_pure _)
  | reference kind =>
    refine reads_peek (reads_advance ?_)
    simp only [kind]
    exact reads_pure _
  | function kind spells =>
    refine reads_peek (reads_advance ?_)
    rcases kind with kind | kind <;>
      · simp only [kind]
        exact reads_lift spells (reads_pure _)
  | @parenthesized levels opening _ _ _ opens inner closes =>
    obtain ⟨rules, descends, complete⟩ := deeper scope.insideBrackets opening.line levels rfl
    refine reads_peek (reads_advance ?_)
    simp only [opens]
    exact reads_lift descends (reads_parenthesized (complete.statement inner) inner closes)
  | @array levels opening closing _ nodes opens inner closes =>
    obtain ⟨rules, descends, complete⟩ := deeper scope.insideBrackets opening.line levels rfl
    refine reads_peek (reads_advance ?_)
    simp only [opens]
    have read := reads_elements scope.insideBrackets .array opening.line complete.expression inner closes
    exact reads_lift descends (read.map (Node.array · opening.line))
  | @list levels opening _ _ _ opens inner closes =>
    obtain ⟨rules, descends, complete⟩ := deeper scope.insideBrackets opening.line levels rfl
    refine reads_peek (reads_advance ?_)
    simp only [opens]
    have read := reads_elements scope.insideBrackets .list opening.line complete.expression inner closes
    exact reads_lift descends (read.map (Node.list · opening.line))

theorem reads_modified (scope : Scope) {tokens : List Token} {node : Node}
    (derived : Modified levels tokens node) :
    (modified descend scope).Reads continuesModified tokens node := by
  cases derived with
  | wrapped primary wraps =>
    obtain ⟨parts, rfl, rfl, each⟩ := marks_of_wraps wraps
    refine (reads_primary deeper scope primary).bind ?_ fun rest _ => ends_never _
    rw [← List.append_nil (parts.flatMap Prod.fst)]
    refine (reads_marks scope each).bind (reads_peek_past (reads_pure _) fun token other => ?_) fun rest ends => ?_
    · have other : token.kind ≠ .dyadicModifier := by
        intro kind
        simp [kind, continuesModified] at other
      dsimp only
      rw [if_neg other]
      exact reads_pure _
    · exact ends.mono fun kind continued => by simp_all [continuesModified, never]
  | @combined inner _ _ others operand left right mark modifier primary wraps kind spells second =>
    obtain ⟨parts, rfl, rfl, each⟩ := marks_of_wraps wraps
    obtain ⟨rules, descends, complete⟩ := deeper scope mark.line inner rfl
    rw [List.append_assoc]
    refine (reads_primary deeper scope primary).bind ?_ fun rest _ => ends_never _
    refine (reads_marks scope each).bind (reads_peek ?_) fun rest _ => by simp [Ends, kind, never]
    dsimp only
    rw [if_pos kind]
    refine reads_advance (reads_lift spells ?_)
    obtain ⟨token, later, rfl, accepted⟩ := second.starts
    refine reads_ifPeekIs accepted (reads_lift descends ?_)
    exact (complete.primary second).anywhere.map _

theorem reads_strand (scope : Scope) {tokens : List Token} {node : Node}
    (derived : Strand levels tokens node) : (strand descend scope).Reads continuesStrand tokens node := by
  cases derived with
  | @elements _ taken first others begins each =>
    have joined : ∀ part ∈ others,
        (strandElement descend scope).Reads continuesModified part.1 part.2 ∧
          Starts (· = .ligature) part.1 := by
      rintro ⟨_, node⟩ member
      cases each _ member with
      | behind kind element =>
        refine ⟨reads_peek (reads_advance ?_), _, _, rfl, by simp [kind]⟩
        obtain ⟨token, later, rfl, accepted⟩ := element.starts
        refine reads_peek ?_
        dsimp only
        rw [if_pos accepted]
        exact reads_modified deeper scope element
    have apart (kind : TokenKind) (isMark : decide (kind = .ligature) = true) :
        continuesModified kind = false := by
      rw [of_decide_eq_true isMark]
      rfl
    have first := reads_modified deeper scope begins
    obtain ⟨token, later, rfl, accepted⟩ := begins.starts
    refine reads_peek ?_
    dsimp only
    rw [if_pos accepted]
    rw [← List.append_nil (others.flatMap Prod.fst)]
    refine reads_sequence first joined apart ?_ fun rest ends => ends
    cases others <;> exact reads_pure _

theorem reads_expression (scope : Scope) {tokens : List Token} {node : Node}
    (derived : Expression levels tokens node) :
    (expression descend scope).Reads continuesExpression tokens node := by
  cases derived with
  | @tines _ taken first others begins each =>
    have tines : ∀ part ∈ others, (strand descend scope).Reads continuesStrand part.1 part.2 ∧
        Starts beginsPrimary part.1 :=
      fun part member => ⟨reads_strand deeper scope (each part member), (each part member).starts⟩
    have apart (kind : TokenKind) (isBegin : beginsPrimary kind = true) : continuesStrand kind = false := by
      cases kind <;> first | rfl | cases isBegin
    rw [← List.append_nil (others.flatMap Prod.fst)]
    refine reads_sequence (reads_strand deeper scope begins) tines apart ?_ fun rest ends => ends
    cases others <;> exact reads_pure _

theorem reads_bindingValue (scope : Scope) (name : Token) (arity : Option Arity) {inner : Nat}
    {tokens : List Token} {value : Node} (isLevels : levels = inner + 1)
    (bound : Statement inner tokens value) :
    (bindingValue descend scope name arity).Reads continuesStatement tokens
      (.binding name.image arity value name.line) := by
  obtain ⟨rules, descends, complete⟩ := deeper scope name.line inner isLevels
  have read := complete.statement bound
  obtain ⟨token, later, rfl, accepted⟩ := bound.starts
  exact reads_peek (reads_lift descends (read.map (Node.binding name.image arity · name.line)))

theorem reads_statement (scope : Scope) {tokens : List Token} {node : Node}
    (derived : Statement levels tokens node) :
    (statement descend scope).Reads continuesStatement tokens node := by
  cases derived with
  | plain only =>
    obtain ⟨token, later, rfl, accepted⟩ := only.starts
    refine reads_peek fun rest unbroken ends => ?_
    have reads := reads_expression deeper scope only rest unbroken
      (ends.mono fun kind continued => by cases kind <;> first | rfl | exact continued)
    by_cases named : token.kind = .identifier
    · -- The name alone is an expression too, so reading would have stopped at a marker behind it.
      have unmarked : markerAfterName? scope (later ++ rest) = none := by
        by_contra found
        obtain ⟨arity, found⟩ := Option.ne_none_iff_exists'.mp found
        obtain ⟨marker, behind, shown, marked⟩ := markerAfterName?_eq_some.mp found
        have behindName : Unbroken (later ++ rest) :=
          fun other member => unbroken other (List.mem_cons_of_mem token member)
        rw [visible_of_unbroken scope behindName] at shown
        have alone : Expression levels [token] (.reference token.image token.line) :=
          @Expression.tines levels [token] _ [] (@Strand.elements levels [token] _ []
            (@Modified.wrapped levels [token] [] _ _ (.reference named) (.done _)) nofun) nofun
        have stops := reads_expression deeper scope alone (marker :: behind) (by rwa [← shown])
          (by simp [Ends, marked, continuesExpression, continuesStrand, continuesModified, beginsPrimary])
        rw [← shown] at stops
        have same := (Prod.mk.inj (Except.ok.inj (reads.symm.trans stops))).2
        rw [same, shown] at ends
        simp [Ends, marked, continuesStatement] at ends
      dsimp only
      rw [if_pos named]
      change (afterName descend scope token (markerAfterName? scope (later ++ rest))).run
        (token :: later ++ rest) = .ok (node, rest)
      rw [unmarked]
      exact reads
    · dsimp only
      rw [if_neg named]
      exact reads
  | @binding inner name marker arity tokens value named marked bound =>
    have read := reads_bindingValue deeper scope name arity rfl bound
    refine reads_peek fun rest unbroken ends => ?_
    have behindName : Unbroken (marker :: tokens ++ rest) :=
      fun other member => unbroken other (List.mem_cons_of_mem name member)
    have found : markerAfterName? scope (marker :: tokens ++ rest) = some arity := by
      rw [markerAfterName?_eq_some, visible_of_unbroken scope behindName]
      exact ⟨marker, tokens ++ rest, rfl, marked⟩
    dsimp only
    rw [if_pos named]
    change (afterName descend scope name (markerAfterName? scope (marker :: tokens ++ rest))).run
      (name :: marker :: tokens ++ rest) = .ok (_, rest)
    rw [found]
    exact read rest (fun other member => behindName other (List.mem_cons_of_mem marker member)) ends

end Level

end Rule

theorem Rules.complete_layer {descend : Descent} {levels : Nat}
    (deeper : ∀ scope line inner, levels = inner + 1 →
      ∃ rules, descend scope line = .ok rules ∧ rules.Complete inner) (scope : Scope) :
    (layer descend scope).Complete levels where
  primary := Rule.reads_primary deeper scope
  expression := Rule.reads_expression deeper scope
  statement := Rule.reads_statement deeper scope

theorem Rules.complete_withLevels (levels : Nat) (scope : Scope) :
    (withLevels levels scope).Complete levels := by
  induction levels generalizing scope with
  | zero =>
    apply complete_layer
    intro scope line inner impossible
    cases impossible
  | succ levels ih =>
    apply complete_layer
    intro scope line inner isLevels
    cases isLevels
    exact ⟨_, rfl, ih scope⟩

/-- A statement is read to its end exactly where the grammar derives it within the levels allowed. -/
theorem run_statement_iff_derived (limit endLine : Nat) {tokens : List Token}
    (unbroken : ∀ token ∈ tokens, token.kind ≠ .newline) (node : Node) :
    (Rules.withLevels limit (Scope.outermost limit endLine)).statement.run tokens = .ok (node, []) ↔
      Grammar.Statement limit tokens node := by
  constructor
  · intro ran
    obtain ⟨taken, split, derived⟩ := (Rules.derives_withLevels limit _).statement tokens node [] ran
    rw [List.append_nil] at split
    subst split
    rwa [bare_of_unbroken unbroken] at derived
  · intro derived
    have read := (Rules.complete_withLevels limit (Scope.outermost limit endLine)).statement derived []
    rw [List.append_nil] at read
    exact read unbroken rfl

theorem derived_of_bound_train :
    let tokens : List Token := [⟨.identifier, "A", 1⟩, ⟨.binding none, "←", 1⟩, ⟨.openParen, "(", 1⟩,
      ⟨.identifier, "B", 1⟩, ⟨.ligature, "‿", 1⟩, ⟨.identifier, "C", 1⟩, ⟨.identifier, "D", 2⟩,
      ⟨.closeParen, ")", 2⟩]
    (∀ token ∈ tokens, token.kind ≠ .newline) ∧
      Grammar.Statement 2 tokens (.binding "A" none
        (.train [.strand [.reference "B" 1, .reference "C" 1] 1, .reference "D" 2] 1) 1) := by
  dsimp only
  refine ⟨by decide, (run_statement_iff_derived 2 2 (by decide) _).mp ?_⟩
  rfl

end Tacit
