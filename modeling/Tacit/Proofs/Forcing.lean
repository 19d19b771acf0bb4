import Tacit.Proofs.Literals

/-! Tokens that leave the rules no choice. Whatever is derived begins with a primary, and goes on behind it
only with a token that can continue it. So if a primary can end in one place only, whatever follows, then
between brackets and separators nothing else can be read there, and nothing else as a program. -/
namespace Tacit

theorem Starts.mono {accept goesOn : TokenKind → Bool} {tokens : List Token} (starts : Starts accept tokens)
    (more : ∀ kind, accept kind = true → goesOn kind = true) : Starts goesOn tokens := by
  obtain ⟨token, later, rfl, accepted⟩ := starts
  exact ⟨token, later, rfl, more _ accepted⟩

theorem not_starts_of_ends {accept : TokenKind → Bool} {tokens : List Token} (ends : Rule.Ends accept tokens) :
    ¬ Starts accept tokens := by
  rintro ⟨token, later, rfl, accepted⟩
  simp [Rule.Ends, accepted] at ends

namespace Grammar

open Rule (beginsPrimary continuesModified continuesStrand continuesExpression continuesStatement)

variable {levels : Nat} {tokens : List Token} {node : Node}

/-- Tokens that begin with a primary: all of them are the primary, or one that continues it stands behind it. -/
def Leads (continues : TokenKind → Bool) (levels : Nat) (tokens : List Token) (node : Node) : Prop :=
  Primary levels tokens node ∨
    ∃ first rest inner, tokens = first ++ rest ∧ Primary levels first inner ∧ Starts continues rest

theorem Leads.mono {continues goesOn : TokenKind → Bool} (leads : Leads continues levels tokens node)
    (more : ∀ kind, continues kind = true → goesOn kind = true) : Leads goesOn levels tokens node := by
  rcases leads with primary | ⟨first, rest, inner, split, primary, starts⟩
  · exact .inl primary
  · exact .inr ⟨first, rest, inner, split, primary, starts.mono more⟩

theorem Leads.grouped {continues goesOn : TokenKind → Bool} {group : List Node → Nat → Node}
    {others : List (List Token × Node)} (leads : Leads continues levels tokens node)
    (each : ∀ part ∈ others, Starts goesOn part.1)
    (more : ∀ kind, continues kind = true → goesOn kind = true) :
    Leads goesOn levels (tokens ++ others.flatMap Prod.fst) (Grammar.grouped group node (others.map Prod.snd)) := by
  cases others with
  | nil => simpa [Grammar.grouped] using leads.mono more
  | cons part others =>
    have behind : Starts goesOn ((part :: others).flatMap Prod.fst) := (each part List.mem_cons_self).append _
    rcases leads with primary | ⟨first, rest, inner, rfl, primary, starts⟩
    · exact .inr ⟨tokens, _, node, rfl, primary, behind⟩
    · exact .inr ⟨first, _, inner, List.append_assoc .., primary, (starts.mono more).append _⟩

theorem Modified.leads (derived : Modified levels tokens node) : Leads continuesModified levels tokens node := by
  cases derived with
  | @wrapped _ tokens _ operand _ primary wraps =>
    cases wraps with
    | done => exact .inl (by simpa using primary)
    | @next _ _ wrap _ _ kind =>
      exact .inr ⟨tokens, _, operand, rfl, primary, wrap, _, rfl, by simp [continuesModified, kind]⟩
  | @combined _ tokens marks others operand _ _ mark _ primary wraps kind =>
    have behind : Starts continuesModified (marks ++ mark :: others) := by
      cases wraps with
      | done => exact ⟨mark, others, rfl, by simp [continuesModified, kind]⟩
      | @next _ _ wrap _ _ kind => exact ⟨wrap, _, rfl, by simp [continuesModified, kind]⟩
    exact .inr ⟨tokens, _, operand, List.append_assoc .., primary, behind⟩

theorem Strand.leads (derived : Strand levels tokens node) : Leads continuesStrand levels tokens node := by
  cases derived with
  | elements begins each =>
    apply begins.leads.grouped
    · rintro ⟨_, element⟩ member
      cases each _ member with
      | @behind _ mark _ _ kind => exact ⟨mark, _, rfl, by simp [continuesStrand, kind]⟩
    · intro kind continued
      simp [continuesStrand, continued]

theorem Expression.leads (derived : Expression levels tokens node) :
    Leads continuesExpression levels tokens node := by
  cases derived with
  | tines begins each =>
    apply begins.leads.grouped
    · intro part member
      exact (each part member).starts.mono fun kind begins => by simp [continuesExpression, begins]
    · intro kind continued
      simp [continuesExpression, continued]

theorem Statement.leads (derived : Statement levels tokens node) :
    Leads continuesStatement levels tokens node := by
  cases derived with
  | plain only => exact only.leads.mono fun kind continued => by cases kind <;> first | rfl | exact continued
  | @binding _ name marker _ _ _ named marked =>
    exact .inr ⟨[name], _, _, rfl, .reference named, marker, _, rfl, by simp [continuesStatement, marked]⟩

theorem Primary.unique {other : Node} (unbroken : Unbroken tokens) (first : Primary levels tokens node)
    (second : Primary levels tokens other) : node = other := by
  have complete := Rules.complete_withLevels levels (Scope.outermost levels 0)
  have alone : Unbroken (tokens ++ []) := by rwa [List.append_nil]
  have ran := complete.primary first [] alone (Rule.ends_never [])
  have ranToo := complete.primary second [] alone (Rule.ends_never [])
  cases ran.symm.trans ranToo
  rfl

/-- Elements are one expression, or an expression with a separator behind it and more elements. -/
theorem Elements.cases_cons {nodes : List Node} (derived : Elements levels tokens nodes) :
    (∃ node, nodes = [node] ∧ Expression levels tokens node) ∨
      ∃ first mark others node more, tokens = first ++ mark :: others ∧ nodes = node :: more ∧
        mark.kind = .separator ∧ Expression levels first node ∧ Elements levels others more := by
  cases derived with
  | @listed _ tokens node parts begins each =>
    cases parts with
    | nil => exact .inl ⟨node, rfl, by simpa using begins⟩
    | cons part parts =>
      obtain ⟨partTokens, next⟩ := part
      obtain ⟨separated, later⟩ := List.forall_mem_cons.mp each
      cases separated with
      | @behind _ mark others _ kind element =>
        exact .inr ⟨tokens, mark, _, node, _, rfl, rfl, kind, begins, .listed element later⟩

theorem Elements.starts {nodes : List Node} (derived : Elements levels tokens nodes) :
    Starts beginsPrimary tokens := by
  cases derived with
  | listed begins => exact begins.starts.append _

end Grammar

/-- Tokens that force a property on what is read from them: a primary that is derived from the front of them
takes them all, whatever stands behind them, and has the property. -/
structure Forces (own : List Token) (Q : Node → Prop) : Prop where
  starts : Starts Rule.beginsPrimary own
  unbroken : Unbroken own
  derived : ∀ {levels taken left tail node}, Grammar.Primary levels taken node → taken ++ left = own ++ tail →
    taken = own ∧ Q node

/-- The same of the elements of an array, which end at its closing bracket. -/
structure ForcesAll (own : List Token) (Q : List Node → Prop) : Prop where
  unbroken : Unbroken own
  derived : ∀ {levels taken left tail nodes closing mark}, Grammar.Elements levels taken nodes →
    closing.kind = .closeArray → mark.kind = .closeArray → taken ++ closing :: left = own ++ mark :: tail →
      taken = own ∧ Q nodes

section Forces

variable {levels : Nat} {own taken left tail : List Token} {node : Node} {Q : Node → Prop}

/-- Where nothing that follows continues it, the primary is all that is derived. -/
theorem Forces.of_leads (forces : Forces own Q) {continues : TokenKind → Bool}
    (leads : Grammar.Leads continues levels taken node) (split : taken ++ left = own ++ tail)
    (ends : Rule.Ends continues tail) : taken = own ∧ Q node := by
  rcases leads with primary | ⟨first, rest, inner, rfl, primary, starts⟩
  · exact forces.derived primary split
  · rw [List.append_assoc] at split
    obtain ⟨rfl, -⟩ := forces.derived primary split
    have behind := List.append_cancel_left split
    exact absurd (behind ▸ starts.append left) (not_starts_of_ends ends)

theorem forces_token {token : Token} (known : ∀ levels, Grammar.Primary levels [token] node) (holds : Q node) :
    Forces [token] Q := by
  obtain ⟨_, _, ⟨⟩, isPrimary⟩ := (known 0).starts
  have unbroken := (significant_of_beginsPrimary isPrimary).2
  refine ⟨(known 0).starts, unbroken, fun {levels taken left tail other} primary split => ?_⟩
  have closed : token.kind ≠ .openParen ∧ token.kind ≠ .openArray ∧ token.kind ≠ .openList := by
    cases known 0 with
    | number kind | string kind | character kind | reference kind => simp [kind]
    | function kind => rcases kind with kind | kind <;> simp [kind]
  have alone : taken = [token] := by
    cases primary with
    | number | string | character | reference | function => simpa using (List.cons.inj split).1
    | parenthesized opens | array opens | list opens =>
      obtain ⟨rfl, -⟩ := List.cons.inj split
      simp [opens] at closed
  subst alone
  cases primary.unique unbroken (known levels)
  exact ⟨rfl, holds⟩

/-- The first element ends where the tokens that force it end, at the closing bracket or at a separator. -/
theorem Forces.first_element (forces : Forces own Q) {nodes : List Node} {closing mark : Token}
    (elements : Grammar.Elements levels taken nodes) (split : taken ++ closing :: left = own ++ mark :: tail)
    (isMark : mark.kind = .separator ∨ mark.kind = .closeArray) :
    (∃ node, nodes = [node] ∧ Q node ∧ taken = own ∧ mark = closing) ∨
      ∃ others node more, nodes = node :: more ∧ Q node ∧ taken = own ++ mark :: others ∧
        mark.kind = .separator ∧ Grammar.Elements levels others more ∧ others ++ closing :: left = tail := by
  have ends : Rule.Ends Rule.continuesExpression (mark :: tail) := by
    rcases isMark with kind | kind <;> simp [Rule.Ends, kind, Rule.continuesExpression, Rule.continuesStrand,
      Rule.continuesModified, Rule.beginsPrimary]
  rcases elements.cases_cons with
    ⟨node, rfl, expression⟩ | ⟨first, _, others, node, more, rfl, rfl, kind, expression, rest⟩
  · obtain ⟨rfl, holds⟩ := forces.of_leads expression.leads split ends
    obtain ⟨rfl, -⟩ := List.cons.inj (List.append_cancel_left split)
    exact .inl ⟨node, rfl, holds, rfl, rfl⟩
  · rw [List.append_assoc, List.cons_append] at split
    obtain ⟨rfl, holds⟩ := forces.of_leads expression.leads split ends
    obtain ⟨rfl, behind⟩ := List.cons.inj (List.append_cancel_left split)
    exact .inr ⟨others, node, more, rfl, holds, rfl, kind, rest, behind⟩

theorem forcesAll_nil {R : List Node → Prop} : ForcesAll [] R := by
  refine ⟨by simp [Unbroken], fun {levels taken left tail nodes closing mark} elements closes marks split => ?_⟩
  obtain ⟨token, later, rfl, begins⟩ := elements.starts
  obtain ⟨rfl, -⟩ := List.cons.inj split
  simp [marks, Rule.beginsPrimary] at begins

theorem Forces.single {R : List Node → Prop} (forces : Forces own Q) (gives : ∀ node, Q node → R [node]) :
    ForcesAll own R := by
  refine ⟨forces.unbroken, fun {levels taken left tail nodes closing mark} elements closes marks split => ?_⟩
  rcases forces.first_element elements split (.inr marks) with
    ⟨node, rfl, holds, rfl, -⟩ | ⟨_, _, _, _, _, _, kind, _⟩
  · exact ⟨rfl, gives node holds⟩
  · simp [marks] at kind

theorem ForcesAll.cons {others : List Token} {mark : Token} {R S : List Node → Prop} (forces : Forces own Q)
    (isMark : mark.kind = .separator) (rest : ForcesAll others R)
    (gives : ∀ node nodes, Q node → R nodes → S (node :: nodes)) : ForcesAll (own ++ mark :: others) S := by
  refine ⟨?_, fun {levels taken left tail nodes closing closer} elements closes closers split => ?_⟩
  · apply forces.unbroken.append
    exact List.forall_mem_cons.mpr ⟨by simp [isMark], rest.unbroken⟩
  rw [List.append_assoc, List.cons_append] at split
  rcases forces.first_element elements split (.inl isMark) with
    ⟨_, _, _, _, rfl⟩ | ⟨_, node, more, rfl, holds, rfl, -, elements, split⟩
  · simp [isMark] at closes
  · obtain ⟨rfl, hold⟩ := rest.derived elements closes closers split
    exact ⟨rfl, gives node more holds hold⟩

theorem ForcesAll.bracketed {R : List Node → Prop} (inside : ForcesAll own R) {opening closing : Token}
    (opens : opening.kind = .openArray) (closes : closing.kind = .closeArray)
    (gives : ∀ nodes, R nodes → Q (.array nodes opening.line)) : Forces (opening :: own ++ [closing]) Q := by
  have starts : Starts Rule.beginsPrimary (opening :: own ++ [closing]) := by
    exact ⟨opening, own ++ [closing], rfl, by rw [opens]; rfl⟩
  refine ⟨starts, ?_, fun {levels taken left tail node} primary split => ?_⟩
  · have closed : Unbroken (own ++ [closing]) := inside.unbroken.append (by simp [Unbroken, closes])
    exact List.forall_mem_cons.mpr ⟨by simp [opens], closed⟩
  cases primary with
  | @array _ _ _ _ nodes _ elements isClosing =>
    simp only [List.cons_append, List.append_assoc, List.cons.injEq] at split
    obtain ⟨rfl, split⟩ := split
    obtain ⟨rfl, holds⟩ := inside.derived elements isClosing closes split
    obtain ⟨rfl, -⟩ := List.cons.inj (List.append_cancel_left split)
    exact ⟨rfl, gives nodes holds⟩
  | number kind | string kind | character kind | reference kind | function kind | parenthesized kind | list kind =>
    obtain ⟨rfl, -⟩ := List.cons.inj split
    simp [opens] at kind

end Forces

/-- A program that is read from tokens which force a property is a single node with the property. -/
theorem parse_of_forces {limit : Nat} {tokens : List Token} {program : List Node} {Q : Node → Prop}
    (forces : Forces (significant tokens) Q) (parsed : parse limit tokens = .ok program) :
    ∃ node, program = [node] ∧ Q node := by
  rw [parse_eq, map_eq_ok] at parsed
  obtain ⟨⟨nodes, rest⟩, ran, rfl⟩ := parsed
  generalize (tokens.getLast?.map Token.line).getD 1 = endLine at ran
  obtain ⟨begin, later, isTokens, begins⟩ := forces.starts
  rw [isTokens] at ran forces
  change (Rule.statements (Rules.below limit) (Scope.outermost limit endLine) (begin :: later)).run
    (begin :: later) = .ok (nodes, rest) at ran
  rw [Rule.run_statements_cons rfl, Rule.dropWhile_isBreak begins, List.head?_cons, Option.any_some,
    if_pos begins, bind_eq_ok] at ran
  obtain ⟨⟨node, left⟩, read, ran⟩ := ran
  obtain ⟨taken, split, derived⟩ := Rule.takes_statement (Rules.derives_below limit) _ _ _ _ read
  have unbroken : Unbroken taken := fun token member =>
    forces.unbroken token (split ▸ List.mem_append_left left member)
  rw [bare_of_unbroken unbroken] at derived
  obtain ⟨rfl, holds⟩ := forces.of_leads derived.leads (split.symm.trans (List.append_nil _).symm) rfl
  obtain rfl : left = [] := by simpa using split
  cases ran
  exact ⟨node, rfl, holds⟩

end Tacit
