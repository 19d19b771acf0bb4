import Tacit.Proofs.Acceptance
import Tacit.Proofs.LineBreaks

/-! Programs as statements one after the other. Every node of a program is a statement that the grammar
derives, and a statement that stands alone is read as a program of one node. -/
namespace Tacit

namespace Rule

section Statements

variable {descend : Descent} {scope : Scope} (unbracketed : scope.bracketed = false)

include unbracketed

theorem run_statements_cons (token : Token) (budget tokens : List Token) :
    (statements descend scope (token :: budget)).run tokens =
      if (tokens.dropWhile (isBreak ·.kind)).head?.any (beginsPrimary ·.kind) then do
        let (first, rest) ← (statement descend scope).run (tokens.dropWhile (isBreak ·.kind))
        if rest.head?.any (isBreak ·.kind) then
          let (others, left) ← (statements descend scope budget).run rest
          return (first :: others, left)
        else return ([first], rest)
      else .ok ([], tokens.dropWhile (isBreak ·.kind)) := by
  have skip : (modify (List.dropWhile (isBreak ·.kind)) : Rule Unit).run tokens =
    .ok ((), tokens.dropWhile (isBreak ·.kind)) := rfl
  have plain (tokens : List Token) : visible scope tokens = tokens := by simp [visible, unbracketed]
  rw [statements, run_bind_of_ok skip, run_bind_of_ok (run_peekIs scope beginsPrimary _), plain]
  split
  · rw [StateT.run_bind]
    cases (statement descend scope).run (tokens.dropWhile (isBreak ·.kind)) with
    | error e => rfl
    | ok result =>
      change (do if ← peekIs scope isBreak then _ else _ : Rule (List Node)).run result.2 = _
      rw [run_bind_of_ok (run_peekIs scope isBreak result.2), plain]
      change _ = if _ then _ else _
      split <;> rfl
  · rfl

/-- Statements that are read to the end: there are none, or the first one is and a break or nothing
stands between it and the others. -/
theorem cases_of_run_statements {token : Token} {budget tokens : List Token} {nodes : List Node}
    (ran : (statements descend scope (token :: budget)).run tokens = .ok (nodes, [])) :
    tokens.dropWhile (isBreak ·.kind) = [] ∧ nodes = [] ∨
      ∃ begin later first rest others, tokens.dropWhile (isBreak ·.kind) = begin :: later ∧
        beginsPrimary begin.kind = true ∧ (statement descend scope).run (begin :: later) = .ok (first, rest) ∧
        (∀ token ∈ rest.head?, isBreak token.kind = true) ∧
        (statements descend scope budget).run rest = .ok (others, []) ∧ nodes = first :: others := by
  rw [run_statements_cons unbracketed] at ran
  cases shown : tokens.dropWhile (isBreak ·.kind) with
  | nil =>
    rw [shown] at ran
    cases ran
    exact .inl ⟨rfl, rfl⟩
  | cons begin later =>
    right
    rw [shown] at ran
    by_cases begins : beginsPrimary begin.kind = true
    · simp only [List.head?_cons, Option.any_some, begins, if_true, bind_eq_ok] at ran
      obtain ⟨⟨first, rest⟩, read, ran⟩ := ran
      refine ⟨begin, later, first, rest, ?_⟩
      cases rest with
      | nil =>
        cases ran
        exact ⟨[], rfl, begins, read, by simp, run_statements_nil descend scope budget, rfl⟩
      | cons next rest =>
        by_cases isNext : isBreak next.kind = true
        · simp only [List.head?_cons, Option.any_some, isNext, if_true, bind_eq_ok] at ran
          obtain ⟨⟨others, left⟩, ran, same⟩ := ran
          cases same
          exact ⟨others, rfl, begins, read, by simpa using isNext, ran, rfl⟩
        · simp [isNext] at ran
    · simp [begins] at ran

/-- A statement with a break behind it, and the statements behind the break. -/
theorem run_statements_of_read {token begin : Token} {budget tokens later rest : List Token} {first : Node}
    (shown : tokens.dropWhile (isBreak ·.kind) = begin :: later) (begins : beginsPrimary begin.kind = true)
    (read : (statement descend scope).run (begin :: later) = .ok (first, rest))
    (isNext : rest.head?.any (isBreak ·.kind) = true) :
    (statements descend scope (token :: budget)).run tokens =
      Prod.map (first :: ·) id <$> (statements descend scope budget).run rest := by
  rw [run_statements_cons unbracketed, shown, List.head?_cons, Option.any_some, if_pos begins, read]
  change (if _ then _ else _ : Except ParseError (List Node × List Token)) = _
  rw [if_pos isNext]
  cases (statements descend scope budget).run rest <;> rfl

end Statements

theorem dropWhile_isBreak {begin : Token} (begins : beginsPrimary begin.kind = true) (later : List Token) :
    (begin :: later).dropWhile (isBreak ·.kind) = begin :: later := by
  cases kind : begin.kind <;> simp_all [beginsPrimary, isBreak]

theorem run_statements_congr (descend : Descent) (scope : Scope) (token : Token) (budget : List Token)
    {tokens others : List Token}
    (same : tokens.dropWhile (isBreak ·.kind) = others.dropWhile (isBreak ·.kind)) :
    (statements descend scope (token :: budget)).run tokens =
      (statements descend scope (token :: budget)).run others := by
  have skip (tokens : List Token) : (modify (List.dropWhile (isBreak ·.kind)) : Rule Unit).run tokens =
    .ok ((), tokens.dropWhile (isBreak ·.kind)) := rfl
  rw [statements, run_bind_of_ok (skip tokens), run_bind_of_ok (skip others), same]

section Level

variable {descend : Descent} {levels : Nat}
  (derives : ∀ scope line rules, descend scope line = .ok rules →
    ∃ inner, levels = inner + 1 ∧ rules.Derives inner)

include derives

/-- Each statement that is read is derived from some of the tokens taken, whatever stands around them. -/
theorem takes_statements (scope : Scope) (budget : List Token) :
    (statements descend scope budget).Takes fun taken nodes =>
      ∀ node ∈ nodes, ∃ own, own ⊆ taken ∧ Grammar.Statement levels own node := by
  induction budget with
  | nil => exact takes_pure (by simp)
  | cons _ budget ih =>
    have skip : (modify (List.dropWhile (isBreak ·.kind)) : Rule Unit).Takes fun _ _ => True := by
      intro tokens _ rest ran
      cases ran
      exact ⟨_, List.takeWhile_append_dropWhile.symm, trivial⟩
    refine skip.bind fun skipped _ _ => takes_ifPeekIs (fun token _ => Takes.at ?_ token) (takes_pure (by simp))
    refine (takes_statement derives scope).bind fun taken first derived => ?_
    have begins (later : List Token) :
        ∃ own, own ⊆ skipped ++ (taken ++ later) ∧ Grammar.Statement levels own first :=
      ⟨taken, by simp, derived⟩
    refine takes_ifPeekIs (fun token _ => Takes.at ?_ token) (takes_pure (by simpa using begins []))
    refine ih.bind fun later others derivedOthers => takes_pure ?_
    rw [List.append_nil]
    refine List.forall_mem_cons.mpr ⟨begins later, fun node member => ?_⟩
    obtain ⟨own, among, derivedOther⟩ := derivedOthers node member
    have behind : later ⊆ skipped ++ (taken ++ later) := by simp
    exact ⟨own, List.Subset.trans among behind, derivedOther⟩

end Level

end Rule

theorem Grammar.Modified.expression {levels : Nat} {tokens : List Token} {node : Node}
    (derived : Modified levels tokens node) : Expression levels tokens node := by
  have strand := @Strand.elements levels tokens node [] derived (by simp)
  have tines := @Expression.tines levels _ _ [] strand (by simp)
  simpa [grouped] using tines

theorem derived_among_of_parse {limit : Nat} {tokens : List Token} {program : List Node}
    (parsed : parse limit tokens = .ok program) :
    ∀ node ∈ program, ∃ taken, taken ⊆ tokens ∧ Grammar.Statement limit taken node := by
  rw [parse_eq, map_eq_ok] at parsed
  obtain ⟨⟨_, rest⟩, ran, rfl⟩ := parsed
  obtain ⟨taken, split, derived⟩ := Rule.takes_statements (Rules.derives_below limit) _ _ _ _ _ ran
  have among : bare taken ⊆ tokens := by
    have start : taken ⊆ significant tokens := split ▸ List.subset_append_left taken rest
    have ofTokens : significant tokens ⊆ tokens := List.filter_subset_self tokens
    exact List.Subset.trans (List.filter_subset_self taken) (List.Subset.trans start ofTokens)
  intro node member
  obtain ⟨own, ofTaken, derivedNode⟩ := derived node member
  exact ⟨own, List.Subset.trans ofTaken among, derivedNode⟩

theorem derived_of_parse {limit : Nat} {tokens : List Token} {program : List Node}
    (parsed : parse limit tokens = .ok program) :
    ∀ node ∈ program, ∃ taken, Grammar.Statement limit taken node := by
  intro node member
  obtain ⟨taken, -, derived⟩ := derived_among_of_parse parsed node member
  exact ⟨taken, derived⟩

/-- Every significant token belongs to a statement or stands between statements. -/
def ReadsWhole (limit : Nat) (tokens : List Token) (program : List Node) : Prop :=
  (Rules.withLevels limit (Scope.outermost limit ((tokens.getLast?.map Token.line).getD 1))).program.run
    (significant tokens) = .ok (program, [])

theorem ReadsWhole.parse {limit : Nat} {tokens : List Token} {program : List Node}
    (whole : ReadsWhole limit tokens program) : parse limit tokens = .ok program := by
  rw [ReadsWhole, Rules.withLevels_eq_layer] at whole
  rw [parse_eq]
  exact congrArg (Prod.fst <$> ·) whole

theorem readsWhole_of_derived {limit : Nat} {tokens : List Token} {node : Node}
    (unbroken : Unbroken (significant tokens)) (derived : Grammar.Statement limit (significant tokens) node) :
    ReadsWhole limit tokens [node] := by
  unfold ReadsWhole
  generalize (tokens.getLast?.map Token.line).getD 1 = endLine
  have read := (run_statement_iff_derived limit endLine unbroken node).mpr derived
  rw [Rules.withLevels_eq_layer] at read ⊢
  obtain ⟨begin, later, isTokens, begins⟩ := derived.starts
  have shown := Rule.dropWhile_isBreak begins later
  rw [isTokens] at read ⊢
  change (Rule.statement _ _).run (begin :: later) = .ok (node, []) at read
  change (Rule.statements (Rules.below limit) (Scope.outermost limit endLine) (begin :: later)).run
    (begin :: later) = .ok ([node], [])
  rw [Rule.run_statements_cons rfl, shown, List.head?_cons, Option.any_some, if_pos begins, read]
  rfl

end Tacit
