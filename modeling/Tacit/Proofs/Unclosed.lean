import Tacit.Proofs.LineBreaks

/-! Brackets that are never closed. Whatever a rule reads has its brackets nested: each is closed by one of its kind,
and what stands between the two is nested itself. So where the tokens come to an end and a closing bracket is wanted,
the brackets that were entered and not left are exactly those that nothing matches, and the one whose closing is
missed is the last of them. -/
namespace Tacit

/-- Every bracket is closed by one of its kind, and brackets between those two are closed between them. -/
inductive Nested : List Token → Prop
  | nil : Nested []
  | plain {token : Token} (noBracket : token.kind.isBracket = false) : Nested [token]
  | append {first second : List Token} (before : Nested first) (behind : Nested second) : Nested (first ++ second)
  | enclosed {bracket : Bracket} {opening closing : Token} {inside : List Token}
      (opens : opening.kind = bracket.openingKind) (inner : Nested inside)
      (closes : closing.kind = bracket.closingKind) : Nested (opening :: (inside ++ [closing]))

/-- A closing bracket of the same kind stands behind an opening one, with nothing but nested brackets between. -/
def Token.Matched (opening : Token) (behind : List Token) : Prop :=
  ∃ (bracket : Bracket) (inside : List Token) (closing : Token) (beyond : List Token),
    behind = inside ++ closing :: beyond ∧ opening.kind = bracket.openingKind ∧ Nested inside ∧
      closing.kind = bracket.closingKind

/-- Nothing matches an opening bracket, though every bracket that is opened behind it is matched. -/
structure Token.LastUnmatched (opening : Token) (behind : List Token) : Prop where
  unmatched : ¬ opening.Matched behind
  others : ∀ (bracket : Bracket) (before : List Token) (other : Token) (after : List Token),
    behind = before ++ other :: after → other.kind = bracket.openingKind → other.Matched after

theorem Bracket.isBracket_openingKind (bracket : Bracket) : bracket.openingKind.isBracket = true := by
  cases bracket <;> rfl

theorem Bracket.openingKind_ne_closingKind (bracket other : Bracket) : bracket.openingKind ≠ other.closingKind := by
  cases bracket <;> cases other <;> decide

theorem Token.Matched.append {opening : Token} {behind : List Token} (isMatched : opening.Matched behind)
    (more : List Token) : opening.Matched (behind ++ more) := by
  obtain ⟨bracket, inside, closing, beyond, rfl, opens, inner, closes⟩ := isMatched
  exact ⟨bracket, inside, closing, beyond ++ more, by simp, opens, inner, closes⟩

namespace Nested

theorem balanced {tokens : List Token} (nested : Nested tokens) : Balanced tokens := by
  induction nested with
  | nil => exact balanced_nil
  | plain noBracket => exact balanced_singleton (Token.neutral_of_kind rfl noBracket)
  | append before behind first second => exact first.append second
  | enclosed opens inner closes inside => exact Closing.append inside (closing_singleton closes) _ opens

theorem of_kind {token : Token} {kind : TokenKind} (isKind : token.kind = kind) (noBracket : kind.isBracket = false) :
    Nested [token] :=
  .plain (isKind ▸ noBracket)

theorem flatMap {α : Type} {parts : List (List Token × α)} (each : ∀ part ∈ parts, Nested part.1) :
    Nested (parts.flatMap Prod.fst) := by
  induction parts with
  | nil => exact .nil
  | cons part parts ih =>
    obtain ⟨first, others⟩ := List.forall_mem_cons.mp each
    exact .append first (ih others)

theorem of_plain {tokens : List Token} (plain : ∀ token ∈ tokens, token.kind.isBracket = false) : Nested tokens := by
  induction tokens with
  | nil => exact .nil
  | cons token tokens ih =>
    obtain ⟨first, others⟩ := List.forall_mem_cons.mp plain
    exact .append (.plain first) (ih others)

/-- Tokens that are no brackets may be left out. -/
theorem of_filter {keep : Token → Bool} (plain : ∀ token, keep token = false → token.kind.isBracket = false)
    {tokens : List Token} (nested : Nested (tokens.filter keep)) : Nested tokens := by
  have dropped {tokens : List Token} (none : ∀ token ∈ tokens, ¬ keep token = true) : Nested tokens :=
    of_plain fun token member => plain token (by simpa using none token member)
  generalize kept : tokens.filter keep = rest at nested
  induction nested generalizing tokens with
  | nil => exact dropped (List.filter_eq_nil_iff.mp kept)
  | @plain token noBracket =>
    obtain ⟨before, after, rfl, skipped, -, others⟩ := List.filter_eq_cons_iff.mp kept
    exact .append (dropped skipped) (.append (.plain noBracket) (dropped (List.filter_eq_nil_iff.mp others)))
  | append before behind first second =>
    obtain ⟨start, finish, rfl, isFirst, isSecond⟩ := List.filter_eq_append_iff.mp kept
    exact .append (first isFirst) (second isSecond)
  | enclosed opens inner closes ih =>
    obtain ⟨before, after, rfl, skipped, -, others⟩ := List.filter_eq_cons_iff.mp kept
    obtain ⟨start, finish, rfl, isInside, isClosing⟩ := List.filter_eq_append_iff.mp others
    obtain ⟨between, beyond, rfl, skipped', -, nothing⟩ := List.filter_eq_cons_iff.mp isClosing
    have inside := Nested.append (ih isInside) (dropped skipped')
    have whole := Nested.append (.enclosed opens inside closes) (dropped (List.filter_eq_nil_iff.mp nothing))
    simpa using Nested.append (dropped skipped) whole

/-- Nothing in nested brackets closes one that was opened before them. -/
theorem unmatched {tokens : List Token} (nested : Nested tokens) (opening : Token) : ¬ opening.Matched tokens := by
  rintro ⟨bracket, inside, closing, beyond, rfl, -, inner, closes⟩
  have always := (nested.balanced bracket).always (inside.length + 1)
  have total := (inner.balanced bracket).total
  have weight := Bracket.weight_of_closing closes bracket
  have start : (inside ++ closing :: beyond).take (inside.length + 1) = inside ++ [closing] := by
    rw [List.take_append, List.take_of_length_le (Nat.le_succ _), Nat.add_sub_cancel_left, List.take_succ_cons,
      List.take_zero]
  rw [start, Bracket.surplus_append, Bracket.surplus_cons, total, weight] at always
  simp at always

/-- Every bracket that is opened in nested brackets is matched there. -/
theorem matched {tokens : List Token} (nested : Nested tokens) {bracket : Bracket} {before after : List Token}
    {other : Token} (split : tokens = before ++ other :: after) (opens : other.kind = bracket.openingKind) :
    other.Matched after := by
  induction nested generalizing before after with
  | nil => simp at split
  | @plain token noBracket =>
    have same : token = other := by
      have member : other ∈ [token] := by simp [split]
      exact (List.mem_singleton.mp member).symm
    simp [same, opens, bracket.isBracket_openingKind] at noBracket
  | append _ _ first second =>
    rcases List.append_eq_append_iff.mp split with ⟨gap, rfl, isSecond⟩ | ⟨gap, isFirst, isAfter⟩
    · exact second isSecond
    · cases gap with
      | nil => exact @second [] after (by simpa using isAfter.symm)
      | cons token gap =>
        obtain ⟨rfl, rfl⟩ := List.cons.inj isAfter
        exact (first isFirst).append _
  | @enclosed own opening closing inside opensOwn inner closes ih =>
    cases before with
    | nil =>
      obtain ⟨rfl, rfl⟩ := List.cons.inj split
      exact ⟨own, inside, closing, [], rfl, opensOwn, inner, closes⟩
    | cons token before =>
      obtain ⟨-, rest⟩ := List.cons.inj split
      have notClosing : other ≠ closing := by
        rintro rfl
        exact bracket.openingKind_ne_closingKind own (opens.symm.trans closes)
      rcases List.append_eq_append_iff.mp rest with ⟨gap, -, isClosing⟩ | ⟨gap, isInside, isAfter⟩
      · have member : other ∈ [closing] := by simp [isClosing]
        exact (notClosing (List.mem_singleton.mp member)).elim
      · cases gap with
        | nil => exact (notClosing (List.cons.inj isAfter).1).elim
        | cons token gap =>
          obtain ⟨rfl, rfl⟩ := List.cons.inj isAfter
          exact (ih isInside).append [closing]

theorem lastUnmatched {tokens : List Token} (nested : Nested tokens) (opening : Token) :
    opening.LastUnmatched tokens :=
  ⟨nested.unmatched opening, fun _ _ _ _ split opens => nested.matched split opens⟩

end Nested

/-! Whatever the grammar derives is nested, by recursion on the derivations. -/
namespace Grammar

variable {levels : Nat} {tokens : List Token} {node : Node}

theorem Wraps.nested {operand : Node} {marks : List Token} (wraps : Wraps operand marks node) : Nested marks := by
  induction wraps with
  | done => exact .nil
  | next kind _ _ others => exact .append (.of_kind kind rfl) others

mutual

theorem Primary.nested {levels : Nat} {tokens : List Token} {node : Node} :
    Primary levels tokens node → Nested tokens
  | .number kind _ => .of_kind kind rfl
  | .string kind => .of_kind kind rfl
  | .character kind _ => .of_kind kind rfl
  | .reference kind => .of_kind kind rfl
  | .function (.inl kind) _ => .of_kind kind rfl
  | .function (.inr kind) _ => .of_kind kind rfl
  | .parenthesized opens inner closes => @Nested.enclosed .paren _ _ _ opens inner.nested closes
  | .array opens inner closes => @Nested.enclosed .array _ _ _ opens inner.nested closes
  | .list opens inner closes => @Nested.enclosed .list _ _ _ opens inner.nested closes

theorem Modified.nested {levels : Nat} {tokens : List Token} {node : Node} :
    Modified levels tokens node → Nested tokens
  | .wrapped operand wraps => .append operand.nested wraps.nested
  | .combined operand wraps kind _ second =>
    .append (.append operand.nested wraps.nested) (.append (.of_kind kind rfl) second.nested)

theorem Joined.nested {levels : Nat} {tokens : List Token} {node : Node} :
    Joined levels tokens node → Nested tokens
  | .behind kind element => .append (.of_kind kind rfl) element.nested

theorem Strand.nested {levels : Nat} {tokens : List Token} {node : Node} :
    Strand levels tokens node → Nested tokens
  | .elements begins each => .append begins.nested (.flatMap fun part member => (each part member).nested)

theorem Expression.nested {levels : Nat} {tokens : List Token} {node : Node} :
    Expression levels tokens node → Nested tokens
  | .tines begins each => .append begins.nested (.flatMap fun part member => (each part member).nested)

theorem Separated.nested {levels : Nat} {tokens : List Token} {node : Node} :
    Separated levels tokens node → Nested tokens
  | .behind kind element => .append (.of_kind kind rfl) element.nested

theorem Elements.nested {levels : Nat} {tokens : List Token} {nodes : List Node} :
    Elements levels tokens nodes → Nested tokens
  | .listed begins each => .append begins.nested (.flatMap fun part member => (each part member).nested)

theorem Statement.nested {levels : Nat} {tokens : List Token} {node : Node} :
    Statement levels tokens node → Nested tokens
  | .plain only => only.nested
  | .binding named marked bound => .append (.of_kind named rfl) (.append (.of_kind marked rfl) bound.nested)

end

end Grammar

theorem Nested.of_bare {tokens : List Token} (nested : Nested (bare tokens)) : Nested tokens := by
  refine of_filter (fun token isBreak => ?_) nested
  have kind : token.kind = .newline := by simpa using isBreak
  rw [kind]
  rfl

/-- The closing of a bracket that was opened on a line is wanted where the tokens end. -/
def missing (bracket : Bracket) (line : Nat) : ParseError := ⟨.endOfInput (.closing bracket), line⟩

def Unclosed (bracket : Bracket) (line : Nat) (tokens : List Token) : Prop :=
  ∃ outer opening inside, tokens = outer ++ opening :: inside ∧ opening.kind = bracket.openingKind ∧
    opening.line = line ∧ Nested inside

/-- The bracket to be closed next, if a bracket on some line was entered before: that one, or one that is opened in
the tokens since. -/
def ToClose (entered : Option (Bracket × Nat)) (bracket : Bracket) (line : Nat) (tokens : List Token) : Prop :=
  entered = some (bracket, line) ∧ Nested tokens ∨ Unclosed bracket line tokens

theorem Unclosed.append {bracket : Bracket} {line : Nat} {tokens : List Token} (unclosed : Unclosed bracket line tokens)
    (first : List Token) : Unclosed bracket line (first ++ tokens) := by
  obtain ⟨outer, opening, inside, rfl, opens, isLine, nested⟩ := unclosed
  exact ⟨first ++ outer, opening, inside, by simp, opens, isLine, nested⟩

/-- Nested brackets leave open what was open before them. -/
theorem ToClose.append {entered : Option (Bracket × Nat)} {bracket : Bracket} {line : Nat} {first tokens : List Token}
    (nested : Nested first) (toClose : ToClose entered bracket line tokens) :
    ToClose entered bracket line (first ++ tokens) := by
  rcases toClose with ⟨same, others⟩ | unclosed
  · exact .inl ⟨same, nested.append others⟩
  · exact .inr (unclosed.append first)

/-- Entering a bracket makes it the next one to be closed. -/
theorem Unclosed.of_entered {own bracket : Bracket} {opening : Token} {line : Nat} {tokens : List Token}
    (opens : opening.kind = own.openingKind) (toClose : ToClose (some (own, opening.line)) bracket line tokens) :
    Unclosed bracket line (opening :: tokens) := by
  rcases toClose with ⟨same, nested⟩ | unclosed
  · cases same
    exact ⟨[], opening, tokens, rfl, opens, rfl, nested⟩
  · exact unclosed.append [opening]

/-- A refusal that is not about the closing of a bracket. -/
def ParseError.Elsewhere (e : ParseError) : Prop := ∀ bracket, e.cause ≠ .endOfInput (.closing bracket)

@[simp] theorem ParseError.elsewhere_iff {cause : ParseFault} {line : Nat} :
    ParseError.Elsewhere ⟨cause, line⟩ ↔ ∀ bracket, cause ≠ .endOfInput (.closing bracket) :=
  Iff.rfl

@[simp] theorem ParseError.elsewhere_unexpected (expected : Expectation) (token : Token) :
    ParseError.Elsewhere (Rule.unexpected expected token) :=
  fun _ => nofun

namespace Rule

variable {α β : Type} {entered : Option (Bracket × Nat)}

/-- If a rule misses the closing of a bracket at the end of these tokens, it is the one to be closed next. -/
def MissesOn (entered : Option (Bracket × Nat)) (rule : Rule α) (tokens : List Token) : Prop :=
  ∀ bracket line, rule.run tokens = .error (missing bracket line) → ToClose entered bracket line tokens

def Misses (entered : Option (Bracket × Nat)) (rule : Rule α) : Prop := ∀ tokens, rule.MissesOn entered tokens

/-- The same of a rule that is applied where a certain token comes next. -/
def MissesAt (entered : Option (Bracket × Nat)) (token : Token) (rule : Rule α) : Prop :=
  ∀ later, rule.MissesOn entered (token :: later)

theorem Misses.at {rule : Rule α} (misses : rule.Misses entered) (token : Token) : rule.MissesAt entered token :=
  fun later => misses (token :: later)

/-- A rule that knows of no bracket before it may be applied behind one. -/
theorem Misses.inside {rule : Rule α} (misses : rule.Misses none) : rule.Misses entered := by
  intro tokens bracket line failed
  rcases misses tokens bracket line failed with ⟨impossible, -⟩ | unclosed
  · cases impossible
  · exact .inr unclosed

theorem misses_pure (a : α) : Misses entered (pure a : Rule α) := by
  intro tokens bracket line failed
  cases failed

theorem misses_throw {e : ParseError} (other : e.Elsewhere) : Misses entered (throw e : Rule α) := by
  intro tokens bracket line failed
  cases failed
  exact (other bracket rfl).elim

theorem misses_lift {x : Except ParseError α} (other : FailsOnly ParseError.Elsewhere x) :
    Misses entered (liftM x : Rule α) := by
  cases x with
  | error e => exact misses_throw (failsOnly_error.mp other)
  | ok a => exact misses_pure a

theorem MissesOn.bind {x : Rule α} {f : α → Rule β} {tokens : List Token} (first : x.MissesOn entered tokens)
    (second : ∀ a rest, x.run tokens = .ok (a, rest) →
      (∃ taken, tokens = taken ++ rest ∧ Nested taken) ∧ (f a).MissesOn entered rest) :
    (x >>= f).MissesOn entered tokens := by
  intro bracket line failed
  rw [StateT.run_bind] at failed
  cases ran : x.run tokens with
  | error e =>
    rw [ran] at failed
    cases failed
    exact first bracket line ran
  | ok result =>
    rw [ran] at failed
    obtain ⟨⟨taken, rfl, nested⟩, misses⟩ := second result.1 result.2 ran
    exact (misses bracket line failed).append nested

theorem Misses.bind {x : Rule α} {f : α → Rule β} (first : x.Misses entered)
    (takes : x.Takes fun taken _ => Nested taken) (second : ∀ a, (f a).Misses entered) :
    (x >>= f).Misses entered := by
  intro tokens
  refine (first tokens).bind fun a rest ran => ⟨?_, second a rest⟩
  obtain ⟨taken, split, nested⟩ := takes tokens a rest ran
  exact ⟨taken, split, nested.of_bare⟩

theorem MissesAt.bind {x : Rule α} {f : α → Rule β} {token : Token} (first : x.MissesAt entered token)
    (takes : TakesAt token x fun taken _ => Nested taken) (second : ∀ a, (f a).Misses entered) :
    (x >>= f).MissesAt entered token := by
  intro later
  refine (first later).bind fun a rest ran => ⟨?_, second a rest⟩
  obtain ⟨taken, split, nested⟩ := takes later a rest ran
  exact ⟨taken, split, nested.of_bare⟩

theorem misses_lift_bind {x : Except ParseError α} {f : α → Rule β} (other : FailsOnly ParseError.Elsewhere x)
    (second : ∀ a, x = .ok a → (f a).Misses entered) : ((liftM x : Rule α) >>= f).Misses entered := by
  cases x with
  | error e => exact misses_throw (failsOnly_error.mp other)
  | ok a => exact second a rfl

theorem Misses.map {x : Rule α} (misses : x.Misses entered) (f : α → β) :
    (x >>= fun a => pure (f a)).Misses entered := by
  intro tokens bracket line failed
  rw [StateT.run_bind] at failed
  cases ran : x.run tokens with
  | error e =>
    rw [ran] at failed
    cases failed
    exact misses tokens bracket line ran
  | ok result =>
    rw [ran] at failed
    cases failed

theorem misses_peek {scope : Scope} {f : Option Token → Rule α} (nothing : (f none).MissesOn entered [])
    (next : ∀ token, (f (some token)).MissesAt entered token) : (peek scope >>= f).Misses entered := by
  intro tokens bracket line failed
  obtain ⟨breaks, split, isBare⟩ := exists_eq_append_visible scope tokens
  have nested : Nested breaks := Nested.of_bare (isBare ▸ .nil)
  rw [run_bind_of_ok (run_peek scope tokens)] at failed
  rw [split]
  refine ToClose.append nested ?_
  cases shown : visible scope tokens with
  | nil =>
    rw [shown] at failed
    exact nothing bracket line failed
  | cons token later =>
    rw [shown] at failed
    exact next token later bracket line failed

theorem missesAt_peek {scope : Scope} {f : Option Token → Rule α} {token : Token} (kind : token.kind ≠ .newline)
    (next : (f (some token)).MissesAt entered token) : (peek scope >>= f).MissesAt entered token := by
  intro later bracket line failed
  have shown : visible scope (token :: later) = token :: later := by simp [visible, kind]
  rw [run_bind_of_ok (run_peek scope _), shown] at failed
  exact next later bracket line failed

theorem misses_ifPeekIs {scope : Scope} {accept : TokenKind → Bool} {yes no : Rule α}
    (follows : ∀ token, accept token.kind = true → yes.MissesAt entered token) (otherwise : no.Misses entered) :
    Misses entered (do if ← peekIs scope accept then yes else no) := by
  have asPeek : (do if ← peekIs scope accept then yes else no : Rule α) =
      peek scope >>= fun next => if next.any (accept ·.kind) then yes else no := by
    simp [peekIs]
  rw [asPeek]
  refine misses_peek (otherwise []) fun token => ?_
  by_cases accepted : accept token.kind = true
  · simpa [accepted] using follows token accepted
  · simpa [accepted] using otherwise.at token

theorem missesAt_advance {rule : Rule α} {token : Token} {kind : TokenKind} (isKind : token.kind = kind)
    (noBracket : kind.isBracket = false) (misses : rule.Misses entered) :
    (advance >>= fun _ => rule).MissesAt entered token :=
  fun later bracket line failed => (misses later bracket line failed).append (.of_kind isKind noBracket)

/-- Behind an opening bracket, that one is to be closed next. -/
theorem missesAt_open {rule : Rule α} {token : Token} {own : Bracket} (opens : token.kind = own.openingKind)
    (misses : rule.Misses (some (own, token.line))) : (advance >>= fun _ => rule).MissesAt entered token :=
  fun later bracket line failed => .inr (.of_entered opens (misses later bracket line failed))

/-- Items one after the other, each of them nested, and what comes behind them. -/
theorem misses_many {scope : Scope} {accept : TokenKind → Bool} {item : Rule α} {R : List Token → α → Prop}
    {f : List α → Rule β} (takes : ∀ token, accept token.kind = true → TakesAt token item R)
    (nests : ∀ taken a, R taken a → Nested taken)
    (each : ∀ token, accept token.kind = true → item.MissesAt entered token)
    (second : ∀ items, (f items).Misses entered) : (many (peekIs scope accept) item >>= f).Misses entered := by
  have loop (budget : List Token) : (repeatWhile (peekIs scope accept) item budget).Misses entered := by
    induction budget with
    | nil => exact misses_pure []
    | cons _ budget ih =>
      refine misses_ifPeekIs (fun token accepted => ?_) (misses_pure [])
      exact (each token accepted).bind ((takes token accepted).mono nests) fun first => ih.map _
  have misses : (many (peekIs scope accept) item).Misses entered := fun tokens => loop tokens tokens
  refine misses.bind ((takes_many takes).mono ?_) second
  rintro _ _ ⟨parts, rfl, -, related⟩
  exact .flatMap fun part member => nests part.1 part.2 (related part member)

/-- At the end of the tokens the closing of the bracket entered is missed. -/
theorem missesOn_missing (own : Bracket) (line : Nat) :
    MissesOn (some (own, line)) (throw (missing own line) : Rule α) [] := by
  intro bracket other failed
  cases failed
  exact .inl ⟨rfl, .nil⟩

theorem misses_close (scope : Scope) (own : Bracket) (expected : Expectation) (line : Nat) :
    (close scope own expected line).Misses (some (own, line)) := by
  refine misses_peek (missesOn_missing own line) fun token => ?_
  dsimp only
  split
  · intro later bracket line failed
    cases failed
  · exact (misses_throw (by simp)).at token

/-- Before something that has to stand in brackets, nothing is taken. -/
theorem Misses.nonempty {rule : Rule α} {own : Bracket} {line : Nat} (misses : rule.Misses (some (own, line)))
    (scope : Scope) {empty : Token → ParseError} (other : ∀ token, (empty token).Elsewhere) :
    (nonempty scope own empty line >>= fun _ => rule).Misses (some (own, line)) := by
  have start : (Rule.nonempty scope own empty line).Misses (some (own, line)) := by
    refine misses_peek (missesOn_missing own line) fun token => ?_
    dsimp only
    split
    · exact (misses_throw (other token)).at token
    · exact (misses_pure ()).at token
  have takes := takes_nonempty scope own empty line
  exact start.bind (takes.mono fun _ _ isEmpty => isEmpty ▸ .nil) fun _ => misses

theorem misses_parenthesized {scope : Scope} {statement : Rule Node} {levels : Nat}
    (derives : statement.Takes (Grammar.Statement levels)) (inner : statement.Misses none) (line : Nat) :
    (parenthesized scope statement line).Misses (some (.paren, line)) := by
  refine Misses.nonempty ?_ scope fun _ _ => nofun
  refine inner.inside.bind (derives.mono fun _ _ derived => derived.nested) fun node => ?_
  exact (misses_close scope .paren _ line).map fun _ => node

theorem misses_elements {scope : Scope} {expression : Rule Node} {levels : Nat} (bracket : Bracket)
    (derives : expression.Takes (Grammar.Expression levels)) (inner : expression.Misses none) (line : Nat) :
    (elements scope expression bracket line).Misses (some (bracket, line)) := by
  refine Misses.nonempty ?_ scope fun _ _ => nofun
  refine inner.inside.bind (derives.mono fun _ _ derived => derived.nested) fun first => ?_
  refine misses_many (takes_separated scope derives bracket line) (fun _ _ derived => derived.nested)
    (fun token isMark => ?_) fun others => ?_
  · exact missesAt_advance (of_decide_eq_true isMark) rfl (inner.inside.nonempty scope fun _ _ => nofun)
  · exact (misses_close scope bracket _ line).map fun _ => first :: others

/-- A token is refused for itself, and not for the end of the tokens. -/
theorem elsewhere_of_token (token : Token) :
    FailsOnly ParseError.Elsewhere (numberOf token) ∧ FailsOnly ParseError.Elsewhere (characterOf token) ∧
      FailsOnly ParseError.Elsewhere (glyphFunction token) ∧ FailsOnly ParseError.Elsewhere (glyphModifier token) := by
  have refused {α : Type} (expected : Expectation) :
      FailsOnly ParseError.Elsewhere (.error (unexpected expected token) : Except ParseError α) :=
    failsOnly_error.mpr (ParseError.elsewhere_unexpected expected token)
  refine ⟨?_, ?_, ?_, ?_⟩
  · unfold numberOf
    split
    · exact failsOnly_ok _
    · exact refused _
  · unfold characterOf
    split
    · exact failsOnly_ok _
    · exact refused _
  · unfold glyphFunction
    split
    · exact failsOnly_ok _
    · exact refused _
  · unfold glyphModifier
    split
    · exact failsOnly_ok _
    · exact refused _

end Rule

/-- Where rules miss the closing of a bracket, it is that of the last one unclosed. -/
structure Rules.Misses (rules : Rules) : Prop where
  primary : rules.primary.Misses none
  expression : rules.expression.Misses none
  statement : rules.statement.Misses none

/-- A descent leads to such rules, or refuses to go deeper. -/
structure Descent.Misses (descend : Descent) : Prop where
  refuses : ∀ scope line, FailsOnly ParseError.Elsewhere (descend scope line)
  reads : ∀ scope line rules, descend scope line = .ok rules → rules.Misses

namespace Rule

section Level

variable {descend : Descent} {levels : Nat}
  (derives : ∀ scope line rules, descend scope line = .ok rules →
    ∃ inner, levels = inner + 1 ∧ rules.Derives inner)
  (deeper : descend.Misses)

include derives deeper

theorem misses_primary (scope : Scope) : (primary descend scope).Misses none := by
  refine misses_peek (misses_throw (by simp) []) fun token => ?_
  obtain ⟨number, character, function, -⟩ := elsewhere_of_token token
  have descends := deeper.refuses scope.insideBrackets token.line
  dsimp only
  cases kind : token.kind with
  | number => exact missesAt_advance kind rfl ((misses_lift number).map _)
  | string | identifier => exact missesAt_advance kind rfl (misses_pure _)
  | character => exact missesAt_advance kind rfl ((misses_lift character).map _)
  | monadicFunction | dyadicFunction => exact missesAt_advance kind rfl ((misses_lift function).map _)
  | openParen =>
    refine @missesAt_open _ _ _ _ .paren kind (misses_lift_bind descends fun rules isBelow => ?_)
    obtain ⟨inner, -, derives⟩ := derives _ _ _ isBelow
    exact misses_parenthesized derives.statement (deeper.reads _ _ _ isBelow).statement _
  | openArray =>
    refine @missesAt_open _ _ _ _ .array kind (misses_lift_bind descends fun rules isBelow => ?_)
    obtain ⟨inner, -, derives⟩ := derives _ _ _ isBelow
    exact (misses_elements .array derives.expression (deeper.reads _ _ _ isBelow).expression _).map _
  | openList =>
    refine @missesAt_open _ _ _ _ .list kind (misses_lift_bind descends fun rules isBelow => ?_)
    obtain ⟨inner, -, derives⟩ := derives _ _ _ isBelow
    exact (misses_elements .list derives.expression (deeper.reads _ _ _ isBelow).expression _).map _
  | _ =>
    intro later bracket line failed
    cases failed

theorem misses_modified (scope : Scope) : (modified descend scope).Misses none := by
  refine (misses_primary derives deeper scope).bind
    ((takes_primary derives scope).mono fun _ _ derived => derived.nested) fun operand => ?_
  refine misses_many (takes_monadicModifier scope) ?_ (fun token isMark => ?_) fun modifiers => ?_
  · rintro _ _ ⟨mark, rfl, kind, -⟩
    exact .of_kind kind rfl
  · have kind : token.kind = .monadicModifier := of_decide_eq_true isMark
    have spelled := (elsewhere_of_token token).2.2.2
    exact missesAt_peek (by simp [kind]) (missesAt_advance kind rfl ((misses_lift spelled).map _))
  · refine misses_peek (misses_pure _ []) fun token => ?_
    dsimp only
    split
    · rename_i kind
      refine missesAt_advance kind rfl (misses_lift_bind (elsewhere_of_token token).2.2.2 fun modifier _ => ?_)
      refine misses_ifPeekIs (fun next _ => Misses.at ?_ next) (misses_throw (by simp))
      refine misses_lift_bind (deeper.refuses scope token.line) fun rules isBelow => ?_
      exact (deeper.reads _ _ _ isBelow).primary.map _
    · exact (misses_pure _).at token

theorem misses_strandElement (scope : Scope) (token : Token) (isMark : decide (token.kind = .ligature) = true) :
    (strandElement descend scope).MissesAt none token := by
  have kind : token.kind = .ligature := of_decide_eq_true isMark
  refine missesAt_peek (by simp [kind]) (missesAt_advance kind rfl ?_)
  refine misses_peek (misses_throw (by simp) []) fun next => ?_
  dsimp only
  split
  · exact (misses_modified derives deeper scope).at next
  · exact (misses_throw (by simp)).at next

theorem misses_strand (scope : Scope) : (strand descend scope).Misses none := by
  refine misses_peek (misses_throw (by simp) []) fun token => ?_
  dsimp only
  split
  · refine Misses.at ?_ token
    refine (misses_modified derives deeper scope).bind
      ((takes_modified derives scope).mono fun _ _ derived => derived.nested) fun first => ?_
    refine misses_many (takes_strandElement derives scope) (fun _ _ derived => derived.nested)
      (misses_strandElement derives deeper scope) fun others => ?_
    cases others <;> exact misses_pure _
  · exact (misses_throw (by simp)).at token

theorem misses_expression (scope : Scope) : (expression descend scope).Misses none := by
  have each := misses_strand derives deeper scope
  have takes := takes_strand derives scope
  refine each.bind (takes.mono fun _ _ derived => derived.nested) fun first => ?_
  refine misses_many (fun token _ => takes.at token) (fun _ _ derived => derived.nested)
    (fun token _ => each.at token) fun others => ?_
  cases others <;> exact misses_pure _

omit derives in
theorem misses_bindingValue (scope : Scope) (name : Token) (arity : Option Arity) :
    (bindingValue descend scope name arity).Misses none := by
  refine misses_peek ?_ fun token => Misses.at ?_ token
  · intro bracket line failed
    cases failed
  · refine misses_lift_bind (deeper.refuses scope name.line) fun rules isBelow => ?_
    exact (deeper.reads _ _ _ isBelow).statement.map _

theorem misses_statement (scope : Scope) : (statement descend scope).Misses none := by
  have plain := misses_expression derives deeper scope
  refine misses_peek (plain []) fun name => ?_
  dsimp only
  split
  · rename_i named
    intro later
    change (afterName descend scope name (markerAfterName? scope later)).MissesOn none (name :: later)
    cases found : markerAfterName? scope later with
    | none => exact plain (name :: later)
    | some arity =>
      intro bracket line failed
      change (bindingValue descend scope name arity).run later.tail = _ at failed
      have toClose := misses_bindingValue deeper scope name arity later.tail bracket line failed
      obtain ⟨marker, behind, shown, marked⟩ := markerAfterName?_eq_some.mp found
      cases later with
      | nil => simp [visible] at shown
      | cons second rest =>
        have taken : Nested [second] := by
          by_cases isBreak : second.kind = .newline
          · exact .of_kind isBreak rfl
          · have atMarker : visible scope (second :: rest) = second :: rest := by simp [visible, isBreak]
            obtain ⟨rfl, -⟩ := List.cons.inj (atMarker.symm.trans shown)
            exact .of_kind marked rfl
        exact toClose.append (Nested.append (.of_kind named rfl) taken)
  · exact plain.at name

theorem misses_program (scope : Scope) : (program descend scope).Misses none := by
  have loop (budget : List Token) : (statements descend scope budget).Misses none := by
    induction budget with
    | nil => exact misses_pure []
    | cons _ budget ih =>
      have skip : (modify (List.dropWhile (isBreak ·.kind)) : Rule Unit).Misses none := by
        intro tokens bracket line failed
        cases failed
      refine skip.bind ?_ fun _ => misses_ifPeekIs (fun token _ => Misses.at ?_ token) (misses_pure [])
      · intro tokens _ rest ran
        cases ran
        refine ⟨_, List.takeWhile_append_dropWhile.symm, ?_⟩
        refine Nested.of_plain fun token member => ?_
        have separates := List.mem_takeWhile_imp (List.mem_of_mem_filter member)
        cases kind : token.kind <;> simp_all [isBreak, TokenKind.isBracket]
      · refine (misses_statement derives deeper scope).bind
          ((takes_statement derives scope).mono fun _ _ derived => derived.nested) fun first => ?_
        exact misses_ifPeekIs (fun token _ => (ih.map _).at token) (misses_pure [first])
  exact fun tokens => loop tokens tokens

end Level

end Rule

theorem Rules.misses_layer {descend : Descent} {levels : Nat}
    (derives : ∀ scope line rules, descend scope line = .ok rules →
      ∃ inner, levels = inner + 1 ∧ rules.Derives inner)
    (deeper : descend.Misses) (scope : Scope) : (layer descend scope).Misses where
  primary := Rule.misses_primary derives deeper scope
  expression := Rule.misses_expression derives deeper scope
  statement := Rule.misses_statement derives deeper scope

theorem Rules.misses_below (levels : Nat) : (below levels).Misses := by
  induction levels with
  | zero => exact ⟨fun _ _ => failsOnly_error.mpr fun _ => nofun, nofun⟩
  | succ levels ih =>
    refine ⟨fun scope _ => failsOnly_ok (withLevels levels scope), ?_⟩
    rintro scope line _ ⟨⟩
    rw [withLevels_eq_layer]
    exact misses_layer (derives_below levels) ih scope

/-- A missing bracket is that of the last opening one that nothing matches, and it is reported on that one's line. -/
theorem lastUnmatched_of_parse {limit : Nat} {tokens : List Token} {bracket : Bracket} {line : Nat}
    (refused : parse limit tokens = .error ⟨.endOfInput (.closing bracket), line⟩) :
    ∃ outer opening inside, tokens = outer ++ opening :: inside ∧ opening.LastUnmatched inside ∧
      opening.kind = bracket.openingKind ∧ opening.line = line := by
  rw [parse_eq, map_eq_error] at refused
  have misses := Rule.misses_program (Rules.derives_below limit) (Rules.misses_below limit) _ _ _ _ refused
  rcases misses with ⟨impossible, -⟩ | ⟨outer, opening, inside, split, opens, isLine, nested⟩
  · cases impossible
  obtain ⟨start, rest, rfl, -, isRest⟩ := List.filter_eq_append_iff.mp split
  obtain ⟨blanks, behind, rfl, -, -, isInside⟩ := List.filter_eq_cons_iff.mp isRest
  have allNested : Nested behind := by
    refine Nested.of_filter (fun token blank => ?_) (isInside ▸ nested)
    cases kind : token.kind <;> simp_all [Token.isSignificant, TokenKind.isBracket]
  exact ⟨start ++ blanks, opening, behind, by simp, allNested.lastUnmatched opening, opens, isLine⟩

theorem lastUnmatched_of_parse_of_open_parenthesis :
    let tokens : List Token := [⟨.openArray, "[", 1⟩, ⟨.identifier, "A", 1⟩, ⟨.newline, "\n", 1⟩, ⟨.openParen, "(", 2⟩,
      ⟨.openList, "⟨", 2⟩, ⟨.identifier, "B", 2⟩, ⟨.closeList, "⟩", 2⟩, ⟨.newline, "\n", 2⟩, ⟨.comment, "# C", 3⟩]
    parse defaultLimit tokens = .error ⟨.endOfInput (.closing .paren), 2⟩ ∧
      ∃ outer opening inside, tokens = outer ++ opening :: inside ∧ opening.LastUnmatched inside ∧
        opening.kind = .openParen ∧ opening.line = 2 := by
  intro tokens
  have refused : parse defaultLimit tokens = .error ⟨.endOfInput (.closing .paren), 2⟩ := by
    simp only [tokens]
    rfl
  exact ⟨refused, lastUnmatched_of_parse refused⟩

end Tacit
