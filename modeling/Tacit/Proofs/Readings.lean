import Tacit.Proofs.Statements

/-! Two readings in step. A second reading has the same tokens before it as a first one, but they stand
some lines further down, more tokens may come behind them, and more levels may be left to the rules.
Whatever the first one reads, the second reads too, on other lines; and the first one fails where the
second does, apart from failures that are excused beforehand. The nesting of a program is refused in
this way only, and what follows a program leaves it as it is. -/
namespace Tacit

def Located.moved {Cause : Type} (lines : Nat) (failure : Located Cause) : Located Cause :=
  { failure with line := failure.line + lines }

def Token.moved (lines : Nat) (token : Token) : Token := { token with line := token.line + lines }

mutual

def Node.moved (lines : Nat) : Node → Node
  | .number value line => .number value (line + lines)
  | .string text line => .string text (line + lines)
  | .character value line => .character value (line + lines)
  | .reference name line => .reference name (line + lines)
  | .glyph primitive arity line => .glyph primitive arity (line + lines)
  | .modified modifier operand line => .modified modifier (operand.moved lines) (line + lines)
  | .combined modifier left right line =>
    .combined modifier (left.moved lines) (right.moved lines) (line + lines)
  | .binding name arity value line => .binding name arity (value.moved lines) (line + lines)
  | .train tines line => .train (Node.movedAll lines tines) (line + lines)
  | .strand elements line => .strand (Node.movedAll lines elements) (line + lines)
  | .array elements line => .array (Node.movedAll lines elements) (line + lines)
  | .list elements line => .list (Node.movedAll lines elements) (line + lines)

def Node.movedAll (lines : Nat) : List Node → List Node
  | [] => []
  | node :: nodes => node.moved lines :: Node.movedAll lines nodes

end

namespace Node

theorem movedAll_eq (lines : Nat) (nodes : List Node) : movedAll lines nodes = nodes.map (moved lines) := by
  induction nodes with
  | nil => rfl
  | cons node nodes ih => rw [movedAll, ih, List.map_cons]

theorem line_moved (lines : Nat) (node : Node) : (node.moved lines).line = node.line + lines := by
  cases node <;> rfl

end Node

/-- What a second reading has that the first one has not. -/
structure Variation where
  /-- How many lines further down the tokens stand. -/
  lines : Nat
  /-- The tokens that come behind. -/
  behind : List Token
  /-- The failures of the first reading that the second one need not share. -/
  excused : ParseError → Prop

namespace Variation

variable (v : Variation)

def move (tokens : List Token) : List Token := tokens.map (Token.moved v.lines) ++ v.behind

/-- What comes behind begins on a new line, and then no failure need be shared, since the first reading
may fail for want of tokens. -/
structure Fair : Prop where
  parted : ∀ token ∈ v.behind.head?, token.kind = .newline
  lenient : v.behind ≠ [] → ∀ e, v.excused e

structure Alike (scope scope' : Scope) : Prop where
  bracketed : scope'.bracketed = scope.bracketed
  ending : (∀ e, v.excused e) ∨ scope'.endLine = scope.endLine + v.lines
  deep : ∀ line, v.excused ⟨.nestingTooDeep scope.limit, line⟩

/-- The first reading has come to its end inside brackets, where the second one sees past the break. -/
structure Exhausted (scope : Scope) (rest : List Token) : Prop where
  more : v.behind ≠ []
  bracketed : scope.bracketed = true
  breaks : ∀ token ∈ rest, token.kind = .newline

variable {v} {scope scope' : Scope}

theorem Exhausted.of_subset {rest tokens : List Token} (ended : v.Exhausted scope tokens)
    (part : rest ⊆ tokens) : v.Exhausted scope rest :=
  ⟨ended.more, ended.bracketed, fun token member => ended.breaks token (part member)⟩

theorem Alike.insideBrackets (alike : v.Alike scope scope') :
    v.Alike scope.insideBrackets scope'.insideBrackets :=
  ⟨rfl, alike.ending, alike.deep⟩

@[simp] theorem move_cons (token : Token) (tokens : List Token) :
    v.move (token :: tokens) = token.moved v.lines :: v.move tokens := rfl

theorem dropWhile_moved (lines : Nat) (accept : TokenKind → Bool) (tokens : List Token) :
    (tokens.map (Token.moved lines)).dropWhile (accept ·.kind) =
      (tokens.dropWhile (accept ·.kind)).map (Token.moved lines) := by
  rw [List.dropWhile_map]
  rfl

end Variation

namespace Rule

open Variation

variable {α β γ δ : Type}

inductive Agreement (v : Variation) (scope : Scope) (g : α → β) (tokens : List Token) :
    Except ParseError (α × List Token) → Except ParseError (β × List Token) → Prop
  | read (a : α) {rest : List Token} (part : rest ⊆ tokens) :
      Agreement v scope g tokens (.ok (a, rest)) (.ok (g a, v.move rest))
  | exhausted (a : α) {rest : List Token} (part : rest ⊆ tokens) (ended : v.Exhausted scope rest)
      (second : Except ParseError (β × List Token)) :
      Agreement v scope g tokens (.ok (a, rest)) second
  | refused (e : ParseError) : Agreement v scope g tokens (.error e) (.error (e.moved v.lines))
  | excused {e : ParseError} (excused : v.excused e) (second : Except ParseError (β × List Token)) :
      Agreement v scope g tokens (.error e) second

/-- A rule of the second reading does what a rule of the first one does. -/
def Follows (v : Variation) (scope : Scope) (g : α → β) (rule : Rule α) (rule' : Rule β) : Prop :=
  ∀ tokens, Agreement v scope g tokens (rule.run tokens) (rule'.run (v.move tokens))

/-- The same of rules that are applied where a certain token comes next. -/
def FollowsAt (v : Variation) (scope : Scope) (g : α → β) (token : Token) (rule : Rule α)
    (rule' : Rule β) : Prop :=
  ∀ later, Agreement v scope g (token :: later) (rule.run (token :: later))
    (rule'.run (v.move (token :: later)))

variable {v : Variation} {scope scope' : Scope} {g : α → β} {h : γ → δ} {tokens : List Token}

theorem Follows.at {rule : Rule α} {rule' : Rule β} (follows : Follows v scope g rule rule')
    (token : Token) : FollowsAt v scope g token rule rule' :=
  fun later => follows (token :: later)

theorem Agreement.widen {tokens wider : List Token} {first : Except ParseError (α × List Token)}
    {second : Except ParseError (β × List Token)} (agreement : Agreement v scope g tokens first second)
    (part : tokens ⊆ wider) : Agreement v scope g wider first second := by
  cases agreement with
  | read a left => exact .read a (List.Subset.trans left part)
  | exhausted a left ended => exact .exhausted a (List.Subset.trans left part) ended _
  | refused e => exact .refused e
  | excused excused => exact .excused excused _

theorem follows_pure {a : α} {b : β} (same : b = g a) : Follows v scope g (pure a) (pure b) := by
  subst same
  exact fun tokens => .read a (List.Subset.refl tokens)

theorem follows_throw {e e' : ParseError} (same : e' = e.moved v.lines) :
    Follows v scope g (throw e) (throw e') := by
  subst same
  exact fun tokens => .refused e

theorem follows_lift {x x' : Except ParseError α} (same : x' = x.mapError (Located.moved v.lines)) :
    Follows v scope id (liftM x : Rule α) (liftM x' : Rule α) := by
  subst same
  cases x with
  | error e => exact follows_throw rfl
  | ok a => exact follows_pure rfl

section Fair

variable (fair : v.Fair)

include fair

/-- Where the first reading is at its end, nothing is asked of the second. -/
theorem Agreement.of_exhausted {first : Except ParseError (α × List Token)}
    {second : Except ParseError (β × List Token)} (agreement : Agreement v scope g tokens first second)
    (ended : v.Exhausted scope tokens) (other : Except ParseError (β × List Token)) :
    Agreement v scope g tokens first other := by
  cases agreement with
  | read a part => exact .exhausted a part (ended.of_subset part) other
  | exhausted a part ended => exact .exhausted a part ended other
  | refused e => exact .excused (fair.lenient ended.more e) other
  | excused excused => exact .excused excused other

theorem Agreement.bind {x : Except ParseError (α × List Token)} {y : Except ParseError (β × List Token)}
    {f : α → Rule γ} {f' : β → Rule δ} (first : Agreement v scope g tokens x y)
    (second : ∀ a, Follows v scope h (f a) (f' (g a))) :
    Agreement v scope h tokens (x >>= fun p => (f p.1).run p.2) (y >>= fun p => (f' p.1).run p.2) := by
  cases first with
  | @read a rest part => exact (second a rest).widen part
  | @exhausted a rest part ended => exact ((second a rest).of_exhausted fair ended _).widen part
  | refused e => exact .refused e
  | excused excused => exact .excused excused _

theorem Follows.bind {x : Rule α} {x' : Rule β} {f : α → Rule γ} {f' : β → Rule δ}
    (first : Follows v scope g x x') (second : ∀ a, Follows v scope h (f a) (f' (g a))) :
    Follows v scope h (x >>= f) (x' >>= f') :=
  fun tokens => (first tokens).bind fair second

theorem FollowsAt.bind {token : Token} {x : Rule α} {x' : Rule β} {f : α → Rule γ} {f' : β → Rule δ}
    (first : FollowsAt v scope g token x x') (second : ∀ a, Follows v scope h (f a) (f' (g a))) :
    FollowsAt v scope h token (x >>= f) (x' >>= f') :=
  fun later => (first later).bind fair second

theorem Follows.before {x : Rule α} {x' : Rule β} {y : Rule γ} {y' : Rule δ} (first : Follows v scope g x x')
    (second : Follows v scope h y y') : Follows v scope h (x >>= fun _ => y) (x' >>= fun _ => y') :=
  first.bind fair fun _ => second

theorem Follows.map {x : Rule α} {x' : Rule β} (follows : Follows v scope g x x') {m : α → γ} {m' : β → δ}
    (same : ∀ a, m' (g a) = h (m a)) :
    Follows v scope h (x >>= fun a => pure (m a)) (x' >>= fun b => pure (m' b)) :=
  follows.bind fair fun a => follows_pure (same a)

omit fair in
theorem followsAt_advance {token : Token} {rule : Rule α} {rule' : Rule β}
    (follows : Follows v scope g rule rule') :
    FollowsAt v scope g token (advance >>= fun _ => rule) (advance >>= fun _ => rule') :=
  fun later => (follows later).widen (List.subset_cons_self token later)

omit fair in
/-- The readings see the same token next, or the first one is at its end. -/
theorem visible_move (alike : v.Alike scope scope') (tokens : List Token) :
    (∃ token later, visible scope tokens = token :: later ∧
        visible scope' (v.move tokens) = v.move (token :: later)) ∨
      visible scope tokens = [] ∧ (visible scope' (v.move tokens) = v.behind ∨ v.Exhausted scope []) := by
  by_cases bracketed : scope.bracketed = true
  · have seen : visible scope' (v.move tokens) = (v.move tokens).dropWhile (·.kind = .newline) := by
      rw [visible, if_pos (alike.bracketed.trans bracketed)]
    have moved : (tokens.map (Token.moved v.lines)).dropWhile (·.kind = .newline) =
        (visible scope tokens).map (Token.moved v.lines) := by
      rw [visible, if_pos bracketed]
      exact dropWhile_moved v.lines (· = .newline) tokens
    rw [seen, move, List.dropWhile_append, moved]
    cases shown : visible scope tokens with
    | cons token later => exact .inl ⟨token, later, rfl, rfl⟩
    | nil =>
      refine .inr ⟨rfl, ?_⟩
      by_cases more : v.behind = []
      · exact .inl (by simp [more])
      · exact .inr ⟨more, bracketed, by simp⟩
  · have plain (tokens : List Token) : visible scope tokens = tokens := if_neg bracketed
    have plain' (tokens : List Token) : visible scope' tokens = tokens :=
      if_neg (by rwa [alike.bracketed])
    rw [plain, plain']
    cases tokens with
    | nil => exact .inr ⟨rfl, .inl rfl⟩
    | cons token later => exact .inl ⟨token, later, rfl, rfl⟩

theorem follows_peek (alike : v.Alike scope scope') {f : Option Token → Rule α} {f' : Option Token → Rule β}
    (nothing : Agreement v scope g [] ((f none).run []) ((f' v.behind.head?).run v.behind))
    (next : ∀ token, FollowsAt v scope g token (f (some token)) (f' (some (token.moved v.lines)))) :
    Follows v scope g (peek scope >>= f) (peek scope' >>= f') := by
  intro tokens
  rw [run_bind_of_ok (run_peek scope tokens), run_bind_of_ok (run_peek scope' (v.move tokens))]
  rcases visible_move alike tokens with ⟨token, later, shown, shown'⟩ | ⟨shown, shown' | ended⟩
  · have part : token :: later ⊆ tokens := shown ▸ visible_subset scope tokens
    rw [shown, shown']
    exact (next token later).widen part
  · rw [shown, shown']
    exact nothing.widen (List.nil_subset tokens)
  · rw [shown]
    exact (nothing.of_exhausted fair ended _).widen (List.nil_subset tokens)

/-- A rule that needs a token fails for want of one in both readings, unless more tokens come behind. -/
theorem follows_next (alike : v.Alike scope scope') {f : Option Token → Rule α} {f' : Option Token → Rule β}
    {e : ParseError} (wants : f none = throw e)
    (wants' : v.excused e ∨ f' none = throw (e.moved v.lines))
    (next : ∀ token, FollowsAt v scope g token (f (some token)) (f' (some (token.moved v.lines)))) :
    Follows v scope g (peek scope >>= f) (peek scope' >>= f') := by
  refine follows_peek fair alike ?_ next
  rw [wants]
  by_cases more : v.behind = []
  · rcases wants' with excused | wants'
    · exact .excused excused _
    · rw [more, List.head?_nil, wants']
      exact .refused e
  · exact .excused (fair.lenient more e) _

omit fair in
theorem followsAt_peek {token : Token} (kind : token.kind ≠ .newline)
    {f : Option Token → Rule α} {f' : Option Token → Rule β}
    (next : FollowsAt v scope g token (f (some token)) (f' (some (token.moved v.lines)))) :
    FollowsAt v scope g token (peek scope >>= f) (peek scope' >>= f') := by
  intro later
  have shown : visible scope (token :: later) = token :: later := by simp [visible, kind]
  have shown' : visible scope' (v.move (token :: later)) = v.move (token :: later) := by
    simp [visible, Token.moved, kind]
  rw [run_bind_of_ok (run_peek scope _), run_bind_of_ok (run_peek scope' _), shown, shown']
  exact next later

/-- A rule that may also end where it looks, and then does not mind what comes behind. -/
theorem follows_peek_past (alike : v.Alike scope scope') {f : Option Token → Rule α}
    {f' : Option Token → Rule β} (past : ∀ token ∈ v.behind.head?, f' (some token) = f' none)
    (nothing : Follows v scope g (f none) (f' none))
    (next : ∀ token, FollowsAt v scope g token (f (some token)) (f' (some (token.moved v.lines)))) :
    Follows v scope g (peek scope >>= f) (peek scope' >>= f') := by
  refine follows_peek fair alike ?_ next
  have same : f' v.behind.head? = f' none := by
    cases isHead : v.behind.head? with
    | none => rfl
    | some token => exact past token isHead
  rw [same]
  exact nothing []

theorem follows_ifPeekIs (alike : v.Alike scope scope') {accept : TokenKind → Bool} {yes no : Rule α}
    {yes' no' : Rule β} (parted : v.behind = [] ∨ accept .newline = false)
    (follows : ∀ token, accept token.kind = true → FollowsAt v scope g token yes yes')
    (otherwise : Follows v scope g no no') :
    Follows v scope g (do if ← peekIs scope accept then yes else no)
      (do if ← peekIs scope' accept then yes' else no') := by
  have asPeek {ι : Type} (scope : Scope) (yes no : Rule ι) :
      (do if ← peekIs scope accept then yes else no : Rule ι) =
        peek scope >>= fun next => if next.any (accept ·.kind) then yes else no := by
    simp [peekIs]
  rw [asPeek, asPeek]
  refine follows_peek_past fair alike (fun token isHead => ?_) otherwise fun token => ?_
  · rcases parted with none | parted
    · simp [none] at isHead
    · simp [fair.parted token isHead, parted]
  · by_cases accepted : accept token.kind = true
    · simpa [accepted, Token.moved] using follows token accepted
    · simpa [accepted, Token.moved] using otherwise.at token

/-- Repetitions need not look at how many tokens come behind, since each item takes one. -/
theorem follows_many (alike : v.Alike scope scope') {accept : TokenKind → Bool} {item : Rule α}
    {item' : Rule β} (parted : accept .newline = false)
    (consumes : ∀ token, accept token.kind = true → TakesAt token item fun taken _ => taken ≠ [])
    (each : ∀ token, accept token.kind = true → FollowsAt v scope g token item item') :
    Follows v scope (List.map g) (many (peekIs scope accept) item) (many (peekIs scope' accept) item') := by
  have loop (budget : List Token) : Follows v scope (List.map g)
      (repeatWhile (peekIs scope accept) item budget) (repeatWhile (peekIs scope' accept) item' budget) := by
    induction budget with
    | nil => exact follows_pure rfl
    | cons _ budget ih =>
      refine follows_ifPeekIs fair alike (.inr parted) (fun token accepted => ?_) (follows_pure rfl)
      exact (each token accepted).bind fair fun first => ih.map fair fun others => rfl
  intro tokens
  have enough := run_repeatWhile_of_le scope consumes tokens tokens (v.move tokens) (Nat.le_refl _)
    (by simp [move])
  change Agreement v scope (List.map g) tokens
    ((repeatWhile (peekIs scope accept) item tokens).run tokens) _
  rw [enough]
  exact loop (v.move tokens) tokens

/-- A closing bracket is found in both readings or in neither, unless more tokens come behind. What has
been read then is read in whatever scope the brackets stand. -/
theorem follows_close (alike : v.Alike scope scope') (outer : Scope) (bracket : Bracket)
    (expected : Expectation) (line : Nat) :
    Follows v outer id (close scope bracket expected line) (close scope' bracket expected (line + v.lines)) := by
  intro tokens
  unfold close
  rw [run_bind_of_ok (run_peek scope tokens), run_bind_of_ok (run_peek scope' (v.move tokens))]
  rcases visible_move alike tokens with ⟨token, later, shown, shown'⟩ | ⟨shown, ended⟩
  · have part : later ⊆ tokens := fun other member =>
      visible_subset scope tokens (shown ▸ List.mem_cons_of_mem token member)
    rw [shown, shown']
    simp only [List.head?_cons, move_cons, Token.moved]
    split
    · exact .read () part
    · exact .refused (unexpected expected token)
  · rw [shown]
    by_cases more : v.behind = []
    · have shown' : visible scope' (v.move tokens) = [] := by
        rcases ended with same | ended
        · rw [same, more]
        · exact absurd more ended.more
      rw [shown']
      exact .refused ⟨.endOfInput (.closing bracket), line⟩
    · exact .excused (fair.lenient more _) _

/-- What is read up to a closing bracket. Where the first reading ends inside the brackets, it misses
the closing one. -/
theorem Follows.closed {x : Rule α} {x' : Rule β} (follows : Follows v scope g x x')
    (alike : v.Alike scope scope') (outer : Scope) (bracket : Bracket) (expected : Expectation) (line : Nat) :
    Follows v outer g (x >>= fun a => close scope bracket expected line >>= fun _ => pure a)
      (x' >>= fun b => close scope' bracket expected (line + v.lines) >>= fun _ => pure b) := by
  have closes (a : α) : Follows v outer g (close scope bracket expected line >>= fun _ => pure a)
      (close scope' bracket expected (line + v.lines) >>= fun _ => pure (g a)) :=
    (follows_close fair alike outer bracket expected line).bind fair fun _ => follows_pure rfl
  intro tokens
  rw [StateT.run_bind, StateT.run_bind]
  generalize x.run tokens = first, x'.run (v.move tokens) = second, follows tokens = agreement
  cases agreement with
  | @read a rest part => exact (closes a rest).widen part
  | @exhausted a rest part ended =>
    have hidden : visible scope rest = [] := by
      rw [visible, if_pos ended.bracketed]
      exact List.dropWhile_eq_nil_iff.mpr fun token member => by simp [ended.breaks token member]
    have missing : (close scope bracket expected line >>= fun _ => pure a : Rule α).run rest =
        .error ⟨.endOfInput (.closing bracket), line⟩ := by
      rw [close, bind_assoc, run_bind_of_ok (run_peek scope rest), hidden]
      rfl
    change Agreement v outer g tokens ((close scope bracket expected line >>= fun _ => pure a).run rest) _
    rw [missing]
    exact .excused (fair.lenient ended.more _) _
  | refused e => exact .refused e
  | excused excused => exact .excused excused _

theorem follows_nonempty (alike : v.Alike scope scope') (bracket : Bracket) {empty empty' : Token → ParseError}
    (same : ∀ token, empty' (token.moved v.lines) = (empty token).moved v.lines) (line : Nat) :
    Follows v scope id (nonempty scope bracket empty line) (nonempty scope' bracket empty' (line + v.lines)) := by
  refine follows_next fair alike rfl (.inr rfl) fun token => ?_
  dsimp only
  by_cases closes : token.kind = bracket.closingKind
  · rw [if_pos closes, if_pos (show (token.moved v.lines).kind = _ from closes)]
    exact (follows_throw (same token)).at token
  · rw [if_neg closes, if_neg (show ¬ (token.moved v.lines).kind = _ from closes)]
    exact (follows_pure rfl).at token

end Fair

theorem numberOf_moved (lines : Nat) (token : Token) :
    numberOf (token.moved lines) = (numberOf token).mapError (Located.moved lines) := by
  simp only [numberOf, Token.moved]
  split <;> rfl

theorem characterOf_moved (lines : Nat) (token : Token) :
    characterOf (token.moved lines) = (characterOf token).mapError (Located.moved lines) := by
  simp only [characterOf, Token.moved]
  split <;> rfl

theorem glyphFunction_moved (lines : Nat) (token : Token) :
    glyphFunction (token.moved lines) = (glyphFunction token).mapError (Located.moved lines) := by
  simp only [glyphFunction, meaning?, Token.moved]
  split <;> rfl

theorem glyphModifier_moved (lines : Nat) (token : Token) :
    glyphModifier (token.moved lines) = (glyphModifier token).mapError (Located.moved lines) := by
  simp only [glyphModifier, meaning?, Token.moved]
  split <;> rfl

end Rule

/-- The end of the input is reported at the last line of the second reading, or need not be. -/
theorem Variation.Alike.wants {v : Variation} {scope scope' : Scope} {α : Type} (alike : v.Alike scope scope')
    (expected : Expectation) : v.excused ⟨.endOfInput expected, scope.endLine⟩ ∨
      (throw ⟨.endOfInput expected, scope'.endLine⟩ : Rule α) =
        throw (Located.moved v.lines ⟨.endOfInput expected, scope.endLine⟩) := by
  rcases alike.ending with all | same
  · exact .inl (all _)
  · rw [same]
    exact .inr rfl

/-- The rules of a level do in the second reading what others do in the first. -/
structure Rules.Follow (v : Variation) (scope : Scope) (rules rules' : Rules) : Prop where
  primary : Rule.Follows v scope (Node.moved v.lines) rules.primary rules'.primary
  expression : Rule.Follows v scope (Node.moved v.lines) rules.expression rules'.expression
  statement : Rule.Follows v scope (Node.moved v.lines) rules.statement rules'.statement

/-- The way to the next level in: the first reading may be refused it for want of levels. -/
def Descent.Follows (v : Variation) (descend descend' : Descent) : Prop :=
  ∀ scope scope' line, v.Alike scope scope' →
    (∃ e, descend scope line = .error e ∧ v.excused e) ∨
      ∃ rules rules', descend scope line = .ok rules ∧ descend' scope' (line + v.lines) = .ok rules' ∧
        rules.Follow v scope rules'

namespace Rule

open Variation Grammar

variable {v : Variation} {scope scope' : Scope} (fair : v.Fair)

include fair

omit fair in
/-- Parentheses, with what is read up to the closing one as a rule of its own. -/
theorem parenthesized_eq (scope : Scope) (statement : Rule Node) (line : Nat) :
    parenthesized scope statement line =
      (do nonempty scope .paren (fun _ => ⟨.emptyParentheses, line⟩) line; statement) >>= fun node =>
        close scope .paren (.closing .paren) line >>= fun _ => pure node := by
  simp only [parenthesized, bind_assoc]

theorem follows_parenthesized (alike : v.Alike scope scope') (outer : Scope) {statement statement' : Rule Node}
    (inner : Follows v scope (Node.moved v.lines) statement statement') (line : Nat) :
    Follows v outer (Node.moved v.lines) (parenthesized scope statement line)
      (parenthesized scope' statement' (line + v.lines)) := by
  rw [parenthesized_eq, parenthesized_eq]
  refine Follows.closed fair ?_ alike outer .paren (.closing .paren) line
  exact (follows_nonempty fair alike .paren (fun _ => rfl) line).before fair inner

def listed (scope : Scope) (expression : Rule Node) (bracket : Bracket) (line : Nat) : Rule (List Node) := do
  nonempty scope bracket (fun _ => ⟨.emptyLiteral bracket, line⟩) line
  let first ← expression
  let others ← many (peekIs scope (· = .separator)) do
    advance
    nonempty scope bracket (fun token => ⟨.trailingSeparator, token.line⟩) line
    expression
  return first :: others

omit fair in
theorem elements_eq (scope : Scope) (expression : Rule Node) (bracket : Bracket) (line : Nat) :
    elements scope expression bracket line = listed scope expression bracket line >>= fun nodes =>
      close scope bracket (.separatorOr bracket) line >>= fun _ => pure nodes := by
  simp only [elements, listed, bind_assoc, pure_bind]

theorem follows_elements (alike : v.Alike scope scope') (outer : Scope) {expression expression' : Rule Node}
    {levels : Nat} (derives : expression.Takes (Expression levels))
    (inner : Follows v scope (Node.moved v.lines) expression expression') (bracket : Bracket) (line : Nat) :
    Follows v outer (List.map (Node.moved v.lines)) (elements scope expression bracket line)
      (elements scope' expression' bracket (line + v.lines)) := by
  rw [elements_eq, elements_eq]
  refine Follows.closed fair ?_ alike outer bracket (.separatorOr bracket) line
  refine (follows_nonempty fair alike bracket (fun _ => rfl) line).before fair ?_
  refine inner.bind fair fun first => ?_
  refine (follows_many (g := Node.moved v.lines) fair alike rfl (consumes_separated scope derives bracket line)
    fun token _ => followsAt_advance ?_).map fair fun others => rfl
  exact (follows_nonempty fair alike bracket (fun _ => rfl) line).before fair inner

theorem follows_monadicModifier (token : Token)
    (isMark : decide (token.kind = .monadicModifier) = true) :
    FollowsAt v scope (Prod.map id (· + v.lines)) token (monadicModifier scope) (monadicModifier scope') := by
  have kind : token.kind = .monadicModifier := of_decide_eq_true isMark
  refine followsAt_peek (by simp [kind]) (followsAt_advance ?_)
  exact (follows_lift (glyphModifier_moved v.lines token)).map fair fun _ => rfl

omit fair in
theorem foldl_modified_moved (lines : Nat) (operand : Node) (modifiers : List (Modifier × Nat)) :
    (modifiers.map (Prod.map id (· + lines))).foldl
        (fun node (modifier, line) => .modified modifier node line) (operand.moved lines) =
      (modifiers.foldl (fun node (modifier, line) => .modified modifier node line) operand).moved lines := by
  induction modifiers generalizing operand with
  | nil => rfl
  | cons item modifiers ih => exact ih (.modified item.1 operand item.2)

section Level

variable {descend descend' : Descent} {levels : Nat}
  (derives : ∀ scope line rules, descend scope line = .ok rules →
    ∃ inner, levels = inner + 1 ∧ rules.Derives inner)
  (deeper : descend.Follows v descend')

include deeper

omit fair in
theorem follows_descend {α β : Type} {g : α → β} (alike : v.Alike scope scope') (line : Nat)
    (outer : Scope) {f : Rules → Rule α} {f' : Rules → Rule β}
    (inner : ∀ rules rules', descend scope line = .ok rules → rules.Follow v scope rules' →
      Follows v outer g (f rules) (f' rules')) :
    Follows v outer g ((liftM (descend scope line) : Rule Rules) >>= f)
      ((liftM (descend' scope' (line + v.lines)) : Rule Rules) >>= f') := by
  rcases deeper scope scope' line alike with ⟨e, refused, excused⟩ | ⟨rules, rules', first, second, follow⟩
  · rw [refused]
    exact fun tokens => .excused excused _
  · rw [first, second]
    exact inner rules rules' first follow

include derives

theorem follows_primary (alike : v.Alike scope scope') :
    Follows v scope (Node.moved v.lines) (primary descend scope) (primary descend' scope') := by
  refine follows_next fair alike rfl (alike.wants .expression) fun token => followsAt_advance ?_
  dsimp only [Token.moved]
  have inside := alike.insideBrackets
  cases kind : token.kind with
  | number => exact (follows_lift (numberOf_moved v.lines token)).map fair fun _ => rfl
  | string => exact follows_pure rfl
  | character => exact (follows_lift (characterOf_moved v.lines token)).map fair fun _ => rfl
  | identifier => exact follows_pure rfl
  | monadicFunction | dyadicFunction =>
    exact (follows_lift (glyphFunction_moved v.lines token)).map fair fun _ => rfl
  | openParen =>
    refine follows_descend deeper inside token.line scope fun rules rules' _ follow => ?_
    exact follows_parenthesized fair inside scope follow.statement token.line
  | openArray =>
    refine follows_descend deeper inside token.line scope fun rules rules' descends follow => ?_
    obtain ⟨inner, -, derives⟩ := derives _ _ _ descends
    exact (follows_elements fair inside scope derives.expression follow.expression .array token.line).map fair
      fun nodes => by rw [Node.moved, Node.movedAll_eq]
  | openList =>
    refine follows_descend deeper inside token.line scope fun rules rules' descends follow => ?_
    obtain ⟨inner, -, derives⟩ := derives _ _ _ descends
    exact (follows_elements fair inside scope derives.expression follow.expression .list token.line).map fair
      fun nodes => by rw [Node.moved, Node.movedAll_eq]
  | _ => exact follows_throw rfl

theorem follows_modified (alike : v.Alike scope scope') :
    Follows v scope (Node.moved v.lines) (modified descend scope) (modified descend' scope') := by
  refine (follows_primary fair derives deeper alike).bind fair fun operand => ?_
  refine (follows_many fair alike rfl (consumes_monadicModifier scope)
    fun token isMark => follows_monadicModifier fair token isMark).bind fair fun modifiers => ?_
  dsimp only
  rw [foldl_modified_moved]
  generalize modifiers.foldl (fun node (modifier, line) => .modified modifier node line) operand = left
  refine follows_peek_past fair alike (fun token isHead => ?_) (follows_pure rfl) fun token => ?_
  · simp [fair.parted token isHead]
  · dsimp only [Token.moved]
    split
    · refine followsAt_advance ?_
      refine (follows_lift (glyphModifier_moved v.lines token)).bind fair fun modifier => ?_
      refine follows_ifPeekIs fair alike (.inr rfl) (fun next _ => Follows.at ?_ next) (follows_throw rfl)
      refine follows_descend deeper alike token.line scope fun rules rules' _ follow => ?_
      exact follow.primary.map fair fun right => rfl
    · exact (follows_pure rfl).at token

theorem follows_strandElement (alike : v.Alike scope scope') (token : Token)
    (isMark : decide (token.kind = .ligature) = true) :
    FollowsAt v scope (Node.moved v.lines) token (strandElement descend scope)
      (strandElement descend' scope') := by
  have kind : token.kind = .ligature := of_decide_eq_true isMark
  refine followsAt_peek (by simp [kind]) (followsAt_advance ?_)
  refine follows_next fair alike rfl (.inr rfl) fun next => ?_
  dsimp only [Token.moved]
  split
  · exact (follows_modified fair derives deeper alike).at next
  · exact (follows_throw rfl).at next

theorem follows_strand (alike : v.Alike scope scope') :
    Follows v scope (Node.moved v.lines) (strand descend scope) (strand descend' scope') := by
  refine follows_next fair alike rfl (alike.wants .expression) fun token => ?_
  dsimp only [Token.moved]
  split
  · refine Follows.at ?_ token
    refine (follows_modified fair derives deeper alike).bind fair fun first => ?_
    refine (follows_many fair alike rfl (consumes_strandElement derives scope)
      fun token isMark => follows_strandElement fair derives deeper alike token isMark).bind fair
      fun others => ?_
    cases others with
    | nil => exact follows_pure rfl
    | cons second others => exact follows_pure (by simp [Node.moved, Node.movedAll_eq, Node.line_moved])
  · exact (follows_throw rfl).at token

theorem follows_expression (alike : v.Alike scope scope') :
    Follows v scope (Node.moved v.lines) (expression descend scope) (expression descend' scope') := by
  have first := follows_strand fair derives deeper alike
  refine first.bind fair fun begins => ?_
  refine (follows_many fair alike rfl (fun token _ => (consumes_strand derives scope).at token)
    fun token _ => first.at token).bind fair fun others => ?_
  cases others with
  | nil => exact follows_pure rfl
  | cons second others => exact follows_pure (by simp [Node.moved, Node.movedAll_eq, Node.line_moved])

omit derives in
theorem follows_bindingValue (alike : v.Alike scope scope') (name : Token) (arity : Option Arity) :
    Follows v scope (Node.moved v.lines) (bindingValue descend scope name arity)
      (bindingValue descend' scope' (name.moved v.lines) arity) := by
  refine follows_next fair alike rfl (.inr rfl) fun token => Follows.at ?_ token
  refine follows_descend deeper alike name.line scope fun rules rules' _ follow => ?_
  exact follow.statement.map fair fun value => rfl

omit deeper in
/-- A name behind which the first reading ends, inside brackets, is all that it still reads. -/
theorem agreement_expression_of_exhausted {name : Token} {later : List Token}
    (ended : v.Exhausted scope later) (second : Except ParseError (Node × List Token)) :
    Agreement v scope (Node.moved v.lines) (name :: later)
      ((expression descend scope).run (name :: later)) second := by
  cases ran : (expression descend scope).run (name :: later) with
  | error e => exact .excused (fair.lenient ended.more e) second
  | ok result =>
    obtain ⟨taken, split, derived⟩ := takes_expression derives scope _ _ _ ran
    obtain ⟨token, others, isTaken, -⟩ := derived.starts
    cases taken with
    | nil => simp at isTaken
    | cons first taken =>
      have behind : result.2 ⊆ later := by
        rw [(List.cons.inj split).2]
        exact List.subset_append_right taken result.2
      exact .exhausted result.1 (List.subset_cons_of_subset name behind) (ended.of_subset behind) second

theorem follows_statement (alike : v.Alike scope scope') :
    Follows v scope (Node.moved v.lines) (statement descend scope) (statement descend' scope') := by
  have plain := follows_expression fair derives deeper alike
  refine follows_peek_past fair alike (fun token isHead => ?_) plain fun name => ?_
  · simp [fair.parted token isHead]
  · dsimp only [Token.moved]
    split
    · intro later
      change Agreement v scope (Node.moved v.lines) (name :: later)
        ((afterName descend scope name (markerAfterName? scope later)).run (name :: later))
        ((afterName descend' scope' (name.moved v.lines) (markerAfterName? scope' (v.move later))).run
          (v.move (name :: later)))
      rw [markerAfterName?_eq, markerAfterName?_eq]
      rcases visible_move alike later with ⟨marker, behind, shown, shown'⟩ | ⟨shown, shown' | ended⟩
      · rw [shown, shown']
        simp only [List.head?_cons, move_cons, Option.bind_some, Token.moved]
        cases marker? marker.kind with
        | none => exact plain (name :: later)
        | some arity =>
          cases later with
          | nil => simp [visible] at shown
          | cons next later =>
            refine (follows_bindingValue fair deeper alike name arity later).widen ?_
            exact List.subset_cons_of_subset name (List.subset_cons_self next later)
      · have unmarked : v.behind.head?.bind (marker? ·.kind) = none := by
          cases isHead : v.behind.head? with
          | none => rfl
          | some token => simp [fair.parted token isHead, marker?]
        rw [shown, shown', unmarked]
        exact plain (name :: later)
      · rw [shown]
        refine agreement_expression_of_exhausted fair derives ⟨ended.more, ended.bracketed, ?_⟩ _
        rw [visible, if_pos ended.bracketed, List.dropWhile_eq_nil_iff] at shown
        simpa using shown
    · exact plain.at name

/-- Where nothing comes behind, whole programs are read alike. -/
theorem follows_program (alike : v.Alike scope scope') (nothing : v.behind = []) :
    Follows v scope (List.map (Node.moved v.lines)) (program descend scope) (program descend' scope') := by
  have skip : Follows v scope id (modify (List.dropWhile (isBreak ·.kind)) : Rule Unit)
      (modify (List.dropWhile (isBreak ·.kind))) := by
    intro tokens
    have moved : (v.move tokens).dropWhile (isBreak ·.kind) = v.move (tokens.dropWhile (isBreak ·.kind)) := by
      simpa [move, nothing] using dropWhile_moved v.lines isBreak tokens
    change Agreement v scope id tokens (.ok ((), tokens.dropWhile (isBreak ·.kind)))
      (.ok ((), (v.move tokens).dropWhile (isBreak ·.kind)))
    rw [moved]
    exact .read () (List.dropWhile_subset _)
  have loop (budget : List Token) : Follows v scope (List.map (Node.moved v.lines))
      (statements descend scope budget) (statements descend' scope' budget) := by
    induction budget with
    | nil => exact follows_pure rfl
    | cons _ budget ih =>
      refine skip.before fair ?_
      refine follows_ifPeekIs fair alike (.inl nothing) (fun token _ => Follows.at ?_ token) (follows_pure rfl)
      refine (follows_statement fair derives deeper alike).bind fair fun first => ?_
      refine follows_ifPeekIs fair alike (.inl nothing) (fun token _ => Follows.at ?_ token) (follows_pure rfl)
      exact ih.map fair fun others => rfl
  intro tokens
  have enough := run_statements_of_le (consumes_statement derives scope) tokens tokens (v.move tokens)
    (Nat.le_refl _) (by simp [move])
  change Agreement v scope (List.map (Node.moved v.lines)) tokens
    ((statements descend scope tokens).run tokens) _
  rw [enough]
  exact loop (v.move tokens) tokens

end Level

end Rule

section Levels

variable {v : Variation} (fair : v.Fair)

include fair

theorem Rules.follow_layer {scope scope' : Scope} {descend descend' : Descent} {levels : Nat}
    (derives : ∀ scope line rules, descend scope line = .ok rules →
      ∃ inner, levels = inner + 1 ∧ rules.Derives inner)
    (deeper : descend.Follows v descend') (alike : v.Alike scope scope') :
    (layer descend scope).Follow v scope (layer descend' scope') where
  primary := Rule.follows_primary fair derives deeper alike
  expression := Rule.follows_expression fair derives deeper alike
  statement := Rule.follows_statement fair derives deeper alike

/-- The second reading may have more levels left. -/
theorem Rules.follows_below {levels levels' : Nat} (fewer : levels ≤ levels') :
    Descent.Follows v (below levels) (below levels') := by
  induction levels generalizing levels' with
  | zero => exact fun scope scope' line alike => .inl ⟨_, rfl, alike.deep line⟩
  | succ levels ih =>
    obtain ⟨levels', rfl⟩ := Nat.exists_eq_add_of_lt fewer
    refine fun scope scope' line alike => .inr ⟨_, _, rfl, rfl, ?_⟩
    rw [withLevels_eq_layer, withLevels_eq_layer]
    exact follow_layer fair (derives_below levels) (ih (by omega)) alike

end Levels

theorem Token.moved_zero (token : Token) : token.moved 0 = token := rfl

theorem Variation.move_of_lines_eq_zero {v : Variation} (still : v.lines = 0) (tokens : List Token) :
    v.move tokens = tokens ++ v.behind := by
  rw [move, still, List.map_id'' Token.moved_zero tokens]

mutual

theorem Node.moved_zero (node : Node) : node.moved 0 = node := by
  cases node with
  | number | string | character | reference | glyph => rfl
  | modified _ operand => rw [moved, operand.moved_zero, Nat.add_zero]
  | combined _ left right => rw [moved, left.moved_zero, right.moved_zero, Nat.add_zero]
  | binding _ _ value => rw [moved, value.moved_zero, Nat.add_zero]
  | train nodes | strand nodes | array nodes | list nodes => rw [moved, movedAll_zero nodes, Nat.add_zero]

theorem Node.movedAll_zero (nodes : List Node) : movedAll 0 nodes = nodes := by
  cases nodes with
  | nil => rfl
  | cons node nodes => rw [movedAll, node.moved_zero, movedAll_zero nodes]

end

/-- A limit on the nesting only ever refuses: under a lower one, a program is refused for its nesting or
read as under a higher one. -/
theorem parse_of_limit_le {limit limit' : Nat} (lower : limit ≤ limit') (tokens : List Token) :
    (∃ line, parse limit tokens = .error ⟨.nestingTooDeep limit, line⟩) ∨
      parse limit tokens = parse limit' tokens := by
  let v : Variation := ⟨0, [], fun e => e.cause = .nestingTooDeep limit⟩
  have fair : v.Fair := ⟨by simp [v], by simp [v]⟩
  have sameNodes (nodes : List Node) : nodes.map (Node.moved v.lines) = nodes :=
    List.map_id'' Node.moved_zero nodes
  rw [parse_eq, parse_eq]
  generalize (tokens.getLast?.map Token.line).getD 1 = endLine
  have alike : v.Alike (Scope.outermost limit endLine) (Scope.outermost limit' endLine) :=
    ⟨rfl, .inr rfl, fun _ => rfl⟩
  have agreement := Rule.follows_program fair (Rules.derives_below limit) (Rules.follows_below fair lower)
    alike rfl (significant tokens)
  rw [v.move_of_lines_eq_zero rfl, List.append_nil] at agreement
  generalize (Rule.program (Rules.below limit) _).run _ = first at agreement ⊢
  generalize (Rule.program (Rules.below limit') _).run _ = second at agreement ⊢
  cases agreement with
  | read nodes => exact .inr (by rw [sameNodes]; rfl)
  | exhausted nodes part ended => exact absurd rfl ended.more
  | refused e => exact .inr rfl
  | @excused e excused => exact .inl ⟨e.line, by rw [← excused]; rfl⟩

theorem parse_of_two_levels :
    let tokens : List Token := [⟨.openParen, "(", 1⟩, ⟨.openArray, "[", 1⟩, ⟨.identifier, "A", 1⟩,
      ⟨.closeArray, "]", 2⟩, ⟨.closeParen, ")", 2⟩]
    (∃ line, parse 1 tokens = .error ⟨.nestingTooDeep 1, line⟩) ∧ parse 2 tokens = parse 3 tokens := by
  dsimp only
  generalize isTokens : [_, _, _, _, _] = tokens
  have refused : parse 1 tokens = .error ⟨.nestingTooDeep 1, 1⟩ := by rw [← isTokens]; rfl
  have read : parse 2 tokens = .ok [.array [.reference "A" 1] 1] := by rw [← isTokens]; rfl
  constructor
  · apply (@parse_of_limit_le 1 2 (by omega) tokens).resolve_right
    rw [refused, read]
    nofun
  · apply (@parse_of_limit_le 2 3 (by omega) tokens).resolve_left
    rw [read]
    rintro ⟨line, ⟨⟩⟩

end Tacit
