import Tacit.Proofs.Derivations

/-! Breaks between lines. Inside brackets a break carries no meaning, with one exception: a break
between a name and its marker, which the rules look past without taking it. Two readings are
compared, of tokens with a break and of the same tokens without it. As long as the break is ahead
both are in step, and outside all brackets it cannot be reached, since a bracket before it is still
to be closed. -/
namespace Tacit

namespace Bracket

def openingKind : Bracket → TokenKind
  | paren => .openParen
  | array => .openArray
  | list => .openList

/-- What a token adds to the number of open brackets of a kind. -/
def weight (bracket : Bracket) (token : Token) : Int :=
  if token.kind = bracket.openingKind then 1
  else if token.kind = bracket.closingKind then -1
  else 0

/-- How many more brackets of a kind are opened than closed. -/
def surplus (bracket : Bracket) : List Token → Int
  | [] => 0
  | token :: tokens => bracket.weight token + bracket.surplus tokens

/-- As many brackets of a kind are closed as are opened, and at no point more. -/
structure Balanced (bracket : Bracket) (tokens : List Token) : Prop where
  total : bracket.surplus tokens = 0
  always : ∀ n, 0 ≤ bracket.surplus (tokens.take n)

@[simp] theorem surplus_nil (bracket : Bracket) : bracket.surplus [] = 0 := rfl

@[simp] theorem surplus_cons (bracket : Bracket) (token : Token) (tokens : List Token) :
    bracket.surplus (token :: tokens) = bracket.weight token + bracket.surplus tokens := rfl

@[simp] theorem surplus_append (bracket : Bracket) (first second : List Token) :
    bracket.surplus (first ++ second) = bracket.surplus first + bracket.surplus second := by
  induction first with
  | nil => simp
  | cons token first ih => rw [List.cons_append, surplus_cons, surplus_cons, ih, Int.add_assoc]

theorem weight_of_opening {bracket : Bracket} {token : Token}
    (opens : token.kind = bracket.openingKind) (other : Bracket) :
    other.weight token = if other = bracket then 1 else 0 := by
  cases bracket <;> cases other <;> simp [weight, opens, openingKind, closingKind]

theorem weight_of_closing {bracket : Bracket} {token : Token}
    (closes : token.kind = bracket.closingKind) (other : Bracket) :
    other.weight token = if other = bracket then -1 else 0 := by
  cases bracket <;> cases other <;> simp [weight, closes, openingKind, closingKind]

end Bracket

def Balanced (tokens : List Token) : Prop := ∀ bracket : Bracket, bracket.Balanced tokens

/-- Behind a bracket that is open already, brackets are balanced. -/
def Closing (bracket : Bracket) (tokens : List Token) : Prop :=
  ∀ opening : Token, opening.kind = bracket.openingKind → Balanced (opening :: tokens)

def Token.Neutral (token : Token) : Prop := ∀ bracket : Bracket, bracket.weight token = 0

theorem balanced_nil : Balanced [] := fun bracket => ⟨rfl, fun n => by simp⟩

theorem Balanced.append {first second : List Token} (balanced : Balanced first)
    (later : Balanced second) : Balanced (first ++ second) := by
  intro bracket
  refine ⟨by simp [(balanced bracket).total, (later bracket).total], fun n => ?_⟩
  have start := (balanced bracket).always n
  have finish := (later bracket).always (n - first.length)
  rw [List.take_append, Bracket.surplus_append]
  omega

/-- What is balanced may stand in front of what closes a bracket. -/
theorem Closing.append {bracket : Bracket} {first second : List Token} (balanced : Balanced first)
    (closing : Closing bracket second) : Closing bracket (first ++ second) := by
  intro opening opens other
  have before := balanced other
  have behind := closing opening opens other
  have weight := Bracket.weight_of_opening opens other
  constructor
  · have total := behind.total
    rw [Bracket.surplus_cons] at total
    simp [before.total, total]
  · intro n
    cases n with
    | zero => simp
    | succ n =>
      have start := before.always n
      have finish := behind.always (n - first.length + 1)
      rw [List.take_succ_cons, Bracket.surplus_cons] at finish ⊢
      rw [List.take_append, Bracket.surplus_append]
      by_cases short : n ≤ first.length
      · have none : n - first.length = 0 := by omega
        have positive : 0 ≤ other.weight opening := by rw [weight]; split <;> omega
        simp only [none, List.take_zero, Bracket.surplus_nil]
        omega
      · rw [List.take_of_length_le (by omega), before.total]
        omega

theorem balanced_singleton {token : Token} (neutral : token.Neutral) : Balanced [token] := by
  intro bracket
  refine ⟨by simp [neutral bracket], fun n => ?_⟩
  cases n <;> simp [neutral bracket]

theorem closing_singleton {bracket : Bracket} {token : Token}
    (closes : token.kind = bracket.closingKind) : Closing bracket [token] := by
  intro opening opens other
  have first := Bracket.weight_of_opening opens other
  have second := Bracket.weight_of_closing closes other
  constructor
  · simp only [Bracket.surplus_cons, Bracket.surplus_nil, first, second]
    split <;> rfl
  · intro n
    rcases n with _ | _ | n
    · exact Int.le_refl 0
    all_goals
      simp only [List.take_zero, List.take_succ_cons, List.take_nil, Bracket.surplus_cons,
        Bracket.surplus_nil, first, second]
      split <;> omega

def TokenKind.isBracket : TokenKind → Bool
  | .openParen | .closeParen | .openArray | .closeArray | .openList | .closeList => true
  | _ => false

/-- Only brackets have a weight. -/
theorem Token.neutral_of_kind {token : Token} {kind : TokenKind} (isKind : token.kind = kind)
    (plain : kind.isBracket = false) : token.Neutral := by
  intro bracket
  cases bracket <;> cases kind <;>
    simp_all [Bracket.weight, Bracket.openingKind, Bracket.closingKind, TokenKind.isBracket]

theorem balanced_of_neutral {tokens : List Token} (neutral : ∀ token ∈ tokens, token.Neutral) :
    Balanced tokens := by
  induction tokens with
  | nil => exact balanced_nil
  | cons token tokens ih =>
    obtain ⟨first, others⟩ := List.forall_mem_cons.mp neutral
    exact (balanced_singleton first).append (ih others)

/-- Some bracket is opened and not closed again. -/
def Pending (tokens : List Token) : Prop :=
  ∃ (bracket : Bracket) (outer inside : List Token) (opening : Token),
    tokens = outer ++ opening :: inside ∧ opening.kind = bracket.openingKind ∧
      ∀ n, 0 ≤ bracket.surplus (inside.take n)

theorem Pending.ne_nil {tokens : List Token} (pending : Pending tokens) : tokens ≠ [] := by
  obtain ⟨bracket, outer, inside, opening, rfl, -⟩ := pending
  simp

/-- What is balanced leaves open brackets open. -/
theorem Pending.of_append {first second : List Token} (pending : Pending (first ++ second))
    (balanced : Balanced first) : Pending second := by
  obtain ⟨bracket, outer, inside, opening, split, opens, open'⟩ := pending
  rcases List.append_eq_append_iff.mp split with ⟨gap, rfl, isSecond⟩ | ⟨gap, rfl, isInside⟩
  · exact ⟨bracket, gap, inside, opening, isSecond, opens, open'⟩
  · cases gap with
    | nil => exact ⟨bracket, [], inside, opening, by simpa using isInside.symm, opens, open'⟩
    | cons token gap =>
      obtain ⟨rfl, rfl⟩ := List.cons.inj isInside
      have weight := Bracket.weight_of_opening opens bracket
      have total := (balanced bracket).total
      have start := (balanced bracket).always outer.length
      have finish := open' gap.length
      rw [if_pos rfl] at weight
      simp only [List.take_left', Bracket.surplus_append, Bracket.surplus_cons] at total start
      change 0 ≤ bracket.surplus ((gap ++ second).take gap.length) at finish
      rw [List.take_left' rfl] at finish
      omega

/-- Where a break between lines may stand ahead without being seen: inside brackets, or where a bracket
before it is still to be closed. -/
def Hidden (scope : Scope) (ahead : List Token) : Prop := scope.bracketed = true ∨ Pending ahead

theorem Hidden.of_append {scope : Scope} {first second : List Token}
    (hidden : Hidden scope (first ++ second)) (balanced : Balanced first) : Hidden scope second :=
  hidden.imp_right fun pending => pending.of_append balanced

namespace Rule

variable {α β : Type}

theorem length_visible_le (scope : Scope) (tokens : List Token) :
    (visible scope tokens).length ≤ tokens.length := by
  unfold visible
  split
  · exact List.length_dropWhile_le _ tokens
  · exact Nat.le_refl _

theorem run_repeatWhile_nil (scope : Scope) (accept : TokenKind → Bool) (item : Rule α)
    (budget : List Token) : (repeatWhile (peekIs scope accept) item budget).run [] = .ok ([], []) := by
  cases budget with
  | nil => rfl
  | cons _ budget =>
    have nothing : visible scope [] = [] := by simp [visible]
    rw [repeatWhile, run_bind_of_ok (run_peekIs scope accept []), nothing]
    rfl

/-- A repetition in which every item takes a token needs no larger budget than there are tokens. -/
theorem run_repeatWhile_of_le (scope : Scope) {accept : TokenKind → Bool} {item : Rule α}
    (consumes : ∀ token, accept token.kind = true → TakesAt token item fun taken _ => taken ≠ [])
    (tokens small large : List Token) (enough : tokens.length ≤ small.length)
    (more : tokens.length ≤ large.length) :
    (repeatWhile (peekIs scope accept) item small).run tokens =
      (repeatWhile (peekIs scope accept) item large).run tokens := by
  induction small generalizing tokens large with
  | nil =>
    rw [List.eq_nil_of_length_eq_zero (Nat.le_zero.mp enough), run_repeatWhile_nil, run_repeatWhile_nil]
  | cons _ small ih =>
    cases large with
    | nil =>
      rw [List.eq_nil_of_length_eq_zero (Nat.le_zero.mp more), run_repeatWhile_nil, run_repeatWhile_nil]
    | cons _ large =>
      have seen := length_visible_le scope tokens
      rw [repeatWhile, repeatWhile, run_bind_of_ok (run_peekIs scope accept tokens),
        run_bind_of_ok (run_peekIs scope accept tokens)]
      by_cases follows : (visible scope tokens).head?.any (accept ·.kind) = true
      · rw [if_pos follows, if_pos follows]
        cases shown : visible scope tokens with
        | nil => simp [shown] at follows
        | cons token later =>
          have accepted : accept token.kind = true := by simpa [shown] using follows
          cases ran : item.run (token :: later) with
          | error e => rw [StateT.run_bind, StateT.run_bind, ran]; rfl
          | ok result =>
            have shorter := (consumes token accepted).shortens ran
            rw [run_bind_of_ok ran, run_bind_of_ok ran, StateT.run_bind, StateT.run_bind,
              ih result.2 large (by simp_all; omega) (by simp_all; omega)]
      · rw [if_neg follows, if_neg follows]

theorem run_statements_nil (descend : Descent) (scope : Scope) (budget : List Token) :
    (statements descend scope budget).run [] = .ok ([], []) := by
  cases budget with
  | nil => rfl
  | cons _ budget =>
    have nothing : visible scope [] = [] := by simp [visible]
    have stop := run_peekIs scope beginsPrimary []
    rw [nothing] at stop
    change (do if ← peekIs scope beginsPrimary then _ else pure [] : Rule (List Node)).run [] = _
    rw [run_bind_of_ok stop]
    rfl

/-- Statements need no larger budget than there are tokens. -/
theorem run_statements_of_le {descend : Descent} {scope : Scope}
    (consumes : (statement descend scope).Takes fun taken _ => taken ≠ [])
    (tokens small large : List Token) (enough : tokens.length ≤ small.length)
    (more : tokens.length ≤ large.length) :
    (statements descend scope small).run tokens = (statements descend scope large).run tokens := by
  induction small generalizing tokens large with
  | nil =>
    rw [List.eq_nil_of_length_eq_zero (Nat.le_zero.mp enough), run_statements_nil, run_statements_nil]
  | cons _ small ih =>
    cases large with
    | nil =>
      rw [List.eq_nil_of_length_eq_zero (Nat.le_zero.mp more), run_statements_nil, run_statements_nil]
    | cons _ large =>
      have dropped := List.length_dropWhile_le (isBreak ·.kind) tokens
      have skip : (modify (List.dropWhile (isBreak ·.kind)) : Rule Unit).run tokens =
        .ok ((), tokens.dropWhile (isBreak ·.kind)) := rfl
      generalize tokens.dropWhile (isBreak ·.kind) = rest at dropped skip
      have seen := length_visible_le scope rest
      rw [statements, statements, run_bind_of_ok skip, run_bind_of_ok skip,
        run_bind_of_ok (run_peekIs scope beginsPrimary rest), run_bind_of_ok (run_peekIs scope beginsPrimary rest)]
      split
      · cases ran : (statement descend scope).run (visible scope rest) with
        | error e => rw [StateT.run_bind, StateT.run_bind, ran]; rfl
        | ok result =>
          have shorter := consumes.shortens ran
          have left := length_visible_le scope result.2
          rw [run_bind_of_ok ran, run_bind_of_ok ran, run_bind_of_ok (run_peekIs scope isBreak result.2),
            run_bind_of_ok (run_peekIs scope isBreak result.2)]
          split
          · rw [StateT.run_bind, StateT.run_bind,
              ih (visible scope result.2) large (by simp_all; omega) (by simp_all; omega)]
          · rfl
      · rfl

variable (newline : Token) (after : List Token)

/-- How two readings end of which one has a break ahead that the other lacks. -/
inductive Outcome (Takes : List Token → Prop) (ahead : List Token) :
    Except ParseError (α × List Token) → Except ParseError (α × List Token) → Prop
  | same (result : Except ParseError (α × List Token)) : Outcome Takes ahead result result
  | inStep (a : α) {taken left : List Token} (split : ahead = taken ++ left) (takes : Takes taken) :
      Outcome Takes ahead (.ok (a, left ++ newline :: after)) (.ok (a, left ++ after))
  | misled {name marker : Token} {arity : Option Arity} (isLast : ahead.getLast? = some name)
      (named : name.kind = .identifier) (isNext : after.head? = some marker)
      (marked : marker.kind = .binding arity) (result : Except ParseError (α × List Token)) :
      Outcome Takes ahead (.error (unexpected .expression marker)) result

/-- A break ahead makes no difference to a rule, unless the rule is misled by it. -/
def Indifferent (scope : Scope) (Takes : List Token → Prop) (rule : Rule α) : Prop :=
  ∀ ahead, Hidden scope ahead →
    Outcome newline after Takes ahead (rule.run (ahead ++ newline :: after)) (rule.run (ahead ++ after))

def IndifferentAt (token : Token) (scope : Scope) (Takes : List Token → Prop) (rule : Rule α) : Prop :=
  ∀ ahead, Hidden scope (token :: ahead) →
    Outcome newline after Takes (token :: ahead) (rule.run (token :: ahead ++ newline :: after))
      (rule.run (token :: ahead ++ after))

variable {newline after} {scope : Scope} {Takes : List Token → Prop}

theorem Indifferent.at {rule : Rule α} (indifferent : rule.Indifferent newline after scope Takes)
    (token : Token) : rule.IndifferentAt newline after token scope Takes :=
  fun ahead hidden => indifferent (token :: ahead) hidden

theorem getLast?_append_of_eq_some {first second : List Token} {token : Token}
    (isLast : second.getLast? = some token) : (first ++ second).getLast? = some token := by
  simp [List.getLast?_append, isLast]

/-- Tokens taken before a comparison begins belong to what is taken in all. -/
theorem Outcome.prepend {Takes' : List Token → Prop} {ahead : List Token} (first : List Token)
    {left right : Except ParseError (α × List Token)}
    (outcome : Outcome newline after Takes ahead left right)
    (joins : ∀ taken, Takes taken → Takes' (first ++ taken)) :
    Outcome newline after Takes' (first ++ ahead) left right := by
  cases outcome with
  | same => exact .same _
  | inStep a split takes => exact .inStep a (by simp [split]) (joins _ takes)
  | misled isLast named isNext marked =>
    exact .misled (getLast?_append_of_eq_some isLast) named isNext marked _

theorem indifferent_pure (a : α) : Indifferent newline after scope Balanced (pure a) :=
  fun ahead _ => .inStep a (List.nil_append ahead).symm balanced_nil

theorem indifferent_throw (e : ParseError) :
    Indifferent newline after scope Takes (throw e : Rule α) :=
  fun _ _ => .same _

theorem indifferent_lift (x : Except ParseError α) :
    Indifferent newline after scope Balanced (liftM x : Rule α) := by
  cases x with
  | error e => exact indifferent_throw e
  | ok a => exact indifferent_pure a

/-- A refusal that needs no tokens is the same in both readings. -/
theorem indifferent_lift_bind {x : Except ParseError α} {f : α → Rule β}
    (second : ∀ a, x = .ok a → (f a).Indifferent newline after scope Takes) :
    ((liftM x : Rule α) >>= f).Indifferent newline after scope Takes := by
  cases x with
  | error e => exact fun ahead _ => .same _
  | ok a => exact second a rfl

theorem Outcome.bind {x y : Except ParseError (α × List Token)} {f : α → Rule β} {ahead : List Token}
    (first : Outcome newline after Balanced ahead x y) (hidden : Hidden scope ahead)
    (second : ∀ a, (f a).Indifferent newline after scope Takes)
    (joins : ∀ {taken later}, Balanced taken → Takes later → Takes (taken ++ later)) :
    Outcome newline after Takes ahead (x >>= fun p => (f p.1).run p.2) (y >>= fun p => (f p.1).run p.2) := by
  cases first with
  | same => exact .same _
  | inStep a split takes =>
    subst split
    exact (second a _ (hidden.of_append takes)).prepend _ fun later => joins takes
  | misled isLast named isNext marked => exact .misled isLast named isNext marked _

theorem Indifferent.bind {x : Rule α} {f : α → Rule β}
    (first : x.Indifferent newline after scope Balanced)
    (second : ∀ a, (f a).Indifferent newline after scope Takes)
    (joins : ∀ {taken later}, Balanced taken → Takes later → Takes (taken ++ later)) :
    (x >>= f).Indifferent newline after scope Takes :=
  fun ahead hidden => (first ahead hidden).bind hidden second joins

theorem IndifferentAt.bind {x : Rule α} {f : α → Rule β} {token : Token}
    (first : x.IndifferentAt newline after token scope Balanced)
    (second : ∀ a, (f a).Indifferent newline after scope Takes)
    (joins : ∀ {taken later}, Balanced taken → Takes later → Takes (taken ++ later)) :
    (x >>= f).IndifferentAt newline after token scope Takes :=
  fun ahead hidden => (first ahead hidden).bind hidden second joins

/-- What a rule makes of its value takes no tokens. -/
theorem Indifferent.map {x : Rule α} (indifferent : x.Indifferent newline after scope Takes) (f : α → β) :
    (x >>= fun a => pure (f a)).Indifferent newline after scope Takes := by
  intro ahead hidden
  rw [StateT.run_bind, StateT.run_bind]
  have outcome := indifferent ahead hidden
  generalize x.run (ahead ++ newline :: after) = left at outcome ⊢
  generalize x.run (ahead ++ after) = right at outcome ⊢
  cases outcome with
  | same => exact .same _
  | inStep a split takes => exact .inStep (f a) split takes
  | misled isLast named isNext marked => exact .misled isLast named isNext marked _

section Break

variable (isBreak : newline.kind = .newline)

include isBreak

/-- Either both readings see past the break, or they see the same token ahead of it. -/
theorem visible_of_hidden {ahead : List Token} (hidden : Hidden scope ahead) :
    (visible scope (ahead ++ newline :: after) = visible scope (ahead ++ after)) ∨
      ∃ breaks token left, ahead = breaks ++ token :: left ∧ Balanced breaks ∧
        visible scope (ahead ++ newline :: after) = token :: left ++ newline :: after ∧
        visible scope (ahead ++ after) = token :: left ++ after := by
  by_cases bracketed : scope.bracketed = true
  · have seen (rest : List Token) :
        visible scope (ahead ++ rest) = (ahead ++ rest).dropWhile (·.kind = .newline) := by
      rw [visible, if_pos bracketed]
    cases left : ahead.dropWhile (·.kind = .newline) with
    | nil =>
      left
      rw [seen, seen, List.dropWhile_append, List.dropWhile_append, left]
      simp [isBreak]
    | cons token left' =>
      right
      refine ⟨ahead.takeWhile (·.kind = .newline), token, left', ?_, ?_, ?_, ?_⟩
      · rw [← left, List.takeWhile_append_dropWhile]
      · apply balanced_of_neutral
        intro other member
        exact Token.neutral_of_kind (by simpa using List.mem_takeWhile_imp member) rfl
      · rw [seen, List.dropWhile_append, left]
        simp
      · rw [seen, List.dropWhile_append, left]
        simp
  · right
    obtain pending := hidden.resolve_left bracketed
    cases ahead with
    | nil => exact (pending.ne_nil rfl).elim
    | cons token left =>
      refine ⟨[], token, left, rfl, balanced_nil, ?_, ?_⟩ <;> simp [visible, bracketed]

theorem indifferent_peek {f : Option Token → Rule α}
    (next : ∀ token, (f (some token)).IndifferentAt newline after token scope Takes)
    (joins : ∀ {taken later}, Balanced taken → Takes later → Takes (taken ++ later)) :
    (peek scope >>= f).Indifferent newline after scope Takes := by
  intro ahead hidden
  have run (tokens : List Token) : (peek scope >>= f).run tokens =
      (f (visible scope tokens).head?).run (visible scope tokens) := by
    rw [StateT.run_bind, run_peek]
    rfl
  rw [run, run]
  rcases visible_of_hidden isBreak hidden with same | ⟨breaks, token, left, rfl, balanced, first, second⟩
  · rw [same]
    exact .same _
  · rw [first, second]
    exact (next token left (hidden.of_append balanced)).prepend breaks fun taken => joins balanced

theorem indifferent_ifPeekIs {accept : TokenKind → Bool} {yes no : Rule α}
    (follows : ∀ token, accept token.kind = true → yes.IndifferentAt newline after token scope Takes)
    (otherwise : no.Indifferent newline after scope Takes)
    (joins : ∀ {taken later}, Balanced taken → Takes later → Takes (taken ++ later)) :
    Indifferent newline after scope Takes (do if ← peekIs scope accept then yes else no) := by
  have asPeek : (do if ← peekIs scope accept then yes else no : Rule α) =
      peek scope >>= fun next => if next.any (accept ·.kind) then yes else no := by
    simp [peekIs]
  rw [asPeek]
  refine indifferent_peek isBreak (fun token => ?_) joins
  by_cases accepted : accept token.kind = true
  · simpa [accepted] using follows token accepted
  · simpa [accepted] using otherwise.at token

theorem indifferent_nonempty (bracket : Bracket) (empty : Token → ParseError) (line : Nat) :
    (nonempty scope bracket empty line).Indifferent newline after scope Balanced := by
  refine indifferent_peek isBreak (fun token => ?_) Balanced.append
  dsimp only
  split
  · exact (indifferent_throw _).at token
  · exact (indifferent_pure ()).at token

theorem indifferent_close (bracket : Bracket) (expected : Expectation) (line : Nat) :
    (close scope bracket expected line).Indifferent newline after scope (Closing bracket) := by
  refine indifferent_peek isBreak (fun token => ?_) Closing.append
  dsimp only
  split
  · rename_i closes
    exact fun ahead _ => .inStep () rfl (closing_singleton closes)
  · exact (indifferent_throw _).at token

theorem indifferent_many {accept : TokenKind → Bool} {item : Rule α}
    (consumes : ∀ token, accept token.kind = true → TakesAt token item fun taken _ => taken ≠ [])
    (each : ∀ token, accept token.kind = true → item.IndifferentAt newline after token scope Balanced) :
    (many (peekIs scope accept) item).Indifferent newline after scope Balanced := by
  have loop (budget : List Token) : (repeatWhile (peekIs scope accept) item budget).Indifferent newline
      after scope Balanced := by
    induction budget with
    | nil => exact indifferent_pure []
    | cons _ budget ih =>
      refine indifferent_ifPeekIs isBreak (fun token accepted => ?_) (indifferent_pure []) Balanced.append
      exact (each token accepted).bind (fun first => ih.map _) Balanced.append
  intro ahead hidden
  -- Without the break there is one token less to go by, which still suffices.
  have enough := run_repeatWhile_of_le scope consumes (ahead ++ after) (ahead ++ after)
    (ahead ++ newline :: after) (Nat.le_refl _) (by simp)
  change Outcome newline after Balanced ahead _
    ((repeatWhile (peekIs scope accept) item (ahead ++ after)).run (ahead ++ after))
  rw [enough]
  exact loop _ ahead hidden

end Break

theorem indifferentAt_peek {f : Option Token → Rule α} {token : Token} (kind : token.kind ≠ .newline)
    (next : (f (some token)).IndifferentAt newline after token scope Takes) :
    (peek scope >>= f).IndifferentAt newline after token scope Takes := by
  intro ahead hidden
  have run (tokens : List Token) : (peek scope >>= f).run (token :: tokens) =
      (f (some token)).run (token :: tokens) := by
    rw [StateT.run_bind, run_peek]
    simp [visible, kind]
    rfl
  simp only [List.cons_append, run]
  exact next ahead hidden

theorem indifferentAt_advance {rule : Rule α} {token : Token} (neutral : token.Neutral)
    (indifferent : rule.Indifferent newline after scope Takes)
    (joins : ∀ {taken later}, Balanced taken → Takes later → Takes (taken ++ later)) :
    (advance >>= fun _ => rule).IndifferentAt newline after token scope Takes := by
  intro ahead hidden
  have balanced := balanced_singleton neutral
  have behind : Hidden scope ahead := @Hidden.of_append scope [token] ahead hidden balanced
  exact (indifferent ahead behind).prepend [token] fun taken => joins balanced

/-- Behind an opening bracket, the break is hidden whatever follows. -/
theorem indifferentAt_open {rule : Rule α} {token : Token} {bracket : Bracket}
    (opens : token.kind = bracket.openingKind)
    (indifferent : rule.Indifferent newline after scope.insideBrackets (Closing bracket)) :
    (advance >>= fun _ => rule).IndifferentAt newline after token scope Balanced :=
  fun ahead _ => (indifferent ahead (.inl rfl)).prepend [token]
    fun _ closing => closing token opens

end Rule

/-- A break ahead makes no difference to the rules of a level. -/
structure Rules.Indifferent (newline : Token) (after : List Token) (scope : Scope) (rules : Rules) :
    Prop where
  primary : rules.primary.Indifferent newline after scope Balanced
  expression : rules.expression.Indifferent newline after scope Balanced
  statement : rules.statement.Indifferent newline after scope Balanced
  /-- Nothing begins with a marker. -/
  refusal : ∀ marker behind arity, marker.kind = .binding arity →
    rules.statement.run (marker :: behind) = .error (Rule.unexpected .expression marker)

namespace Rule

open Grammar

variable {newline : Token} {after : List Token} (isBreak : newline.kind = .newline)

include isBreak

theorem indifferent_parenthesized {scope : Scope} {statement : Rule Node}
    (inner : statement.Indifferent newline after scope Balanced) (line : Nat) :
    (parenthesized scope statement line).Indifferent newline after scope (Closing .paren) := by
  refine (indifferent_nonempty isBreak .paren _ line).bind (fun _ => ?_) Closing.append
  refine inner.bind (fun node => ?_) Closing.append
  exact (indifferent_close isBreak .paren _ line).map fun _ => node

theorem indifferent_elements {scope : Scope} {expression : Rule Node} {levels : Nat}
    (derives : expression.Takes (Expression levels))
    (inner : expression.Indifferent newline after scope Balanced) (bracket : Bracket) (line : Nat) :
    (elements scope expression bracket line).Indifferent newline after scope (Closing bracket) := by
  refine (indifferent_nonempty isBreak bracket _ line).bind (fun _ => ?_) Closing.append
  refine inner.bind (fun first => ?_) Closing.append
  refine (indifferent_many isBreak (consumes_separated scope derives bracket line) fun token isMark => ?_).bind
    (fun others => ?_) Closing.append
  · have neutral := Token.neutral_of_kind (of_decide_eq_true isMark) rfl
    refine indifferentAt_advance neutral ?_ Balanced.append
    exact (indifferent_nonempty isBreak bracket _ line).bind (fun _ => inner) Balanced.append
  · exact (indifferent_close isBreak bracket _ line).map fun _ => first :: others

omit isBreak in
theorem mem_visible (scope : Scope) {token : Token} {tokens : List Token} (member : token ∈ tokens)
    (kind : token.kind ≠ .newline) : token ∈ visible scope tokens := by
  obtain ⟨breaks, split, isBare⟩ := exists_eq_append_visible scope tokens
  rw [split] at member
  refine (List.mem_append.mp member).resolve_left fun isBreak => ?_
  have kept : token ∈ bare breaks := by simp [bare, isBreak, kind]
  simp [isBare] at kept

omit isBreak in
/-- Outside brackets, the breaks before a statement end before a break that is hidden. -/
theorem indifferent_skipBreaks {scope : Scope} (unbracketed : scope.bracketed = false) :
    Indifferent newline after scope Balanced (modify (List.dropWhile (Rule.isBreak ·.kind)) : Rule Unit) := by
  intro ahead hidden
  obtain ⟨bracket, outer, inside, opening, rfl, opens, -⟩ := hidden.resolve_left (by simp [unbracketed])
  have stops : isBreak opening.kind = false := by
    cases bracket <;> simp [opens, Bracket.openingKind, isBreak]
  have kept (rest : List Token) : (outer ++ opening :: inside ++ rest).dropWhile (isBreak ·.kind) =
      (outer ++ opening :: inside).dropWhile (isBreak ·.kind) ++ rest := by
    have some : ¬ ((outer ++ opening :: inside).dropWhile (isBreak ·.kind)).isEmpty := by
      simp only [List.isEmpty_iff, List.dropWhile_eq_nil_iff, not_forall]
      exact ⟨opening, by simp, by simp [stops]⟩
    rw [List.dropWhile_append, if_neg some]
  have breaks : Balanced ((outer ++ opening :: inside).takeWhile (isBreak ·.kind)) := by
    apply balanced_of_neutral
    intro token member
    have separates := List.mem_takeWhile_imp member
    cases kind : token.kind <;> simp [kind, isBreak] at separates <;>
      exact Token.neutral_of_kind kind rfl
  have run (rest : List Token) :
      (modify (List.dropWhile (isBreak ·.kind)) : Rule Unit).run (outer ++ opening :: inside ++ rest) =
        .ok ((), (outer ++ opening :: inside).dropWhile (isBreak ·.kind) ++ rest) :=
    congrArg (fun left => Except.ok ((), left)) (kept rest)
  rw [run, run]
  exact .inStep () List.takeWhile_append_dropWhile.symm breaks

section Level

variable {descend : Descent} {levels : Nat}
  (derives : ∀ scope line rules, descend scope line = .ok rules →
    ∃ inner, levels = inner + 1 ∧ rules.Derives inner)
  (deeper : ∀ scope line rules, descend scope line = .ok rules → rules.Indifferent newline after scope)

include derives deeper

theorem indifferent_primary (scope : Scope) :
    (primary descend scope).Indifferent newline after scope Balanced := by
  refine indifferent_peek isBreak (fun token => ?_) Balanced.append
  dsimp only
  cases kind : token.kind with
  | number =>
    refine indifferentAt_advance (Token.neutral_of_kind kind rfl) ?_ Balanced.append
    exact (indifferent_lift _).map _
  | string =>
    exact indifferentAt_advance (Token.neutral_of_kind kind rfl) (indifferent_pure _) Balanced.append
  | character =>
    refine indifferentAt_advance (Token.neutral_of_kind kind rfl) ?_ Balanced.append
    exact (indifferent_lift _).map _
  | identifier =>
    exact indifferentAt_advance (Token.neutral_of_kind kind rfl) (indifferent_pure _) Balanced.append
  | monadicFunction | dyadicFunction =>
    refine indifferentAt_advance (Token.neutral_of_kind kind rfl) ?_ Balanced.append
    exact (indifferent_lift _).map _
  | openParen =>
    refine @indifferentAt_open _ _ _ _ _ _ .paren kind ?_
    refine indifferent_lift_bind fun rules descends => ?_
    exact indifferent_parenthesized isBreak (deeper _ _ _ descends).statement _
  | openArray =>
    refine @indifferentAt_open _ _ _ _ _ _ .array kind ?_
    refine indifferent_lift_bind fun rules descends => ?_
    obtain ⟨inner, -, derives⟩ := derives _ _ _ descends
    exact (indifferent_elements isBreak derives.expression (deeper _ _ _ descends).expression .array _).map _
  | openList =>
    refine @indifferentAt_open _ _ _ _ _ _ .list kind ?_
    refine indifferent_lift_bind fun rules descends => ?_
    obtain ⟨inner, -, derives⟩ := derives _ _ _ descends
    exact (indifferent_elements isBreak derives.expression (deeper _ _ _ descends).expression .list _).map _
  | _ => exact fun ahead _ => .same _

theorem indifferent_modified (scope : Scope) :
    (modified descend scope).Indifferent newline after scope Balanced := by
  refine (indifferent_primary isBreak derives deeper scope).bind (fun operand => ?_) Balanced.append
  refine (indifferent_many isBreak (consumes_monadicModifier scope) fun token isMark => ?_).bind
    (fun modifiers => ?_) Balanced.append
  · have kind : token.kind = .monadicModifier := of_decide_eq_true isMark
    refine indifferentAt_peek (by simp [kind]) ?_
    refine indifferentAt_advance (Token.neutral_of_kind kind rfl) ?_ Balanced.append
    exact (indifferent_lift _).map _
  · refine indifferent_peek isBreak (fun token => ?_) Balanced.append
    dsimp only
    split
    · rename_i kind
      refine indifferentAt_advance (Token.neutral_of_kind kind rfl) ?_ Balanced.append
      refine (indifferent_lift _).bind (fun modifier => ?_) Balanced.append
      refine indifferent_ifPeekIs isBreak (fun next _ => Indifferent.at ?_ next) (indifferent_throw _)
        Balanced.append
      refine indifferent_lift_bind fun rules descends => ?_
      exact (deeper _ _ _ descends).primary.map _
    · exact (indifferent_pure _).at token

theorem indifferent_strandElement (scope : Scope) (token : Token)
    (isMark : decide (token.kind = .ligature) = true) :
    (strandElement descend scope).IndifferentAt newline after token scope Balanced := by
  have kind : token.kind = .ligature := of_decide_eq_true isMark
  refine indifferentAt_peek (by simp [kind]) ?_
  refine indifferentAt_advance (Token.neutral_of_kind kind rfl) ?_ Balanced.append
  refine indifferent_peek isBreak (fun next => ?_) Balanced.append
  dsimp only
  split
  · exact (indifferent_modified isBreak derives deeper scope).at next
  · exact (indifferent_throw _).at next

theorem indifferent_strand (scope : Scope) :
    (strand descend scope).Indifferent newline after scope Balanced := by
  refine indifferent_peek isBreak (fun token => ?_) Balanced.append
  dsimp only
  split
  · refine Indifferent.at ?_ token
    refine (indifferent_modified isBreak derives deeper scope).bind (fun first => ?_) Balanced.append
    refine (indifferent_many isBreak (consumes_strandElement derives scope)
      (indifferent_strandElement isBreak derives deeper scope)).bind (fun others => ?_) Balanced.append
    cases others <;> exact indifferent_pure _
  · exact (indifferent_throw _).at token

theorem indifferent_expression (scope : Scope) :
    (expression descend scope).Indifferent newline after scope Balanced := by
  have each := indifferent_strand isBreak derives deeper scope
  refine each.bind (fun first => ?_) Balanced.append
  refine (indifferent_many isBreak (fun token _ => (consumes_strand derives scope).at token)
    fun token _ => each.at token).bind (fun others => ?_) Balanced.append
  cases others <;> exact indifferent_pure _

omit derives in
theorem indifferent_bindingValue (scope : Scope) (name : Token) (arity : Option Arity) :
    (bindingValue descend scope name arity).Indifferent newline after scope Balanced := by
  refine indifferent_peek isBreak (fun token => Indifferent.at ?_ token) Balanced.append
  refine indifferent_lift_bind fun rules descends => ?_
  exact (deeper _ _ _ descends).statement.map _

omit derives isBreak in
/-- Where the break stands between a name and its marker, one reading takes the break in place of the
marker, and then finds the marker where a value should begin. -/
theorem outcome_bindingValue_of_break {scope : Scope} {name : Token} {arity : Option Arity}
    (bracketed : scope.bracketed = true) (named : name.kind = .identifier)
    (closed : ∃ token ∈ after, ∃ bracket : Bracket, token.kind = bracket.closingKind)
    (found : markerAfterName? scope after = some arity) :
    Outcome newline after Balanced [name] ((bindingValue descend scope name arity).run after)
      ((bindingValue descend scope name arity).run after.tail) := by
  have run {tokens later : List Token} {token : Token} (shown : visible scope tokens = token :: later) :
      (bindingValue descend scope name arity).run tokens = (do
        let inner ← descend scope name.line
        return .binding name.image arity (← inner.statement) name.line : Rule Node).run (token :: later) := by
    rw [bindingValue, run_bind_of_ok (run_peek scope tokens), shown]
    rfl
  obtain ⟨marker, behind, shown, marked⟩ := markerAfterName?_eq_some.mp found
  cases after with
  | nil => simp [visible] at shown
  | cons first rest =>
    by_cases another : first.kind = .newline
    · have past : visible scope rest = marker :: behind := by
        rw [← shown]
        simp [visible, bracketed, another]
      rw [run shown, List.tail_cons, run past]
      exact .same _
    · have atMarker : visible scope (first :: rest) = first :: rest := by
        simp [visible, another]
      obtain ⟨rfl, rfl⟩ := List.cons.inj (atMarker.symm.trans shown)
      rw [run atMarker, List.tail_cons]
      cases descends : descend scope name.line with
      | ok rules =>
        have refused : (do
            let value ← rules.statement
            return .binding name.image arity value name.line : Rule Node).run (first :: rest) =
              .error (unexpected .expression first) := by
          rw [StateT.run_bind, (deeper _ _ _ descends).refusal first rest arity marked]
          rfl
        exact refused ▸ .misled rfl named rfl marked _
      | error e =>
        obtain ⟨token, member, bracket, closes⟩ := closed
        have notMarker : token ≠ first := by
          rintro rfl
          cases bracket <;> simp [marked, Bracket.closingKind] at closes
        have seen : token ∈ visible scope rest := by
          apply mem_visible scope ((List.mem_cons.mp member).resolve_left notMarker)
          cases bracket <;> simp [closes, Bracket.closingKind]
        obtain ⟨next, later, shown⟩ := List.exists_cons_of_ne_nil (List.ne_nil_of_mem seen)
        rw [run shown, descends]
        exact .same (.error e)

theorem indifferent_statement (scope : Scope)
    (closed : ∃ token ∈ after, ∃ bracket : Bracket, token.kind = bracket.closingKind) :
    (statement descend scope).Indifferent newline after scope Balanced := by
  have plain := indifferent_expression isBreak derives deeper scope
  refine indifferent_peek isBreak (fun name => ?_) Balanced.append
  dsimp only
  split
  · rename_i named
    intro ahead hidden
    have neutral := Token.neutral_of_kind named rfl
    have behind : Hidden scope ahead := @Hidden.of_append scope [name] ahead hidden (balanced_singleton neutral)
    change Outcome newline after Balanced (name :: ahead)
      ((afterName descend scope name (markerAfterName? scope (ahead ++ newline :: after))).run
        (name :: ahead ++ newline :: after))
      ((afterName descend scope name (markerAfterName? scope (ahead ++ after))).run (name :: ahead ++ after))
    have sameMarker : markerAfterName? scope (ahead ++ newline :: after) =
        markerAfterName? scope (ahead ++ after) := by
      rw [markerAfterName?_eq, markerAfterName?_eq]
      rcases visible_of_hidden isBreak behind with same | ⟨breaks, token, left, -, -, first, second⟩
      · rw [same]
      · rw [first, second]
        rfl
    rw [sameMarker]
    cases found : markerAfterName? scope (ahead ++ after) with
    | none => exact plain (name :: ahead) hidden
    | some arity =>
      cases ahead with
      | nil =>
        have bracketed : scope.bracketed = true := behind.resolve_right fun pending => pending.ne_nil rfl
        exact outcome_bindingValue_of_break deeper bracketed named closed found
      | cons next ahead =>
        have nextNeutral : next.Neutral := by
          obtain ⟨marker, later, shown, marked⟩ := markerAfterName?_eq_some.mp found
          by_cases another : next.kind = .newline
          · exact Token.neutral_of_kind another rfl
          · have atMarker : visible scope (next :: ahead ++ after) = next :: (ahead ++ after) := by
              simp [visible, another]
            obtain ⟨rfl, -⟩ := List.cons.inj (atMarker.symm.trans shown)
            exact Token.neutral_of_kind marked rfl
        have both : Balanced [name, next] := (balanced_singleton neutral).append (balanced_singleton nextNeutral)
        have hidden : Hidden scope ahead := @Hidden.of_append scope [name, next] ahead hidden both
        exact (indifferent_bindingValue isBreak deeper scope name arity ahead hidden).prepend [name, next]
          fun taken balanced => both.append balanced
  · exact plain.at name

theorem indifferent_program {scope : Scope} (unbracketed : scope.bracketed = false)
    (closed : ∃ token ∈ after, ∃ bracket : Bracket, token.kind = bracket.closingKind) :
    (program descend scope).Indifferent newline after scope Balanced := by
  have loop (budget : List Token) :
      (statements descend scope budget).Indifferent newline after scope Balanced := by
    induction budget with
    | nil => exact indifferent_pure []
    | cons _ budget ih =>
      refine (indifferent_skipBreaks unbracketed).bind (fun _ => ?_) Balanced.append
      refine indifferent_ifPeekIs isBreak (fun token _ => Indifferent.at ?_ token) (indifferent_pure [])
        Balanced.append
      refine (indifferent_statement isBreak derives deeper scope closed).bind (fun first => ?_) Balanced.append
      refine indifferent_ifPeekIs isBreak (fun token _ => Indifferent.at ?_ token) (indifferent_pure [first])
        Balanced.append
      exact ih.map _
  intro ahead hidden
  have enough := run_statements_of_le (consumes_statement derives scope) (ahead ++ after) (ahead ++ after)
    (ahead ++ newline :: after) (Nat.le_refl _) (by simp)
  change Outcome newline after Balanced ahead _
    ((statements descend scope (ahead ++ after)).run (ahead ++ after))
  rw [enough]
  exact loop _ ahead hidden

end Level

omit isBreak in
theorem run_statement_of_marker (descend : Descent) (scope : Scope) {marker : Token} {arity : Option Arity}
    (behind : List Token) (marked : marker.kind = .binding arity) :
    (statement descend scope).run (marker :: behind) = .error (unexpected .expression marker) := by
  have shown := run_peek scope (marker :: behind)
  have seen : visible scope (marker :: behind) = marker :: behind := by
    simp [visible, marked]
  rw [seen] at shown
  rw [statement, run_bind_of_ok shown]
  simp only [List.head?_cons, marked, reduceCtorEq, if_false]
  rw [expression, StateT.run_bind, strand, run_bind_of_ok shown]
  simp [marked, beginsPrimary]
  rfl

end Rule

section Parse

variable {newline : Token} {after : List Token} (isBreak : newline.kind = .newline)
  (closed : ∃ token ∈ after, ∃ bracket : Bracket, token.kind = bracket.closingKind)

include isBreak closed

theorem Rules.indifferent_layer {descend : Descent} {levels : Nat}
    (derives : ∀ scope line rules, descend scope line = .ok rules →
      ∃ inner, levels = inner + 1 ∧ rules.Derives inner)
    (deeper : ∀ scope line rules, descend scope line = .ok rules →
      rules.Indifferent newline after scope) (scope : Scope) :
    (layer descend scope).Indifferent newline after scope where
  primary := Rule.indifferent_primary isBreak derives deeper scope
  expression := Rule.indifferent_expression isBreak derives deeper scope
  statement := Rule.indifferent_statement isBreak derives deeper scope closed
  refusal _ behind _ marked := Rule.run_statement_of_marker descend scope behind marked

/-- However many levels are left, a break ahead makes no difference to the rules below. -/
theorem Rules.indifferent_below (levels : Nat) (scope : Scope) (line : Nat) (rules : Rules)
    (descends : below levels scope line = .ok rules) : rules.Indifferent newline after scope := by
  induction levels generalizing scope line rules with
  | zero => cases descends
  | succ levels ih =>
    cases descends
    rw [withLevels_eq_layer]
    exact indifferent_layer isBreak closed (derives_below levels) ih scope

end Parse

/-- The place between two stretches of tokens lies between a bracket and the one that matches it: what
stands between those two is balanced. -/
inductive Enclosed : List Token → List Token → Prop
  | between {bracket : Bracket} {outer inside inside' beyond : List Token} {opening closing : Token}
      (opens : opening.kind = bracket.openingKind) (balanced : bracket.Balanced (inside ++ inside'))
      (closes : closing.kind = bracket.closingKind) :
      Enclosed (outer ++ opening :: inside) (inside' ++ closing :: beyond)

theorem Bracket.weight_eq_zero_of_not_isSignificant (bracket : Bracket) {token : Token}
    (blank : ¬ token.isSignificant = true) : bracket.weight token = 0 := by
  have kind : token.kind = .whitespace ∨ token.kind = .comment := by
    by_contra other
    apply blank
    simpa [Token.isSignificant] using other
  rcases kind with kind | kind <;> exact Token.neutral_of_kind kind rfl bracket

@[simp] theorem Bracket.surplus_significant (bracket : Bracket) (tokens : List Token) :
    bracket.surplus (significant tokens) = bracket.surplus tokens := by
  induction tokens with
  | nil => rfl
  | cons token tokens ih =>
    by_cases kept : token.isSignificant = true
    · have split : significant (token :: tokens) = token :: significant tokens := by
        simp [significant, kept]
      rw [split, surplus_cons, surplus_cons, ih]
    · have split : significant (token :: tokens) = significant tokens := by
        simp [significant, kept]
      rw [split, surplus_cons, ih, weight_eq_zero_of_not_isSignificant bracket kept]
      omega

/-- A beginning of what is significant is what is significant in a beginning. -/
theorem exists_take_significant (tokens : List Token) (n : Nat) :
    ∃ m, (significant tokens).take n = significant (tokens.take m) := by
  obtain ⟨start, rest, split, isStart, -⟩ :=
    List.filter_eq_append_iff.mp (List.take_append_drop n (significant tokens)).symm
  refine ⟨start.length, ?_⟩
  have atSplit : tokens.take start.length = start := by rw [split, List.take_left' rfl]
  rw [atSplit]
  exact isStart.symm

theorem Enclosed.pending {before after : List Token} (enclosed : Enclosed before after) :
    Pending (significant before) := by
  obtain @⟨bracket, outer, inside, inside', beyond, opening, closing, opens, balanced, -⟩ := enclosed
  have kept : opening.isSignificant = true := by
    cases bracket <;> simp [Token.isSignificant, opens, Bracket.openingKind]
  refine ⟨bracket, significant outer, significant inside, opening, ?_, opens, fun n => ?_⟩
  · simp [significant, kept]
  · obtain ⟨m, isTake⟩ := exists_take_significant inside n
    have start := balanced.always (min m inside.length)
    rw [isTake, Bracket.surplus_significant]
    rw [List.take_append_of_le_length (by omega)] at start
    rwa [List.take_eq_take_min]

theorem Enclosed.closed {before after : List Token} (enclosed : Enclosed before after) :
    ∃ token ∈ significant after, ∃ bracket : Bracket, token.kind = bracket.closingKind := by
  obtain @⟨bracket, outer, inside, inside', beyond, opening, closing, -, -, closes⟩ := enclosed
  refine ⟨closing, List.mem_filter.mpr ⟨by simp, ?_⟩, bracket, closes⟩
  cases bracket <;> simp [Token.isSignificant, closes, Bracket.closingKind]

theorem parse_eq (limit : Nat) (tokens : List Token) :
    parse limit tokens = Prod.fst <$> (Rule.program (Rules.below limit)
      (Scope.outermost limit ((tokens.getLast?.map Token.line).getD 1))).run (significant tokens) := by
  rw [parse, Rules.withLevels_eq_layer]
  rfl

/-- Leaving out a break inside brackets does not change what is read. The one exception is a break
between a name and a marker: there reading may stop at the marker instead. -/
theorem parse_without_enclosed_break (limit : Nat) {before after : List Token} {newline : Token}
    (isBreak : newline.kind = .newline) (enclosed : Enclosed before after) :
    parse limit (before ++ newline :: after) = parse limit (before ++ after) ∨
      ∃ name marker arity, (significant before).getLast? = some name ∧ name.kind = .identifier ∧
        (significant after).head? = some marker ∧ marker.kind = .binding arity ∧
        parse limit (before ++ newline :: after) = .error (Rule.unexpected .expression marker) := by
  have nonempty : after ≠ [] := by
    obtain ⟨token, member, -⟩ := enclosed.closed
    exact List.ne_nil_of_mem (List.mem_of_mem_filter member)
  have sameEnd : (before ++ newline :: after).getLast? = (before ++ after).getLast? := by
    rw [List.getLast?_append, List.getLast?_append, List.getLast?_cons_of_ne_nil nonempty]
  have kept : newline.isSignificant = true := by simp [Token.isSignificant, isBreak]
  have with' : significant (before ++ newline :: after) =
      significant before ++ newline :: significant after := by simp [significant, kept]
  have without : significant (before ++ after) = significant before ++ significant after :=
    List.filter_append _ _
  rw [parse_eq, parse_eq, sameEnd, with', without]
  generalize ((before ++ after).getLast?.map Token.line).getD 1 = endLine
  have outcome := @Rule.indifferent_program _ _ isBreak _ _ (Rules.derives_below limit)
    (Rules.indifferent_below isBreak enclosed.closed limit) (Scope.outermost limit endLine) rfl
    enclosed.closed (significant before) (.inr enclosed.pending)
  generalize (Rule.program _ _).run (significant before ++ newline :: significant after) = left
    at outcome ⊢
  generalize (Rule.program _ _).run (significant before ++ significant after) = right at outcome ⊢
  cases outcome with
  | same => exact .inl rfl
  | inStep => exact .inl rfl
  | misled isLast named isNext marked =>
    exact .inr ⟨_, _, _, isLast, named, isNext, marked, rfl⟩

theorem parse_without_break_in_strand :
    let before : List Token := [⟨.openArray, "[", 1⟩, ⟨.identifier, "A", 1⟩, ⟨.openParen, "(", 1⟩,
      ⟨.identifier, "B", 1⟩, ⟨.comment, "# first", 1⟩]
    let after : List Token := [⟨.ligature, "‿", 2⟩, ⟨.identifier, "C", 2⟩, ⟨.closeParen, ")", 2⟩,
      ⟨.closeArray, "]", 2⟩]
    Enclosed before after ∧ parse defaultLimit (before ++ ⟨.newline, "\n", 1⟩ :: after) =
      parse defaultLimit (before ++ after) := by
  intro before after
  have plain : ∀ token ∈ before.drop 3 ++ after.take 2, token.kind.isBracket = false := by decide
  have balanced := balanced_of_neutral fun token member => Token.neutral_of_kind rfl (plain token member)
  have enclosed : Enclosed before after :=
    @Enclosed.between .paren (before.take 2) (before.drop 3) (after.take 2) (after.drop 3)
      ⟨.openParen, "(", 1⟩ ⟨.closeParen, ")", 2⟩ rfl (balanced .paren) rfl
  refine ⟨enclosed, (parse_without_enclosed_break defaultLimit rfl enclosed).resolve_right ?_⟩
  rintro ⟨name, marker, arity, -, -, isNext, marked, -⟩
  cases isNext
  cases marked

/-- Not every break inside brackets may be left out: the one between a name and its marker may not. -/
theorem parse_differs_at_break_before_marker :
    ¬ ∀ (limit : Nat) (before after : List Token) (newline : Token), newline.kind = .newline →
      Enclosed before after → parse limit (before ++ newline :: after) = parse limit (before ++ after) := by
  intro same
  let inside : List Token := [⟨.identifier, "A", 1⟩]
  let inside' : List Token := [⟨.binding none, "←", 2⟩, ⟨.identifier, "B", 2⟩]
  have plain : ∀ token ∈ inside ++ inside', token.kind.isBracket = false := by decide
  have balanced := balanced_of_neutral fun token member => Token.neutral_of_kind rfl (plain token member)
  have enclosed : Enclosed (⟨.openParen, "(", 1⟩ :: inside) (inside' ++ [⟨.closeParen, ")", 2⟩]) :=
    @Enclosed.between .paren [] inside inside' [] ⟨.openParen, "(", 1⟩ ⟨.closeParen, ")", 2⟩ rfl
      (balanced .paren) rfl
  have equal := same defaultLimit _ _ ⟨.newline, "\n", 1⟩ rfl enclosed
  have refused : parse defaultLimit [⟨.openParen, "(", 1⟩, ⟨.identifier, "A", 1⟩, ⟨.newline, "\n", 1⟩,
      ⟨.binding none, "←", 2⟩, ⟨.identifier, "B", 2⟩, ⟨.closeParen, ")", 2⟩] =
        .error ⟨.unexpected .expression "←", 2⟩ := by rfl
  have bound : parse defaultLimit [⟨.openParen, "(", 1⟩, ⟨.identifier, "A", 1⟩, ⟨.binding none, "←", 2⟩,
      ⟨.identifier, "B", 2⟩, ⟨.closeParen, ")", 2⟩] =
        .ok [.binding "A" none (.reference "B" 2) 1] := by rfl
  cases refused.symm.trans (equal.trans bound)

end Tacit
