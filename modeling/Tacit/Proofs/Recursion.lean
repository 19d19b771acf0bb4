import Tacit.Proofs.Statements

/-! Reading without a budget. The rules repeat an item no more often than there are tokens, and those of one level are
made from those of the next level in. Here the same grammar is read by procedures that call each other and themselves
with nothing to stop them: a repetition goes on as long as another item follows, and a level is only a number that is
carried along. The procedures are the least solutions of their equations, so that one which never ends comes to nothing
at all. None does. A procedure that calls another before it has taken a token calls one that stands for a smaller part
of the grammar, and every other call is made on fewer tokens, so that the number of tokens left bounds the recursion and
all repetitions in it. What the procedures come to is what the rules give. -/
namespace Tacit

namespace Rule

/-- A repetition as one round and the repetition of what is left, without a budget. -/
theorem run_many {α : Type} (scope : Scope) {accept : TokenKind → Bool} {item : Rule α}
    (consumes : ∀ token, accept token.kind = true → TakesAt token item fun taken _ => taken ≠ [])
    (tokens : List Token) :
    (many (peekIs scope accept) item).run tokens = (do
      if ← peekIs scope accept then
        let first ← item
        let others ← many (peekIs scope accept) item
        return first :: others
      else return [] : Rule (List α)).run tokens := by
  -- A larger budget makes no difference, and this one does not depend on there being a token.
  have more : (many (peekIs scope accept) item).run tokens =
      (repeatWhile (peekIs scope accept) item (⟨.newline, "", 0⟩ :: tokens)).run tokens :=
    run_repeatWhile_of_le scope consumes tokens tokens _ (Nat.le_refl _) (by simp)
  have seen := length_visible_le scope tokens
  rw [more, repeatWhile, run_bind_of_ok (run_peekIs scope accept tokens),
    run_bind_of_ok (run_peekIs scope accept tokens)]
  cases shown : visible scope tokens with
  | nil => rfl
  | cons token later =>
    rw [shown] at seen
    by_cases accepted : accept token.kind = true
    · simp only [List.head?_cons, Option.any_some, accepted, if_true]
      cases ran : item.run (token :: later) with
      | error e => rw [StateT.run_bind, StateT.run_bind, ran]; rfl
      | ok result =>
        have shorter := (consumes token accepted).shortens ran
        have same : (repeatWhile (peekIs scope accept) item tokens).run result.2 =
            (many (peekIs scope accept) item).run result.2 :=
          run_repeatWhile_of_le scope consumes result.2 tokens result.2 (by omega) (Nat.le_refl _)
        rw [run_bind_of_ok ran, run_bind_of_ok ran, StateT.run_bind, StateT.run_bind, same]
    · simp [accepted]

/-- A program as one statement and the program behind it, without a budget. -/
theorem run_program {descend : Descent} {scope : Scope}
    (consumes : (statement descend scope).Takes fun taken _ => taken ≠ []) (tokens : List Token) :
    (program descend scope).run tokens = (do
      modify (List.dropWhile (isBreak ·.kind))
      if ← peekIs scope beginsPrimary then
        let first ← statement descend scope
        if ← peekIs scope isBreak then
          let others ← program descend scope
          return first :: others
        else return [first]
      else return [] : Rule (List Node)).run tokens := by
  have more : (program descend scope).run tokens =
      (statements descend scope (⟨.newline, "", 0⟩ :: tokens)).run tokens :=
    run_statements_of_le consumes tokens tokens _ (Nat.le_refl _) (by simp)
  have dropped := List.length_dropWhile_le (isBreak ·.kind) tokens
  have skip : (modify (List.dropWhile (isBreak ·.kind)) : Rule Unit).run tokens =
    .ok ((), tokens.dropWhile (isBreak ·.kind)) := rfl
  generalize tokens.dropWhile (isBreak ·.kind) = rest at dropped skip
  have seen := length_visible_le scope rest
  rw [more, statements, run_bind_of_ok skip, run_bind_of_ok skip,
    run_bind_of_ok (run_peekIs scope beginsPrimary rest), run_bind_of_ok (run_peekIs scope beginsPrimary rest)]
  split
  · cases ran : (statement descend scope).run (visible scope rest) with
    | error e => rw [StateT.run_bind, StateT.run_bind, ran]; rfl
    | ok result =>
      have shorter := consumes.shortens ran
      have left := length_visible_le scope result.2
      rw [run_bind_of_ok ran, run_bind_of_ok ran, run_bind_of_ok (run_peekIs scope isBreak result.2),
        run_bind_of_ok (run_peekIs scope isBreak result.2)]
      split
      · have same : (statements descend scope tokens).run (visible scope result.2) =
            (program descend scope).run (visible scope result.2) :=
          run_statements_of_le consumes _ tokens _ (by omega) (Nat.le_refl _)
        rw [StateT.run_bind, StateT.run_bind, same]
      · rfl
  · rfl

end Rule

/-- Where a rule is applied, and how many levels lie around it. -/
structure Depth extends Scope where
  current : Nat

namespace Depth

/-- The rules with the levels that are left at a depth. -/
def rules (depth : Depth) : Rules := Rules.withLevels (depth.limit - depth.current) depth.toScope

/-- One level further in, if the limit allows for it. -/
def descend (depth : Depth) (line : Nat) : Except ParseError Depth :=
  if depth.limit ≤ depth.current then .error ⟨.nestingTooDeep depth.limit, line⟩
  else .ok { depth with current := depth.current + 1 }

def enterBrackets (depth : Depth) (line : Nat) : Except ParseError Depth := do
  return { (← depth.descend line) with bracketed := true }

/-- How the rules of a depth obtain those further in. -/
def below (depth : Depth) : Descent := Rules.below (depth.limit - depth.current)

theorem rules_eq (depth : Depth) : depth.rules = Rules.layer depth.below depth.toScope :=
  congrFun (Rules.withLevels_eq_layer _) _

/-- The rules further in have one level less, if there is one. -/
theorem below_eq (depth : Depth) (scope : Scope) (limit : scope.limit = depth.limit) (line : Nat) :
    depth.below scope line =
      if depth.limit ≤ depth.current then .error ⟨.nestingTooDeep depth.limit, line⟩
      else .ok (rules ⟨scope, depth.current + 1⟩) := by
  unfold below
  by_cases last : depth.limit ≤ depth.current
  · rw [if_pos last, Nat.sub_eq_zero_of_le last, ← limit]
    rfl
  · have more : depth.limit - depth.current = depth.limit - (depth.current + 1) + 1 := by omega
    rw [if_neg last, more, ← limit]
    rfl

theorem below_eq_descend (depth : Depth) (line : Nat) :
    depth.below depth.toScope line = rules <$> depth.descend line := by
  rw [below_eq depth depth.toScope rfl, descend]
  split <;> rfl

theorem below_eq_enterBrackets (depth : Depth) (line : Nat) :
    depth.below depth.toScope.insideBrackets line = rules <$> depth.enterBrackets line := by
  rw [below_eq depth depth.toScope.insideBrackets rfl, enterBrackets, descend]
  split <;> rfl

theorem toScope_of_enterBrackets {depth inner : Depth} {line : Nat} (enters : depth.enterBrackets line = .ok inner) :
    inner.toScope = depth.toScope.insideBrackets := by
  unfold enterBrackets descend at enters
  split at enters <;> cases enters
  rfl

end Depth

/-- A procedure takes tokens as a rule does, but it may run on for ever, and then it comes to nothing. -/
abbrev Procedure := StateT (List Token) (ExceptT ParseError Option)

/-- A rule is a procedure that ends. -/
instance : MonadLift Rule Procedure where
  monadLift rule tokens := ExceptT.mk (some (rule.run tokens))

namespace Depth

def modifiers (depth : Depth) : Procedure (List (Modifier × Nat)) := do
  if ← Rule.peekIs depth.toScope (· = .monadicModifier) then
    let first ← Rule.monadicModifier depth.toScope
    let others ← depth |>.modifiers
    return first :: others
  else return []
partial_fixpoint

mutual

def primary (depth : Depth) : Procedure Node := do
  match ← Rule.peek depth.toScope with
  | none => throw ⟨.endOfInput .expression, depth.endLine⟩
  | some token =>
    Rule.advance
    match token.kind with
    | .number => return .number (← Rule.numberOf token) token.line
    | .string => return .string (Quoted.content token.image) token.line
    | .character => return .character (← Rule.characterOf token) token.line
    | .identifier => return .reference token.image token.line
    | .monadicFunction | .dyadicFunction =>
      let primitive ← Rule.glyphFunction token
      return .glyph primitive primitive.arity token.line
    | .openParen =>
      let inner ← depth.enterBrackets token.line
      inner |>.parenthesized token.line
    | .openArray =>
      let inner ← depth.enterBrackets token.line
      return .array (← inner |>.elements .array token.line) token.line
    | .openList =>
      let inner ← depth.enterBrackets token.line
      return .list (← inner |>.elements .list token.line) token.line
    | _ => throw (Rule.unexpected .expression token)
partial_fixpoint

def parenthesized (depth : Depth) (line : Nat) : Procedure Node := do
  Rule.nonempty depth.toScope .paren (fun _ => ⟨.emptyParentheses, line⟩) line
  let inner ← depth |>.statement
  Rule.close depth.toScope .paren (.closing .paren) line
  return inner
partial_fixpoint

def elements (depth : Depth) (bracket : Bracket) (line : Nat) : Procedure (List Node) := do
  Rule.nonempty depth.toScope bracket (fun _ => ⟨.emptyLiteral bracket, line⟩) line
  let first ← depth |>.expression
  let others ← depth |>.laterElements bracket line
  Rule.close depth.toScope bracket (.separatorOr bracket) line
  return first :: others
partial_fixpoint

def laterElement (depth : Depth) (bracket : Bracket) (line : Nat) : Procedure Node := do
  Rule.advance
  Rule.nonempty depth.toScope bracket (fun token => ⟨.trailingSeparator, token.line⟩) line
  depth |>.expression
partial_fixpoint

def laterElements (depth : Depth) (bracket : Bracket) (line : Nat) : Procedure (List Node) := do
  if ← Rule.peekIs depth.toScope (· = .separator) then
    let first ← depth |>.laterElement bracket line
    let others ← depth |>.laterElements bracket line
    return first :: others
  else return []
partial_fixpoint

def modified (depth : Depth) : Procedure Node := do
  let operand ← depth |>.primary
  let modifiers ← depth.modifiers
  let left := modifiers.foldl (fun node (modifier, line) => .modified modifier node line) operand
  match ← Rule.peek depth.toScope with
  | none => return left
  | some token =>
    if token.kind = .dyadicModifier then
      Rule.advance
      let modifier ← Rule.glyphModifier token
      if ← Rule.peekIs depth.toScope Rule.beginsPrimary then
        let inner ← depth.descend token.line
        return .combined modifier left (← inner |>.primary) token.line
      else throw ⟨.missingOperand (token.image.toList.head?.getD '∘'), token.line⟩
    else return left
partial_fixpoint

def strandElement (depth : Depth) : Procedure Node := do
  let ligatureLine := ((← Rule.peek depth.toScope).map Token.line).getD depth.endLine
  Rule.advance
  match ← Rule.peek depth.toScope with
  | none => throw ⟨.endOfInput .strandElement, ligatureLine⟩
  | some token =>
    if Rule.beginsPrimary token.kind then depth |>.modified
    else throw (Rule.unexpected .strandElement token)
partial_fixpoint

def strandElements (depth : Depth) : Procedure (List Node) := do
  if ← Rule.peekIs depth.toScope (· = .ligature) then
    let first ← depth |>.strandElement
    let others ← depth |>.strandElements
    return first :: others
  else return []
partial_fixpoint

def strand (depth : Depth) : Procedure Node := do
  match ← Rule.peek depth.toScope with
  | none => throw ⟨.endOfInput .expression, depth.endLine⟩
  | some token =>
    if Rule.beginsPrimary token.kind then
      let first ← depth |>.modified
      match ← depth |>.strandElements with
      | [] => return first
      | others => return .strand (first :: others) first.line
    else throw (Rule.unexpected .expression token)
partial_fixpoint

def tines (depth : Depth) : Procedure (List Node) := do
  if ← Rule.peekIs depth.toScope Rule.beginsPrimary then
    let first ← depth |>.strand
    let others ← depth |>.tines
    return first :: others
  else return []
partial_fixpoint

def expression (depth : Depth) : Procedure Node := do
  let first ← depth |>.strand
  match ← depth |>.tines with
  | [] => return first
  | others => return .train (first :: others) first.line
partial_fixpoint

def bindingValue (depth : Depth) (name : Token) (arity : Option Arity) : Procedure Node := do
  if (← Rule.peek depth.toScope).isNone then throw ⟨.endOfInput (.valueFor name.image), name.line⟩
  let inner ← depth.descend name.line
  return .binding name.image arity (← inner |>.statement) name.line
partial_fixpoint

def statement (depth : Depth) : Procedure Node := do
  match ← Rule.peek depth.toScope with
  | none => depth |>.expression
  | some token =>
    if token.kind = .identifier then
      match Rule.markerAfterName? depth.toScope (← get).tail with
      | some arity =>
        Rule.advance
        Rule.advance
        depth |>.bindingValue token arity
      | none => depth |>.expression
    else depth |>.expression
partial_fixpoint

end

def program (depth : Depth) : Procedure (List Node) := do
  modify (List.dropWhile (Rule.isBreak ·.kind))
  if ← Rule.peekIs depth.toScope Rule.beginsPrimary then
    let first ← depth.statement
    if ← Rule.peekIs depth.toScope Rule.isBreak then
      let others ← depth |>.program
      return first :: others
    else return [first]
  else return []
partial_fixpoint

end Depth

namespace Procedure

section Ends

variable {α β : Type}

/-- What a procedure comes to, if it ends. -/
def outcome? (procedure : Procedure α) (tokens : List Token) : Option (Except ParseError (α × List Token)) :=
  (procedure.run tokens).run

/-- The procedure ends on these tokens, at what the rule gives. -/
def Ends (procedure : Procedure α) (rule : Rule α) (tokens : List Token) : Prop :=
  procedure.outcome? tokens = some (rule.run tokens)

variable {rule : Rule α} {procedure : Procedure α} {tokens : List Token}

theorem ends_rule (rule : Rule α) (tokens : List Token) : Ends (liftM rule) rule tokens := rfl

theorem ends_pure (a : α) (tokens : List Token) : Ends (pure a) (pure a) tokens := rfl

theorem ends_throw (e : ParseError) (tokens : List Token) : Ends (throw e : Procedure α) (throw e) tokens := rfl

theorem ends_lift (x : Except ParseError α) (tokens : List Token) : Ends (liftM x) (liftM x) tokens := by
  cases x <;> rfl

theorem Ends.bind {f : α → Procedure β} {g : α → Rule β} (first : Ends procedure rule tokens)
    (second : ∀ a rest, rule.run tokens = .ok (a, rest) → Ends (f a) (g a) rest) :
    Ends (procedure >>= f) (rule >>= g) tokens := by
  have ended : (procedure.run tokens).run = some (rule.run tokens) := first
  change ((procedure >>= f).run tokens).run = _
  rw [StateT.run_bind, StateT.run_bind, ExceptT.run_bind, ended]
  cases ran : rule.run tokens with
  | error e => rfl
  | ok result => exact second _ _ ran

theorem Ends.congr {other : Rule α} (same : rule.run tokens = other.run tokens) (ends : Ends procedure other tokens) :
    Ends procedure rule tokens := by
  rw [Ends, same]
  exact ends

theorem ends_advance {f : Unit → Procedure β} {g : Unit → Rule β} (next : Ends (f ()) (g ()) tokens.tail) :
    Ends (liftM Rule.advance >>= f) (Rule.advance >>= g) tokens := by
  refine (ends_rule Rule.advance tokens).bind fun _ rest ran => ?_
  cases ran
  exact next

theorem ends_peek {scope : Scope} {f : Option Token → Procedure β} {g : Option Token → Rule β}
    (nothing : Ends (f none) (g none) [])
    (next : ∀ token later, later.length < tokens.length → Ends (f (some token)) (g (some token)) (token :: later)) :
    Ends (liftM (Rule.peek scope) >>= f) (Rule.peek scope >>= g) tokens := by
  refine (ends_rule _ tokens).bind fun _ rest ran => ?_
  rw [Rule.run_peek] at ran
  cases ran
  have seen := Rule.length_visible_le scope tokens
  cases shown : Rule.visible scope tokens with
  | nil => exact nothing
  | cons token later =>
    rw [shown] at seen
    exact next token later seen

theorem ends_ifPeekIs {scope : Scope} {accept : TokenKind → Bool} {yes no : Procedure β} {yes' no' : Rule β}
    (follows : ∀ token later, accept token.kind = true → later.length < tokens.length → Ends yes yes' (token :: later))
    (otherwise : ∀ rest, Ends no no' rest) :
    Ends (do if ← Rule.peekIs scope accept then yes else no) (do if ← Rule.peekIs scope accept then yes' else no')
      tokens := by
  refine (ends_rule _ tokens).bind fun _ rest ran => ?_
  rw [Rule.run_peekIs] at ran
  cases ran
  have seen := Rule.length_visible_le scope tokens
  cases shown : Rule.visible scope tokens with
  | nil => exact otherwise []
  | cons token later =>
    rw [shown] at seen
    by_cases accepted : accept token.kind = true
    · simpa [accepted] using follows token later accepted seen
    · simpa [accepted] using otherwise (token :: later)

/-- A loop whose items each take a token ends, at what the repetition of the rule gives. -/
theorem ends_many {scope : Scope} {accept : TokenKind → Bool} {loop : Procedure (List α)} {item : Procedure α}
    (unfolds : loop = do
      if ← Rule.peekIs scope accept then
        let first ← item
        let others ← loop
        return first :: others
      else return [])
    (consumes : ∀ token, accept token.kind = true → Rule.TakesAt token rule fun taken _ => taken ≠ [])
    (each : ∀ token later, accept token.kind = true → later.length < tokens.length → Ends item rule (token :: later)) :
    Ends loop (Rule.many (Rule.peekIs scope accept) rule) tokens := by
  induction count : tokens.length using Nat.strong_induction_on generalizing tokens with
  | h count ih =>
    refine Ends.congr (Rule.run_many scope consumes tokens) ?_
    rw [unfolds]
    refine ends_ifPeekIs (fun token later accepted short => ?_) fun rest => ends_pure [] rest
    refine (each token later accepted short).bind fun first rest ran => ?_
    have fewer : rest.length < (token :: later).length := (consumes token accepted).shortens ran
    rw [List.length_cons] at fewer
    have ends : Ends loop (Rule.many (Rule.peekIs scope accept) rule) rest :=
      ih rest.length (by omega) (fun token later accepted short => each token later accepted (by omega)) rfl
    exact ends.bind fun others left _ => ends_pure (first :: others) left

theorem ends_further {further : Except ParseError Depth} {descent : Except ParseError Rules}
    {f : Depth → Procedure β} {g : Rules → Rule β} (same : descent = Depth.rules <$> further)
    (next : ∀ inner, further = .ok inner → Ends (f inner) (g (Rules.layer inner.below inner.toScope)) tokens) :
    Ends (liftM further >>= f) (liftM descent >>= g) tokens := by
  subst same
  cases further with
  | error e => rfl
  | ok inner =>
    have ends := next inner rfl
    rw [← Depth.rules_eq] at ends
    exact ends

end Ends

/-- On fewer than so many tokens the procedures end, at what the rules give. -/
structure EndBelow (count : Nat) : Prop where
  primary : ∀ (depth : Depth) (tokens : List Token), tokens.length < count →
    Ends depth.primary (Rule.primary depth.below depth.toScope) tokens
  modified : ∀ (depth : Depth) (tokens : List Token), tokens.length < count →
    Ends depth.modified (Rule.modified depth.below depth.toScope) tokens
  strand : ∀ (depth : Depth) (tokens : List Token), tokens.length < count →
    Ends depth.strand (Rule.strand depth.below depth.toScope) tokens
  expression : ∀ (depth : Depth) (tokens : List Token), tokens.length < count →
    Ends depth.expression (Rule.expression depth.below depth.toScope) tokens
  statement : ∀ (depth : Depth) (tokens : List Token), tokens.length < count →
    Ends depth.statement (Rule.statement depth.below depth.toScope) tokens

theorem ends_modifiers (depth : Depth) (tokens : List Token) :
    Ends depth.modifiers
      (Rule.many (Rule.peekIs depth.toScope (· = .monadicModifier)) (Rule.monadicModifier depth.toScope)) tokens := by
  exact ends_many (Depth.modifiers.eq_def depth) (Rule.consumes_monadicModifier depth.toScope)
    fun _ _ _ _ => ends_rule _ _

/-! Within a bound on the tokens, the procedures are gone through from the smaller parts of the grammar to the larger
ones. What is taken before a call is known from the rules. -/

section Level

variable {count : Nat} (shorter : EndBelow count) (depth : Depth) {tokens : List Token}

include shorter

theorem ends_parenthesized (line : Nat) (bound : tokens.length < count) :
    Ends (depth.parenthesized line)
      (Rule.parenthesized depth.toScope (Rule.statement depth.below depth.toScope) line) tokens := by
  rw [Depth.parenthesized, Rule.parenthesized]
  refine (ends_rule _ tokens).bind fun _ rest ran => ?_
  obtain ⟨_, rfl, -⟩ := Rule.takes_nonempty _ _ _ _ _ _ _ ran
  rw [List.length_append] at bound
  refine (shorter.statement depth rest (by omega)).bind fun inner rest _ => ?_
  exact (ends_rule _ rest).bind fun _ rest _ => ends_pure inner rest

theorem ends_laterElement (bracket : Bracket) (line : Nat) {token : Token} {later : List Token}
    (bound : later.length < count) :
    Ends (depth.laterElement bracket line) (do
      Rule.advance
      Rule.nonempty depth.toScope bracket (fun token => ⟨.trailingSeparator, token.line⟩) line
      Rule.expression depth.below depth.toScope) (token :: later) := by
  rw [Depth.laterElement]
  refine ends_advance ((ends_rule _ later).bind fun _ rest ran => ?_)
  obtain ⟨_, rfl, -⟩ := Rule.takes_nonempty _ _ _ _ _ _ _ ran
  rw [List.length_append] at bound
  exact shorter.expression depth rest (by omega)

theorem ends_elements (bracket : Bracket) (line : Nat) (bound : tokens.length < count) :
    Ends (depth.elements bracket line)
      (Rule.elements depth.toScope (Rule.expression depth.below depth.toScope) bracket line) tokens := by
  have derives := Rule.takes_expression (Rules.derives_below (depth.limit - depth.current)) depth.toScope
  rw [Depth.elements, Rule.elements]
  refine (ends_rule _ tokens).bind fun _ rest ran => ?_
  obtain ⟨_, rfl, -⟩ := Rule.takes_nonempty _ _ _ _ _ _ _ ran
  rw [List.length_append] at bound
  refine (shorter.expression depth rest (by omega)).bind fun first left ran => ?_
  obtain ⟨_, rfl, -⟩ := derives _ _ _ ran
  rw [List.length_append] at bound
  have others : Ends (depth.laterElements bracket line) _ left :=
    ends_many (Depth.laterElements.eq_def depth bracket line)
      (Rule.consumes_separated depth.toScope derives bracket line)
      fun _ _ _ short => ends_laterElement shorter depth bracket line (by omega)
  refine others.bind fun _ rest _ => ?_
  exact (ends_rule _ rest).bind fun _ rest _ => ends_pure _ rest

theorem ends_primary (bound : tokens.length ≤ count) :
    Ends depth.primary (Rule.primary depth.below depth.toScope) tokens := by
  rw [Depth.primary]
  refine ends_peek (ends_throw _ _) fun token later short => ends_advance ?_
  have within : later.length < count := by omega
  cases token.kind with
  | number | character | monadicFunction | dyadicFunction =>
    exact (ends_lift _ later).bind fun _ rest _ => ends_pure _ rest
  | string | identifier => exact ends_pure _ later
  | openParen =>
    refine ends_further (depth.below_eq_enterBrackets _) fun inner enters => ?_
    rw [← Depth.toScope_of_enterBrackets enters]
    exact ends_parenthesized shorter inner token.line within
  | openArray | openList =>
    refine ends_further (depth.below_eq_enterBrackets _) fun inner enters => ?_
    rw [← Depth.toScope_of_enterBrackets enters]
    exact (ends_elements shorter inner _ token.line within).bind fun _ rest _ => ends_pure _ rest
  | comment | whitespace | newline | closeParen | closeArray | closeList | separator | binding | ligature
  | monadicModifier | dyadicModifier => exact ends_throw _ later

theorem ends_modified (bound : tokens.length ≤ count) :
    Ends depth.modified (Rule.modified depth.below depth.toScope) tokens := by
  rw [Depth.modified, Rule.modified]
  refine (ends_primary shorter depth bound).bind fun operand rest ran => ?_
  obtain ⟨_, rfl, -⟩ := Rule.takes_primary (Rules.derives_below _) _ _ _ _ ran
  refine (ends_modifiers depth rest).bind fun modifiers left ran => ?_
  obtain ⟨_, rfl, -⟩ := Rule.takes_many (Rule.takes_monadicModifier depth.toScope) _ _ _ ran
  rw [List.length_append, List.length_append] at bound
  refine ends_peek (ends_pure _ _) fun token later short => ?_
  by_cases kind : token.kind = .dyadicModifier
  · simp only [kind, if_true]
    refine ends_advance ((ends_lift _ later).bind fun modifier rest ran => ?_)
    obtain ⟨_, rfl, -⟩ := Rule.takes_lift _ _ _ _ ran
    rw [List.length_append] at short
    refine ends_ifPeekIs (fun next behind _ within => ?_) fun rest => ends_throw _ rest
    refine ends_further (depth.below_eq_descend _) fun inner _ => ?_
    exact (shorter.primary inner (next :: behind) (by simp; omega)).bind fun _ rest _ => ends_pure _ rest
  · simp only [kind, if_false]
    exact ends_pure _ _

theorem ends_strandElement {token : Token} {later : List Token} (kind : token.kind = .ligature)
    (bound : later.length < count) :
    Ends depth.strandElement (Rule.strandElement depth.below depth.toScope) (token :: later) := by
  have shown : Rule.visible depth.toScope (token :: later) = token :: later := by simp [Rule.visible, kind]
  rw [Depth.strandElement, Rule.strandElement]
  refine (ends_rule _ _).bind fun _ rest ran => ?_
  rw [Rule.run_peek, shown] at ran
  cases ran
  refine ends_advance (ends_peek (ends_throw _ _) fun next behind short => ?_)
  rw [List.tail_cons] at short
  by_cases begins : Rule.beginsPrimary next.kind = true
  · simp only [begins, if_true]
    exact shorter.modified depth (next :: behind) (by simp; omega)
  · simp only [begins]
    exact ends_throw _ _

theorem ends_strand (bound : tokens.length ≤ count) :
    Ends depth.strand (Rule.strand depth.below depth.toScope) tokens := by
  have derives := Rules.derives_below (depth.limit - depth.current)
  rw [Depth.strand, Rule.strand]
  refine ends_peek (ends_throw _ _) fun token later short => ?_
  by_cases begins : Rule.beginsPrimary token.kind = true
  · simp only [begins, if_true]
    refine (ends_modified shorter depth (by simp; omega)).bind fun first rest ran => ?_
    have fewer : rest.length < (token :: later).length := (Rule.consumes_modified derives depth.toScope).shortens ran
    rw [List.length_cons] at fewer
    have others : Ends depth.strandElements _ rest :=
      ends_many (Depth.strandElements.eq_def depth) (Rule.consumes_strandElement derives depth.toScope)
        fun token _ isMark short => ends_strandElement shorter depth (of_decide_eq_true isMark) (by omega)
    refine others.bind fun others rest _ => ?_
    cases others <;> exact ends_pure _ rest
  · simp only [begins]
    exact ends_throw _ _

theorem ends_expression (bound : tokens.length ≤ count) :
    Ends depth.expression (Rule.expression depth.below depth.toScope) tokens := by
  have consumes := Rule.consumes_strand (Rules.derives_below (depth.limit - depth.current)) depth.toScope
  rw [Depth.expression, Rule.expression]
  refine (ends_strand shorter depth bound).bind fun first rest ran => ?_
  have fewer : rest.length < tokens.length := consumes.shortens ran
  have others : Ends depth.tines _ rest :=
    ends_many (Depth.tines.eq_def depth) (fun token _ => consumes.at token)
      fun token later _ short => shorter.strand depth (token :: later) (by simp; omega)
  refine others.bind fun others rest _ => ?_
  cases others <;> exact ends_pure _ rest

theorem ends_bindingValue (name : Token) (arity : Option Arity) (bound : tokens.length < count) :
    Ends (depth.bindingValue name arity) (Rule.bindingValue depth.below depth.toScope name arity) tokens := by
  rw [Depth.bindingValue, Rule.bindingValue]
  refine ends_peek (ends_throw _ _) fun token later short => ?_
  refine ends_further (depth.below_eq_descend _) fun inner _ => ?_
  exact (shorter.statement inner (token :: later) (by simp; omega)).bind fun _ rest _ => ends_pure _ rest

theorem ends_statement (bound : tokens.length ≤ count) :
    Ends depth.statement (Rule.statement depth.below depth.toScope) tokens := by
  rw [Depth.statement, Rule.statement]
  refine ends_peek (ends_expression shorter depth (by simp)) fun token later short => ?_
  have plain : Ends depth.expression (Rule.expression depth.below depth.toScope) (token :: later) :=
    ends_expression shorter depth (by simp; omega)
  by_cases named : token.kind = .identifier
  · simp only [named, if_true]
    refine Ends.bind rfl fun _ rest ran => ?_
    cases ran
    rw [List.tail_cons]
    cases Rule.markerAfterName? depth.toScope later with
    | none => exact plain
    | some arity =>
      refine ends_advance (ends_advance ?_)
      exact ends_bindingValue shorter depth token arity (by simp; omega)
  · simp only [named, if_false]
    exact plain

end Level

/-- One token more at a time: what a procedure calls on as many tokens as it was given itself has been gone through
before it. -/
theorem endBelow (count : Nat) : EndBelow count := by
  induction count with
  | zero => exact ⟨nofun, nofun, nofun, nofun, nofun⟩
  | succ count ih =>
    exact {
      primary := fun depth tokens bound => ends_primary ih depth (Nat.le_of_lt_succ bound)
      modified := fun depth tokens bound => ends_modified ih depth (Nat.le_of_lt_succ bound)
      strand := fun depth tokens bound => ends_strand ih depth (Nat.le_of_lt_succ bound)
      expression := fun depth tokens bound => ends_expression ih depth (Nat.le_of_lt_succ bound)
      statement := fun depth tokens bound => ends_statement ih depth (Nat.le_of_lt_succ bound) }

theorem ends_program (depth : Depth) (tokens : List Token) :
    Ends depth.program (Rule.program depth.below depth.toScope) tokens := by
  have consumes := Rule.consumes_statement (Rules.derives_below (depth.limit - depth.current)) depth.toScope
  induction count : tokens.length using Nat.strong_induction_on generalizing tokens with
  | h count ih =>
    refine Ends.congr (Rule.run_program consumes tokens) ?_
    rw [Depth.program]
    refine Ends.bind rfl fun _ rest ran => ?_
    cases ran
    have dropped := List.length_dropWhile_le (Rule.isBreak ·.kind) tokens
    refine ends_ifPeekIs (fun token later _ short => ?_) fun rest => ends_pure [] rest
    refine ((endBelow _).statement depth (token :: later) (Nat.lt_succ_self _)).bind fun first rest ran => ?_
    have fewer : rest.length < (token :: later).length := consumes.shortens ran
    rw [List.length_cons] at fewer
    refine ends_ifPeekIs (fun next behind _ short => ?_) fun rest => ends_pure [first] rest
    have others := ih (next :: behind).length (by rw [List.length_cons]; omega) (next :: behind) rfl
    exact others.bind fun others rest _ => ends_pure (first :: others) rest

/-- The procedure ends on the tokens, at what the rule gives. Where something is read, what is left of the tokens is
as it should be. -/
structure Settles {α : Type} (procedure : Procedure α) (rule : Rule α) (tokens : List Token)
    (Leaves : List Token → Prop) : Prop where
  ends : Ends procedure rule tokens
  leaves : ∀ a rest, rule.run tokens = .ok (a, rest) → Leaves rest

def StrictSuffix (tokens rest : List Token) : Prop := rest <:+ tokens ∧ rest ≠ tokens

theorem settles_of_consumes {α : Type} {procedure : Procedure α} {rule : Rule α} {tokens : List Token}
    (ends : Ends procedure rule tokens) (consumes : rule.Takes fun taken _ => taken ≠ []) :
    Settles procedure rule tokens (StrictSuffix tokens) := by
  refine ⟨ends, fun a rest ran => ?_⟩
  obtain ⟨taken, split, some⟩ := consumes tokens a rest ran
  have fewer := Rule.length_lt_of_taken split some
  exact ⟨⟨taken, split.symm⟩, fun same => by simp [same] at fewer⟩

/-- On all tokens, whatever they are spelled like, and at every depth, reading without a budget comes to an end, at what
the rules give. Where a node is read, fewer tokens are left, and these are the last ones of those given; where a program
is read, the tokens left are the last ones too. -/
theorem ends_and_shortens (depth : Depth) (tokens : List Token) :
    Settles depth.statement depth.rules.statement tokens (StrictSuffix tokens) ∧
    Settles depth.expression depth.rules.expression tokens (StrictSuffix tokens) ∧
    Settles depth.strand depth.rules.strand tokens (StrictSuffix tokens) ∧
    Settles depth.modified depth.rules.modified tokens (StrictSuffix tokens) ∧
    Settles depth.primary depth.rules.primary tokens (StrictSuffix tokens) ∧
    Settles depth.program depth.rules.program tokens (· <:+ tokens) := by
  have within := endBelow (tokens.length + 1)
  have last := Nat.lt_succ_self tokens.length
  have derives := Rules.derives_below (depth.limit - depth.current)
  rw [Depth.rules_eq]
  refine ⟨settles_of_consumes (within.statement depth tokens last) (Rule.consumes_statement derives depth.toScope),
    settles_of_consumes (within.expression depth tokens last) (Rule.consumes_expression derives depth.toScope),
    settles_of_consumes (within.strand depth tokens last) (Rule.consumes_strand derives depth.toScope),
    settles_of_consumes (within.modified depth tokens last) (Rule.consumes_modified derives depth.toScope),
    settles_of_consumes (within.primary depth tokens last) (Rule.consumes_primary derives depth.toScope),
    ends_program depth tokens, fun nodes rest ran => ?_⟩
  obtain ⟨taken, split, -⟩ := Rule.takes_statements derives depth.toScope tokens tokens nodes rest ran
  exact ⟨taken, split.symm⟩

end Procedure

end Tacit
