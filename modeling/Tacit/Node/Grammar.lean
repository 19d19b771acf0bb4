import Tacit.Node
import Tacit.Node.Rule

/-! The rules that read tokens as programs:

    statement  := name marker statement | expression
    expression := strand+
    strand     := modified (ligature modified)*
    modified   := primary monadicModifier* (dyadicModifier primary)?
    primary    := literal | name | function
                | '(' statement ')' | '[' elements ']' | '⟨' elements '⟩'
    elements   := expression (separator expression)*

A strand or an expression of one part is that part, and parentheses leave no node. A bracket pair,
the right operand of a modifier and the value of a binding each lie one level deeper than what holds
them, and the number of levels is limited. The rules of one level are built from those of the next
level in, so they are defined by recursion on the levels left. -/
namespace Tacit

structure Rules where
  primary : Rule Node
  modified : Rule Node
  strand : Rule Node
  expression : Rule Node
  statement : Rule Node
  program : Rule (List Node)

/-- How a rule obtains the rules one level deeper, for use in a scope. Where no level is left the
nesting is refused, at the given line. -/
abbrev Descent := Scope → Nat → Except ParseError Rules

namespace Rule

def parenthesized (scope : Scope) (statement : Rule Node) (line : Nat) : Rule Node := do
  nonempty scope .paren (fun _ => ⟨.emptyParentheses, line⟩) line
  let inner ← statement
  close scope .paren (.closing .paren) line
  return inner

def elements (scope : Scope) (expression : Rule Node) (bracket : Bracket) (line : Nat) :
    Rule (List Node) := do
  nonempty scope bracket (fun _ => ⟨.emptyLiteral bracket, line⟩) line
  let first ← expression
  let others ← many (peekIs scope (· = .separator)) do
    advance
    nonempty scope bracket (fun token => ⟨.trailingSeparator, token.line⟩) line
    expression
  close scope bracket (.separatorOr bracket) line
  return first :: others

def primary (descend : Descent) (scope : Scope) : Rule Node := do
  match ← peek scope with
  | none => throw ⟨.endOfInput .expression, scope.endLine⟩
  | some token =>
    advance
    let inside := scope.insideBrackets
    match token.kind with
    | .number => return .number (← numberOf token) token.line
    | .string => return .string (Quoted.content token.image) token.line
    | .character => return .character (← characterOf token) token.line
    | .identifier => return .reference token.image token.line
    | .monadicFunction | .dyadicFunction =>
      let primitive ← glyphFunction token
      return .glyph primitive primitive.arity token.line
    | .openParen =>
      let inner ← descend inside token.line
      parenthesized inside inner.statement token.line
    | .openArray =>
      let inner ← descend inside token.line
      return .array (← elements inside inner.expression .array token.line) token.line
    | .openList =>
      let inner ← descend inside token.line
      return .list (← elements inside inner.expression .list token.line) token.line
    | _ => throw (unexpected .expression token)

def monadicModifier (scope : Scope) : Rule (Modifier × Nat) := do
  match ← peek scope with
  | none => throw ⟨.endOfInput .modifierGlyph, scope.endLine⟩
  | some token =>
    advance
    return (← glyphModifier token, token.line)

def modified (descend : Descent) (scope : Scope) : Rule Node := do
  let operand ← primary descend scope
  let modifiers ← many (peekIs scope (· = .monadicModifier)) (monadicModifier scope)
  let left := modifiers.foldl (fun node (modifier, line) => .modified modifier node line) operand
  match ← peek scope with
  | none => return left
  | some token =>
    if token.kind = .dyadicModifier then
      advance
      let modifier ← glyphModifier token
      if ← peekIs scope beginsPrimary then
        let inner ← descend scope token.line
        return .combined modifier left (← inner.primary) token.line
      else throw ⟨.missingOperand (token.image.toList.head?.getD '∘'), token.line⟩
    else return left

def strandElement (descend : Descent) (scope : Scope) : Rule Node := do
  let ligatureLine := ((← peek scope).map Token.line).getD scope.endLine
  advance
  match ← peek scope with
  | none => throw ⟨.endOfInput .strandElement, ligatureLine⟩
  | some token =>
    if beginsPrimary token.kind then modified descend scope
    else throw (unexpected .strandElement token)

def strand (descend : Descent) (scope : Scope) : Rule Node := do
  match ← peek scope with
  | none => throw ⟨.endOfInput .expression, scope.endLine⟩
  | some token =>
    if beginsPrimary token.kind then
      let first ← modified descend scope
      match ← many (peekIs scope (· = .ligature)) (strandElement descend scope) with
      | [] => return first
      | others => return .strand (first :: others) first.line
    else throw (unexpected .expression token)

def expression (descend : Descent) (scope : Scope) : Rule Node := do
  let first ← strand descend scope
  match ← many (peekIs scope beginsPrimary) (strand descend scope) with
  | [] => return first
  | others => return .train (first :: others) first.line

def bindingValue (descend : Descent) (scope : Scope) (name : Token) (arity : Option Arity) :
    Rule Node := do
  if (← peek scope).isNone then throw ⟨.endOfInput (.valueFor name.image), name.line⟩
  let inner ← descend scope name.line
  return .binding name.image arity (← inner.statement) name.line

/-- The token after a name, seen past newlines inside brackets but not taken. -/
def markerAfterName? (scope : Scope) (tokens : List Token) : Option (Option Arity) :=
  let next := if scope.bracketed then tokens.dropWhile (·.kind = .newline) else tokens
  match next.head?.map Token.kind with
  | some (.binding arity) => some arity
  | _ => none

/-- A name followed by a marker is a binding. Exactly two tokens are then taken, so a marker that
stands behind newlines is left for the value, which cannot begin with it. -/
def statement (descend : Descent) (scope : Scope) : Rule Node := do
  match ← peek scope with
  | none => expression descend scope
  | some token =>
    if token.kind = .identifier then
      match markerAfterName? scope (← get).tail with
      | some arity =>
        advance
        advance
        bindingValue descend scope token arity
      | none => expression descend scope
    else expression descend scope

/-- Statements with breaks between them, up to the first token that cannot begin a statement. -/
def statements (descend : Descent) (scope : Scope) : (budget : List Token) → Rule (List Node)
  | [] => return []
  | _ :: budget => do
    modify (List.dropWhile (isBreak ·.kind))
    if ← peekIs scope beginsPrimary then
      let first ← statement descend scope
      if ← peekIs scope isBreak then
        let others ← statements descend scope budget
        return first :: others
      else return [first]
    else return []

def program (descend : Descent) (scope : Scope) : Rule (List Node) := do
  statements descend scope (← get)

end Rule

namespace Rules

def layer (descend : Descent) (scope : Scope) : Rules where
  primary := Rule.primary descend scope
  modified := Rule.modified descend scope
  strand := Rule.strand descend scope
  expression := Rule.expression descend scope
  statement := Rule.statement descend scope
  program := Rule.program descend scope

/-- The rules with a number of levels left. -/
def withLevels : Nat → Scope → Rules
  | 0 => layer fun scope line => .error ⟨.nestingTooDeep scope.limit, line⟩
  | levels + 1 => layer fun scope _ => .ok (withLevels levels scope)

def below : Nat → Descent
  | 0 => fun scope line => .error ⟨.nestingTooDeep scope.limit, line⟩
  | levels + 1 => fun scope _ => .ok (withLevels levels scope)

theorem withLevels_eq_layer (levels : Nat) : withLevels levels = layer (below levels) := by
  cases levels <;> rfl

end Rules

def defaultLimit : Nat := 64

/-- The program that a list of tokens spells. Tokens behind the last statement are ignored. -/
def parse (limit : Nat) (tokens : List Token) : Except ParseError (List Node) :=
  let endLine := (tokens.getLast?.map Token.line).getD 1
  (Rules.withLevels limit (Scope.outermost limit endLine)).program.run' (significant tokens)

end Tacit
