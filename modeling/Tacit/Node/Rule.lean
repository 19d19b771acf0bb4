import Tacit.Glyph
import Tacit.Node.ParseError
import Tacit.Number.Decimal
import Tacit.Text.Quoted

/-! Rules as computations that take tokens, and the parts all rules are made of: looking at the next
token, repetition, and reading single tokens. -/
namespace Tacit

/-- A rule takes what it reads from the front of the tokens left. -/
abbrev Rule := StateT (List Token) (Except ParseError)

/-- Where a rule is applied. Inside brackets newlines are skipped, the end of the input is reported
at `endLine`, and `limit` is the number of levels allowed in all. -/
structure Scope where
  bracketed : Bool
  endLine : Nat
  limit : Nat

namespace Scope

def outermost (limit endLine : Nat) : Scope := ⟨false, endLine, limit⟩

def insideBrackets (scope : Scope) : Scope := { scope with bracketed := true }

end Scope

namespace Rule

variable {α : Type}

def unexpected (expected : Expectation) (token : Token) : ParseError :=
  ⟨.unexpected expected token.image, token.line⟩

def peek (scope : Scope) : Rule (Option Token) := do
  if scope.bracketed then modify (List.dropWhile (·.kind = .newline))
  return (← get).head?

def advance : Rule Unit := modify List.tail

def peekIs (scope : Scope) (accept : TokenKind → Bool) : Rule Bool := do
  return (← peek scope).any (accept ·.kind)

/-- Repeats a rule as long as another item follows. Each item takes a token, so a list as long as
the tokens left is budget enough. -/
def repeatWhile (follows : Rule Bool) (item : Rule α) : (budget : List Token) → Rule (List α)
  | [] => return []
  | _ :: budget => do
    if ← follows then
      let first ← item
      let others ← repeatWhile follows item budget
      return first :: others
    else return []

def many (follows : Rule Bool) (item : Rule α) : Rule (List α) := do
  repeatWhile follows item (← get)

def beginsPrimary : TokenKind → Bool
  | .number | .string | .character | .identifier | .monadicFunction | .dyadicFunction
  | .openParen | .openArray | .openList => true
  | _ => false

def isBreak : TokenKind → Bool
  | .separator | .newline => true
  | _ => false

def meaning? (token : Token) : Option Meaning :=
  (token.image.toList.head?.bind Glyph.ofSymbol?).map Glyph.meaning

def glyphFunction (token : Token) : Except ParseError Primitive :=
  match meaning? token with
  | some (.function primitive) => .ok primitive
  | _ => .error (unexpected .functionGlyph token)

def glyphModifier (token : Token) : Except ParseError Modifier :=
  match meaning? token with
  | some (.modifier modifier) => .ok modifier
  | _ => .error (unexpected .modifierGlyph token)

def numberOf (token : Token) : Except ParseError Float :=
  match Number.ofText? (token.image.toList.map fun c => if c = '¯' then '-' else c) with
  | some value => .ok value
  | none => .error (unexpected .number token)

def characterOf (token : Token) : Except ParseError Char :=
  match (Quoted.content token.image).toList with
  | [c] => .ok c
  | _ => .error (unexpected .singleCharacter token)

/-- Takes the closing bracket of what was opened on `line`. -/
def close (scope : Scope) (bracket : Bracket) (expected : Expectation) (line : Nat) :
    Rule Unit := do
  match ← peek scope with
  | some token =>
    if token.kind = bracket.closingKind then advance else throw (unexpected expected token)
  | none => throw ⟨.endOfInput (.closing bracket), line⟩

/-- Something has to stand before the closing bracket of what was opened on `line`. -/
def nonempty (scope : Scope) (bracket : Bracket) (empty : Token → ParseError) (line : Nat) :
    Rule Unit := do
  match ← peek scope with
  | some token => if token.kind = bracket.closingKind then throw (empty token)
  | none => throw ⟨.endOfInput (.closing bracket), line⟩

end Rule

end Tacit
