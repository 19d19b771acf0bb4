import Tacit.Located
import Tacit.Token

/-! Why tokens are refused as a program. -/
namespace Tacit

inductive Bracket where
  | paren
  | array
  | list
  deriving DecidableEq

namespace Bracket

def openingSymbol : Bracket → Char
  | paren => '('
  | array => '['
  | list => '⟨'

def closingSymbol : Bracket → Char
  | paren => ')'
  | array => ']'
  | list => '⟩'

def closingKind : Bracket → TokenKind
  | paren => .closeParen
  | array => .closeArray
  | list => .closeList

end Bracket

/-- What a rule was looking for. -/
inductive Expectation where
  | expression
  | strandElement
  | number
  | singleCharacter
  | functionGlyph
  | modifierGlyph
  | closing (bracket : Bracket)
  | separatorOr (bracket : Bracket)
  | valueFor (name : String)
  deriving DecidableEq

def Expectation.describe : Expectation → String
  | .expression => "an expression"
  | .strandElement => "a strand element after ‿"
  | .number => "a number"
  | .singleCharacter => "a single character"
  | .functionGlyph => "a function glyph"
  | .modifierGlyph => "a modifier glyph"
  | .closing bracket => s!"'{bracket.closingSymbol}'"
  | .separatorOr bracket => s!"'⋄' or '{bracket.closingSymbol}'"
  | .valueFor name => s!"a value for {name}"

inductive ParseFault where
  | unexpected (expected : Expectation) (got : String)
  | endOfInput (expected : Expectation)
  | emptyParentheses
  | emptyLiteral (bracket : Bracket)
  | trailingSeparator
  | missingOperand (modifier : Char)
  | nestingTooDeep (limit : Nat)
  deriving DecidableEq

def ParseFault.message : ParseFault → String
  | .unexpected expected got => s!"Expected {expected.describe} but got '{got}'."
  | .endOfInput expected => s!"Expected {expected.describe} but reached end of input."
  | .emptyParentheses => "Parentheses must not be empty."
  | .emptyLiteral bracket => s!"Literal opened with '{bracket.openingSymbol}' must not be empty."
  | .trailingSeparator => "Separator before a closing bracket."
  | .missingOperand modifier => s!"Modifier '{modifier}' is missing its right operand."
  | .nestingTooDeep limit => s!"Nesting deeper than {limit} levels."

abbrev ParseError := Located ParseFault

end Tacit
