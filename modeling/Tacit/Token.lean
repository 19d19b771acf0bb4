import Tacit.Arity

/-! Tokens: the classified pieces of a source text. A token keeps the canonical spelling of its
piece and the line on which the piece starts; blanks and comments are tokens too, so that nothing of
the source is lost. -/
namespace Tacit

inductive TokenKind where
  | string
  | number
  | character
  | identifier
  | comment
  | whitespace
  | newline
  | openParen
  | closeParen
  | openArray
  | closeArray
  | openList
  | closeList
  | separator
  | binding (arity : Option Arity)
  | ligature
  | monadicFunction
  | dyadicFunction
  | monadicModifier
  | dyadicModifier
  deriving DecidableEq

def TokenKind.name : TokenKind → String
  | .string => "string"
  | .number => "number"
  | .character => "character"
  | .identifier => "identifier"
  | .comment => "comment"
  | .whitespace => "whitespace"
  | .newline => "newline"
  | .openParen => "open parenthesis"
  | .closeParen => "close parenthesis"
  | .openArray => "open array"
  | .closeArray => "close array"
  | .openList => "open list"
  | .closeList => "close list"
  | .separator => "separator"
  | .binding none => "binding"
  | .binding (some arity) => arity.name ++ " binding"
  | .ligature => "ligature"
  | .monadicFunction => "monadic function"
  | .dyadicFunction => "dyadic function"
  | .monadicModifier => "monadic modifier"
  | .dyadicModifier => "dyadic modifier"

structure Token where
  kind : TokenKind
  image : String
  line : Nat
  deriving DecidableEq

/-- Blanks and comments carry no meaning. -/
def Token.isSignificant (token : Token) : Bool :=
  token.kind ≠ .whitespace ∧ token.kind ≠ .comment

def significant (tokens : List Token) : List Token :=
  tokens.filter Token.isSignificant

end Tacit
