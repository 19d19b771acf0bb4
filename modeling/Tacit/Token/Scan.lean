import Tacit.Glyph
import Tacit.Located
import Tacit.Token

/-! Scanning: a source text is cut into lexemes from left to right. The first character of a lexeme
decides its class, and each class takes as many characters as it can. -/
namespace Tacit

inductive LexFault where
  | unrecognized (snippet : String)
  | unknownAscii (run : String)
  | unknownGlyph (symbol : Char)
  deriving DecidableEq

def LexFault.message : LexFault → String
  | .unrecognized snippet => s!"Unrecognized input: {snippet}"
  | .unknownAscii run => s!"Unknown glyph alias '{run}'."
  | .unknownGlyph symbol => s!"Unknown glyph '{symbol}'."

abbrev LexError := Located LexFault

/-- One lexeme at the head of a text: its class, its canonical spelling, and how many characters it
takes after its first one. -/
structure Lexeme where
  kind : TokenKind
  image : String
  extent : Nat

namespace Scan

/-- The mark in front of a negative number, which also spells negation. -/
def highMinus : Char := '¯'

def backtick : Char := '\x60'

def shownLength : Nat := 10

def isBlank (c : Char) : Bool := c = ' ' ∨ c = '\t' ∨ c = '\r'

def verbatim (kind : TokenKind) (c : Char) (rest : List Char) (extent : Nat) : Lexeme :=
  ⟨kind, String.ofList (c :: rest.take extent), extent⟩

/-- How many characters a string takes after its opening quote. A backslash needs a character to
escape, and that is never a newline. -/
def stringExtent? : List Char → Option Nat
  | [] => none
  | '\x22' :: _ => some 1
  | '\\' :: c :: rest => if c = '\n' then none else (stringExtent? rest).map (· + 2)
  | _ :: rest => (stringExtent? rest).map (· + 1)

def characterExtent? : List Char → Option Nat
  | '\\' :: c :: '\x27' :: _ => if c = '\n' then none else some 3
  | c :: '\x27' :: _ => if c = '\x27' ∨ c = '\\' then none else some 2
  | _ => none

def declaredArity? (c : Char) : Option Arity :=
  if c = '0' ∨ c = '₀' then some .niladic
  else if c = '1' ∨ c = '₁' then some .monadic
  else if c = '2' ∨ c = '₂' then some .dyadic
  else none

def bindingSpelling : Option Arity → String
  | none => "←"
  | some .niladic => "←₀"
  | some .monadic => "←₁"
  | some .dyadic => "←₂"

/-- The length of the numeral at the head of a text: digits, then a point if more digits follow
it. -/
def numeralLength (text : List Char) : Nat :=
  let whole := (text.takeWhile Char.isDigit).length
  match text.drop whole with
  | '.' :: rest =>
    let fraction := (rest.takeWhile Char.isDigit).length
    if fraction = 0 then whole else whole + 1 + fraction
  | _ => whole

/-- How many characters a number takes after its first one, which may be a negation mark. -/
def numberExtent? (c : Char) (rest : List Char) : Option Nat :=
  if c = highMinus ∨ c = backtick then
    if (rest.takeWhile Char.isDigit).isEmpty then none else some (numeralLength rest)
  else if c.isDigit then some (numeralLength (c :: rest) - 1)
  else none

def tokenKind : GlyphKind → TokenKind
  | .dyadicFunction => .dyadicFunction
  | .monadicModifier => .monadicModifier
  | .dyadicModifier => .dyadicModifier
  | .monadicFunction | .punctuation => .monadicFunction

def ofGlyph (glyph : Glyph) (extent : Nat) : Lexeme :=
  ⟨tokenKind glyph.kind, String.singleton glyph.symbol, extent⟩

/-- The glyph spelled at the head of a run of letters: three letters are tried before two. -/
def spelled? (run : List Char) : Option (Nat × Glyph) :=
  ([3, 2].filter (· ≤ run.length)).findSome? fun n =>
    (Glyph.ofAscii? (String.ofList (run.take n))).map (n, ·)

/-- Numbers and glyphs, which need no separation from each other. -/
def word (c : Char) (rest : List Char) : Except LexFault Lexeme :=
  match numberExtent? c rest with
  | some extent => .ok (verbatim .number (if c = backtick then highMinus else c) rest extent)
  | none =>
    if c.isLower then
      let run := (c :: rest).takeWhile Char.isLower
      match spelled? run with
      | some (length, glyph) => .ok (ofGlyph glyph (length - 1))
      | none => .error (.unknownAscii (String.ofList run))
    else
      match Glyph.ofSymbol? (if c = backtick then highMinus else c) with
      | some glyph =>
        if glyph.kind = .punctuation then .error (.unknownGlyph c) else .ok (ofGlyph glyph 0)
      | none => .error (.unknownGlyph c)

def quoted (kind : TokenKind) (c : Char) (rest : List Char) (extent : Option Nat) :
    Except LexFault Lexeme :=
  match extent with
  | some extent => .ok (verbatim kind c rest extent)
  | none => .error (.unrecognized (String.ofList ((c :: rest).take shownLength)))

def lexeme (c : Char) (rest : List Char) : Except LexFault Lexeme :=
  if c = '\x22' then quoted .string c rest (stringExtent? rest)
  else if c = '\x27' then quoted .character c rest (characterExtent? rest)
  else if c.isUpper then .ok (verbatim .identifier c rest (rest.takeWhile Char.isAlpha).length)
  else if c = '#' then .ok (verbatim .comment c rest (rest.takeWhile (· ≠ '\n')).length)
  else if isBlank c then .ok (verbatim .whitespace c rest (rest.takeWhile isBlank).length)
  else if c = '\n' then .ok ⟨.newline, "\n", 0⟩
  else if c = '(' then .ok ⟨.openParen, "(", 0⟩
  else if c = ')' then .ok ⟨.closeParen, ")", 0⟩
  else if c = '[' then .ok ⟨.openArray, "[", 0⟩
  else if c = ']' then .ok ⟨.closeArray, "]", 0⟩
  else if c = '⟨' ∨ c = '\x7b' then .ok ⟨.openList, "⟨", 0⟩
  else if c = '⟩' ∨ c = '\x7d' then .ok ⟨.closeList, "⟩", 0⟩
  else if c = '⋄' ∨ c = ';' then .ok ⟨.separator, "⋄", 0⟩
  else if c = '‿' ∨ c = '_' then .ok ⟨.ligature, "‿", 0⟩
  else if c = '←' ∨ c = ':' then
    let arity := rest.head?.bind declaredArity?
    .ok ⟨.binding arity, bindingSpelling arity, if arity.isSome then 1 else 0⟩
  else word c rest

def lineAfter (c : Char) (line : Nat) : Nat := if c = '\n' then line + 1 else line

/-- Scans a text of which `skip` characters still belong to the lexeme read last. -/
def tokensFrom (line skip : Nat) : List Char → Except LexError (List Token)
  | [] => .ok []
  | c :: rest =>
    match skip with
    | skip + 1 => tokensFrom (lineAfter c line) skip rest
    | 0 => do
      let found ← atLine line (lexeme c rest)
      let tokens ← tokensFrom (lineAfter c line) found.extent rest
      return ⟨found.kind, found.image, line⟩ :: tokens

end Scan

def scan (source : String) : Except LexError (List Token) :=
  Scan.tokensFrom 1 0 source.toList

end Tacit
