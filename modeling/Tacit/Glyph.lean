import Tacit.Primitive
import Tacit.Modifier

/-! The table of glyphs: each symbol of the language with its ASCII spelling, its name and what it
stands for. Only glyphs that stand for a function or a modifier can be written by their letters. -/
namespace Tacit

inductive Meaning where
  | function (primitive : Primitive)
  | modifier (modifier : Modifier)
  | punctuation
  deriving DecidableEq

structure Glyph where
  symbol : Char
  ascii : String
  name : String
  meaning : Meaning

inductive GlyphKind where
  | monadicFunction
  | dyadicFunction
  | monadicModifier
  | dyadicModifier
  | punctuation
  deriving DecidableEq

def GlyphKind.name : GlyphKind → String
  | .monadicFunction => "monadic function"
  | .dyadicFunction => "dyadic function"
  | .monadicModifier => "monadic modifier"
  | .dyadicModifier => "dyadic modifier"
  | .punctuation => "syntax"

def Meaning.kind : Meaning → GlyphKind
  | .function f => if f.arity = .dyadic then .dyadicFunction else .monadicFunction
  | .modifier m => if m.arity = .dyadic then .dyadicModifier else .monadicModifier
  | .punctuation => .punctuation

namespace Glyph

def kind (glyph : Glyph) : GlyphKind := glyph.meaning.kind

def table : List Glyph :=
  [⟨'=', "eq", "equal", .function .equal⟩,
   ⟨'≠', "ne", "not equal", .function .notEqual⟩,
   ⟨'>', "grt", "greater than", .function .greater⟩,
   ⟨'≥', "gte", "greater or equal", .function .greaterEqual⟩,
   ⟨'<', "les", "less than", .function .less⟩,
   ⟨'≤', "lte", "less or equal", .function .lessEqual⟩,
   ⟨'⊣', "lft", "left argument", .function .left⟩,
   ⟨'⊢', "rgt", "right argument", .function .right⟩,
   ⟨'⋅', "id", "identity", .function .identity⟩,
   ⟨'+', "add", "add", .function .add⟩,
   ⟨'-', "sub", "subtract", .function .subtract⟩,
   ⟨'×', "mul", "multiply", .function .multiply⟩,
   ⟨'÷', "div", "divide", .function .divide⟩,
   ⟨'%', "mod", "modulo", .function .modulo⟩,
   ⟨'*', "pow", "power", .function .power⟩,
   ⟨'↥', "max", "maximum", .function .maximum⟩,
   ⟨'↧', "min", "minimum", .function .minimum⟩,
   ⟨'¯', "ng", "negate", .function .negate⟩,
   ⟨'¬', "not", "not", .function .complement⟩,
   ⟨'|', "abs", "absolute value", .function .absolute⟩,
   ⟨'⌊', "flo", "floor", .function .floor⟩,
   ⟨'⁅', "rou", "round", .function .round⟩,
   ⟨'⌈', "cei", "ceiling", .function .ceiling⟩,
   ⟨'≡', "mat", "match", .function .same⟩,
   ⟨'≢', "nmt", "nomatch", .function .different⟩,
   ⟨'⍳', "iot", "iota", .function .iota⟩,
   ⟨'⧻', "len", "length", .function .length⟩,
   ⟨'△', "sha", "shape", .function .shape⟩,
   ⟨',', "fla", "flat", .function .flat⟩,
   ⟨'⍮', "par", "pair", .function .pair⟩,
   ⟨'⍪', "cat", "catenate", .function .catenate⟩,
   ⟨'⍴', "res", "reshape", .function .reshape⟩,
   ⟨'⊏', "sel", "select", .function .select⟩,
   ⟨'⊑', "pic", "pick", .function .pick⟩,
   ⟨'¨', "eac", "each", .modifier .each⟩,
   ⟨'˜', "bac", "backwards", .modifier .backwards⟩,
   ⟨'˙', "slf", "self", .modifier .selfApply⟩,
   ⟨'/', "red", "reduce", .modifier .reduce⟩,
   ⟨'\\', "sca", "scan", .modifier .scan⟩,
   ⟨'∘', "jot", "atop", .modifier .atop⟩,
   ⟨'○', "ov", "over", .modifier .over⟩,
   ⟨'[', "[", "open array", .punctuation⟩,
   ⟨']', "]", "close array", .punctuation⟩,
   ⟨'(', "(", "open parenthesis", .punctuation⟩,
   ⟨')', ")", "close parenthesis", .punctuation⟩,
   ⟨'⟨', "\x7b", "open list", .punctuation⟩,
   ⟨'⟩', "\x7d", "close list", .punctuation⟩,
   ⟨'⋄', ";", "separator", .punctuation⟩,
   ⟨'←', ":", "binding", .punctuation⟩,
   ⟨'‿', "_", "ligature", .punctuation⟩]

def ofSymbol? (symbol : Char) : Option Glyph :=
  table.find? (·.symbol = symbol)

/-- The glyph spelled by these letters; punctuation has no such spelling. -/
def ofAscii? (ascii : String) : Option Glyph :=
  table.find? fun glyph => glyph.meaning ≠ .punctuation ∧ glyph.ascii = ascii

end Glyph

end Tacit
