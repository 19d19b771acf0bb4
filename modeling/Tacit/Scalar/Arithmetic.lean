import Tacit.Number.Integer
import Tacit.Value

/-! Arithmetic on numbers and characters. A number added to a character moves it along the code
points, and the difference of two characters is their distance. -/
namespace Tacit.Arithmetic

def mismatch (action : String) (x y : Value) : Fault :=
  .typeError (.binary action x.kind y.kind)

def onNumbers (action : String) (op : Float → Float → Float) : (x y : Value) → Result Value
  | .number a, .number b => .ok (.number (op a b))
  | x, y => .error (mismatch action x y)

def onNumber (action : String) (op : Float → Float) (x : Value) : Result Value := do
  return .number (op (← x.expectNumber action))

def codePoint (c : Char) : Float := Number.ofNat c.toNat

def character? (code : Int) : Option Char :=
  if 0 ≤ code ∧ code.toNat.isValidChar then some (Char.ofNat code.toNat) else none

def shift (c : Char) (offset : Float) : Result Value := do
  let code ← Number.toInteger (codePoint c + offset)
  match character? code with
  | some c => return .character c
  | none => throw (.invalidArgument (.noCharacter code))

def add : (x y : Value) → Result Value
  | .number a, .number b => .ok (.number (a + b))
  | .character c, .number n | .number n, .character c => shift c n
  | x, y => .error (mismatch "add" x y)

def subtract : (x y : Value) → Result Value
  | .number a, .number b => .ok (.number (a - b))
  | .character c, .number n => shift c (-n)
  | .character c, .character d => .ok (.number (codePoint c - codePoint d))
  | x, y => .error (mismatch "subtract" x y)

def maximum : (x y : Value) → Result Value
  | .number a, .number b => .ok (.number (Number.maximum a b))
  | .character c, .character d => .ok (.character (if c ≤ d then d else c))
  | x, y => .error (mismatch "take the maximum of" x y)

def minimum : (x y : Value) → Result Value
  | .number a, .number b => .ok (.number (Number.minimum a b))
  | .character c, .character d => .ok (.character (if c ≤ d then c else d))
  | x, y => .error (mismatch "take the minimum of" x y)

/-- Half-way numbers round up. -/
def round (x : Float) : Float := (x + 0.5).floor

def complement (x : Float) : Float := 1 - x

end Tacit.Arithmetic
