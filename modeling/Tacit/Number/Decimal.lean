import Tacit.Number.Double

/-! Decimal numerals and the doubles they denote. A numeral is read exactly and rounded once, to
the nearest double. -/
namespace Tacit.Number

/-- The magnitude nearest to `digits * 10 ^ exponent`. Exponents so large that only the overflow or
the underflow remains are answered without the power of ten. -/
def decimalMagnitude (digits : Nat) (exponent : Int) : Nat :=
  if digits = 0 then 0
  else if 400 < exponent then infinite
  else if exponent + digits.log2 < -400 then 0
  else nearest (digits * Nat.pow 10 exponent.toNat * oneUnits) (Nat.pow 10 (-exponent).toNat)

def splitSign : List Char → Bool × List Char
  | '-' :: rest => (true, rest)
  | '+' :: rest => (false, rest)
  | text => (false, text)

def exponent? (text : List Char) : Option Int :=
  let (negative, digits) := splitSign text
  if digits = [] ∨ ¬ digits.all Char.isDigit then none
  else
    let size : Int := Nat.ofDigitChars 10 digits 0
    some (if negative then -size else size)

/-- Reads a whole text as an unsigned numeral: digits with an optional point, at least one digit,
and an optional exponent. The answer is the nearest magnitude. -/
def numeral? (text : List Char) : Option Nat :=
  let whole := text.takeWhile Char.isDigit
  let afterWhole := text.dropWhile Char.isDigit
  let (fraction, tail) :=
    match afterWhole with
    | '.' :: rest => (rest.takeWhile Char.isDigit, rest.dropWhile Char.isDigit)
    | rest => ([], rest)
  let digits := whole ++ fraction
  if digits = [] then none
  else
    let scaled (exponent : Int) :=
      decimalMagnitude (Nat.ofDigitChars 10 digits 0) (exponent - fraction.length)
    match tail with
    | [] => some (scaled 0)
    | mark :: rest => if mark = 'e' ∨ mark = 'E' then (exponent? rest).map scaled else none

/-- Reads a whole text as a number. Besides signed numerals these are the names of infinity and
NaN, in either case. -/
def ofText? (text : List Char) : Option Float :=
  let (negative, body) := splitSign text
  let name := String.ofList (body.map Char.toLower)
  if name = "inf" ∨ name = "infinity" then some (ofMagnitude negative infinite)
  else if name = "nan" then some (ofMagnitude negative (infinite + binade / 2))
  else (numeral? body).map (ofMagnitude negative)

end Tacit.Number
