import Tacit.Number.Decimal

/-! The shortest decimal text of a double: the fewest digits that read back as the same number,
nearest to it among those, and always positional. -/
namespace Tacit.Number

/-- Writes `digits * 10 ^ exponent` without an exponent. -/
def positional (digits : Nat) (exponent : Int) : List Char :=
  let places := (-exponent).toNat
  let written := Nat.toDigits 10 digits ++ List.replicate exponent.toNat '0'
  let padded := List.replicate (places + 1 - written.length) '0' ++ written
  let split := padded.length - places
  if places = 0 then written else padded.take split ++ '.' :: padded.drop split

/-- The two multiples of `10 ^ exponent` around a number of units, the nearer one first and the
upper one first when they are equally near. -/
def neighbours (size : Nat) (exponent : Int) : List (List Char) :=
  let num := size * Nat.pow 10 (-exponent).toNat
  let den := oneUnits * Nat.pow 10 exponent.toNat
  let below := positional (num / den) exponent
  let above := positional (num / den + 1) exponent
  if 2 * (num % den) < den then [below, above] else [above, below]

/-- An exponent of ten that is at least the number's own, and at most two above it. -/
def leadingExponent (size : Nat) : Int :=
  ((size.log2 : Int) - 1073) * 30103 / 100000 + 1

/-- The texts tried for a magnitude: the neighbours on ever finer decimal grids, down to seventeen
significant digits. -/
def candidates (m : Nat) : List (List Char) :=
  (List.range 20).flatMap fun step =>
    neighbours (units m) (leadingExponent (units m) - Int.ofNat step)

def expansion (m : Nat) : List Char :=
  positional (units m * Nat.pow 5 1074) (-1074)

def shortest (m : Nat) : List Char :=
  ((candidates m).find? fun text => numeral? text = some m).getD (expansion m)

end Tacit.Number
