/-! Double-precision numbers seen through their bits: the top bit is the sign, and the other 63 are
the magnitude, a natural number that grows with the size of the number. Comparison, rounding and
conversion are exact computations on magnitudes. -/
namespace Tacit.Number

/-- How many magnitudes share one exponent. -/
def binade : Nat := Nat.pow 2 52

def signBit : Nat := Nat.pow 2 63

/-- The magnitude of the infinities; a larger one belongs to a NaN. -/
def infinite : Nat := 2047 * binade

def magnitude (x : Float) : Nat := x.toBits.toNat % signBit

def isNegative (x : Float) : Bool := signBit ≤ x.toBits.toNat

def ofMagnitude (negative : Bool) (m : Nat) : Float :=
  Float.ofBits (UInt64.ofNat (if negative then signBit + m else m))

def isNaN (x : Float) : Bool := infinite < magnitude x

def isFinite (x : Float) : Bool := magnitude x < infinite

/-- How many units of `2 ^ -1074`, the smallest positive double, make up a magnitude. -/
def units (m : Nat) : Nat :=
  if m < binade then m else (binade + m % binade) * Nat.pow 2 (m / binade - 1)

def oneUnits : Nat := Nat.pow 2 1074

def magnitudeBelow (n : Nat) : Nat :=
  let shift := n.log2 - 52
  n / Nat.pow 2 shift + shift * binade

/-- The magnitude nearest to `num / den` units. Of two equally near ones it is the even one, and
whatever lies beyond the finite magnitudes is infinite. -/
def nearest (num den : Nat) : Nat :=
  let m := magnitudeBelow (num / den)
  let middle := (units m + units (m + 1)) * den
  let rounded :=
    if 2 * num < middle then m
    else if middle < 2 * num then m + 1
    else if m % 2 = 0 then m else m + 1
  min rounded infinite

def ofNat (n : Nat) : Float := ofMagnitude false (nearest (n * oneUnits) 1)

def ofBool (b : Bool) : Float := if b then 1 else 0

/-- Where a number stands on the line of doubles; the two zeros stand at one place and a NaN at
none. -/
def position (x : Float) : Option Int :=
  if isNaN x then none
  else some (if isNegative x then -(magnitude x : Int) else magnitude x)

/-- Numerical equality: the zeros are equal and a NaN equals nothing. -/
def equal (x y : Float) : Bool :=
  match position x, position y with
  | some a, some b => a = b
  | _, _ => false

/-- The total order of numbers, in which a NaN equals itself and exceeds all else. -/
def order (x y : Float) : Ordering :=
  match position x, position y with
  | some a, some b => compare a b
  | some _, none => .lt
  | none, some _ => .gt
  | none, none => .eq

/-- The larger number; a NaN gives way to any number. -/
def maximum (x y : Float) : Float :=
  if isNaN x then y else if isNaN y then x else if order x y = .lt then y else x

def minimum (x y : Float) : Float :=
  if isNaN x then y else if isNaN y then x else if order x y = .gt then y else x

/-- The remainder with the sign of the divisor, each step rounded. -/
def modulo (x y : Float) : Float := x - y * (x / y).floor

end Tacit.Number
