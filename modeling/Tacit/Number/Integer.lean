import Tacit.Fault
import Tacit.Number.Double

/-! Numbers used as integers: sizes, indices and character codes. All conversions are exact, and
refuse integers beyond those that every double up to them represents. -/
namespace Tacit.Number

/-- The largest integer with all smaller ones representable. -/
def maxSafe : Nat := Nat.pow 2 53 - 1

def toInteger (x : Float) : Result Int :=
  let size := units (magnitude x)
  if isNaN x then .error (.invalidArgument (.notFinite .nan))
  else if ¬ isFinite x then
    .error (.invalidArgument (.notFinite (if isNegative x then .negativeInfinity else .infinity)))
  else if maxSafe * oneUnits < size then .error .tooLarge
  else if size % oneUnits ≠ 0 then .error .fractional
  else
    let whole : Int := size / oneUnits
    .ok (if isNegative x then -whole else whole)

def toSize (x : Float) : Result Nat := do
  let n ← toInteger x
  if n < 0 then throw (.invalidArgument (.negative n))
  return n.toNat

def ofSize (n : Nat) : Result Float :=
  if n ≤ maxSafe then .ok (ofNat n) else .error .tooLarge

def maxLength : Nat := Nat.pow 2 63 - 1

/-- The position that an index means on an axis; negative ones count from its end. -/
def axisPosition (index : Int) (length : Nat) : Result Nat :=
  if maxLength < length then .error .tooLarge
  else
    let position := if index < 0 then index + length else index
    if position < 0 ∨ (length : Int) ≤ position then .error (.indexOutOfBounds index length)
    else .ok position.toNat

end Tacit.Number
