import Mathlib
import Tacit.Proofs.Lexemes
import Tacit.Node.Rule
import Tacit.Value.Display

/-! Numerals. The text of a finite number is a numeral, and it reads back as the number. Of the shorter
texts this is what they are chosen for; the text of all digits denotes the number exactly, and the
nearest magnitude to a magnitude is itself. -/
namespace Tacit.Number

theorem binade_pos : 0 < binade := Nat.two_pow_pos 52

theorem units_of_lt {m : Nat} (small : m < binade) : units m = m := if_pos small

/-- Within an exponent, magnitudes are one power of two apart. -/
theorem units_add_mul (fraction exponent : Nat) (isFraction : fraction < binade) :
    units (fraction + (exponent + 1) * binade) = (binade + fraction) * 2 ^ exponent := by
  have large : ¬ fraction + (exponent + 1) * binade < binade := by
    rw [Nat.add_mul]
    omega
  rw [units, if_neg large, Nat.add_mul_mod_self_right, Nat.mod_eq_of_lt isFraction,
    Nat.add_mul_div_right _ _ binade_pos, Nat.div_eq_of_lt isFraction, Nat.zero_add, Nat.add_sub_cancel]
  rfl

/-- A magnitude is smaller than a binade, or it has an exponent and a fraction. -/
theorem cases_magnitude (m : Nat) :
    m < binade ∨ ∃ fraction exponent, fraction < binade ∧ m = fraction + (exponent + 1) * binade := by
  by_cases small : m < binade
  · exact .inl small
  · refine .inr ⟨m % binade, m / binade - 1, Nat.mod_lt m binade_pos, ?_⟩
    have positive : 0 < m / binade := Nat.div_pos (by omega) binade_pos
    rw [Nat.sub_add_cancel positive, Nat.mul_comm, Nat.mod_add_div]

theorem units_lt_units_succ (m : Nat) : units m < units (m + 1) := by
  rcases cases_magnitude m with small | ⟨fraction, exponent, isFraction, rfl⟩
  · by_cases last : m + 1 < binade
    · rw [units_of_lt small, units_of_lt last]
      omega
    · have first : units (m + 1) = (binade + 0) * 2 ^ 0 := by
        rw [← units_add_mul 0 0 binade_pos]
        congr 1
        omega
      rw [units_of_lt small, first]
      omega
  · have power : 0 < 2 ^ exponent := Nat.two_pow_pos exponent
    rw [units_add_mul fraction exponent isFraction]
    by_cases last : fraction + 1 < binade
    · have next : units (fraction + (exponent + 1) * binade + 1) = (binade + (fraction + 1)) * 2 ^ exponent := by
        rw [← units_add_mul (fraction + 1) exponent last]
        congr 1
        omega
      rw [next]
      exact Nat.mul_lt_mul_of_pos_right (by omega) power
    · have next : units (fraction + (exponent + 1) * binade + 1) = (binade + 0) * 2 ^ (exponent + 1) := by
        rw [← units_add_mul 0 (exponent + 1) binade_pos, Nat.add_mul (exponent + 1)]
        congr 1
        omega
      rw [next, Nat.pow_succ', ← Nat.mul_assoc]
      exact Nat.mul_lt_mul_of_pos_right (by omega) power

theorem magnitudeBelow_units (m : Nat) : magnitudeBelow (units m) = m := by
  rcases cases_magnitude m with small | ⟨fraction, exponent, isFraction, rfl⟩
  · have short : m.log2 ≤ 52 := by
      by_cases zero : m = 0
      · simp [zero]
      · exact Nat.le_of_lt ((Nat.log2_lt zero).mpr small)
    rw [units_of_lt small, magnitudeBelow, Nat.sub_eq_zero_of_le short]
    simp
  · have power : 0 < 2 ^ exponent := Nat.two_pow_pos exponent
    have length : ((binade + fraction) * 2 ^ exponent).log2 = 52 + exponent := by
      have positive : 0 < (binade + fraction) * 2 ^ exponent := Nat.mul_pos (by omega) power
      refine (Nat.log2_eq_iff (by omega)).mpr ⟨?_, ?_⟩
      · rw [Nat.pow_add]
        exact Nat.mul_le_mul_right _ (Nat.le_add_right binade fraction)
      · rw [show 52 + exponent + 1 = 53 + exponent by omega, Nat.pow_add]
        refine Nat.mul_lt_mul_of_pos_right ?_ power
        change binade + fraction < 2 * binade
        omega
    rw [units_add_mul fraction exponent isFraction, magnitudeBelow, length, Nat.add_sub_cancel_left,
      show Nat.pow 2 exponent = 2 ^ exponent from rfl, Nat.mul_div_cancel _ power]
    rw [Nat.add_mul]
    omega

/-- What is exactly a magnitude is nearest to it. -/
theorem nearest_units {m den : Nat} (positive : 0 < den) (finite : m ≤ infinite) :
    nearest (units m * den) den = m := by
  have below : 2 * (units m * den) < (units m + units (m + 1)) * den := by
    rw [← Nat.mul_assoc]
    apply Nat.mul_lt_mul_of_pos_right _ positive
    have next := units_lt_units_succ m
    omega
  rw [nearest, Nat.mul_div_cancel _ positive, magnitudeBelow_units, if_pos below, Nat.min_eq_left finite]

/-- A text without an exponent is digits, or digits around a point that say the same number. -/
theorem positional_cases (digits : Nat) (exponent : Int) :
    (-exponent).toNat = 0 ∧ Digits (positional digits exponent) ∨
      ∃ whole fraction, positional digits exponent = whole ++ '.' :: fraction ∧ Digits whole ∧ Digits fraction ∧
        fraction.length = (-exponent).toNat ∧
        Nat.ofDigitChars 10 (whole ++ fraction) 0 = digits * 10 ^ exponent.toNat := by
  let written := Nat.toDigits 10 digits ++ List.replicate exponent.toNat '0'
  have isWritten : Digits written := by
    refine ⟨by simp [written], fun c member => ?_⟩
    rcases List.mem_append.mp member with member | member
    · exact Nat.isDigit_of_mem_toDigits (by omega) (by omega) member
    · rw [List.eq_of_mem_replicate member]
      rfl
  by_cases unscaled : (-exponent).toNat = 0
  · left
    have plain : positional digits exponent = written := if_pos unscaled
    exact ⟨unscaled, plain ▸ isWritten⟩
  · right
    let padded := List.replicate ((-exponent).toNat + 1 - written.length) '0' ++ written
    have long : (-exponent).toNat < padded.length := by
      simp only [padded, List.length_append, List.length_replicate]
      omega
    have isPadded : ∀ c ∈ padded, c.isDigit = true := by
      intro c member
      rcases List.mem_append.mp member with member | member
      · rw [List.eq_of_mem_replicate member]
        rfl
      · exact isWritten.all c member
    refine ⟨padded.take (padded.length - (-exponent).toNat), padded.drop (padded.length - (-exponent).toNat),
      if_neg unscaled, ⟨?_, ?_⟩, ⟨?_, ?_⟩, ?_, ?_⟩
    · apply List.ne_nil_of_length_pos
      rw [List.length_take]
      omega
    · exact fun c member => isPadded c (List.mem_of_mem_take member)
    · apply List.ne_nil_of_length_pos
      rw [List.length_drop]
      omega
    · exact fun c member => isPadded c (List.mem_of_mem_drop member)
    · rw [List.length_drop]
      omega
    · rw [List.take_append_drop, Nat.ofDigitChars_append, Nat.ofDigitChars_replicate_zero, Nat.mul_zero,
        Nat.ofDigitChars_append, Nat.ofDigitChars_toDigits (by omega) (by omega),
        Nat.ofDigitChars_replicate_zero, Nat.mul_comm]

theorem numeral_positional (digits : Nat) (exponent : Int) : Numeral (positional digits exponent) := by
  rcases positional_cases digits exponent with ⟨-, isWhole⟩ | ⟨whole, fraction, isText, isWhole, isFraction, -, -⟩
  · exact .whole isWhole
  · rw [isText]
    exact .fraction isWhole isFraction

theorem numeral?_fraction {whole fraction : List Char} (isWhole : Digits whole) (isFraction : Digits fraction) :
    numeral? (whole ++ '.' :: fraction) =
      some (decimalMagnitude (Nat.ofDigitChars 10 (whole ++ fraction) 0) (-(fraction.length : Int))) := by
  have taken : (whole ++ '.' :: fraction).takeWhile Char.isDigit = whole := by
    rw [List.takeWhile_append_of_pos isWhole.all]
    simp
  have left : (whole ++ '.' :: fraction).dropWhile Char.isDigit = '.' :: fraction := by
    rw [List.dropWhile_append_of_pos isWhole.all]
    simp
  have takenAll : fraction.takeWhile Char.isDigit = fraction := List.takeWhile_eq_self_iff.mpr isFraction.all
  have leftNone : fraction.dropWhile Char.isDigit = [] := List.dropWhile_eq_nil_iff.mpr isFraction.all
  have some : whole ++ fraction ≠ [] := by simp [isWhole.nonempty]
  simp only [numeral?, taken, left, takenAll, leftNone, some, if_false, Int.zero_sub]

theorem units_pos {m : Nat} (positive : 0 < m) : 0 < units m := by
  rcases cases_magnitude m with small | ⟨fraction, exponent, isFraction, rfl⟩
  · rwa [units_of_lt small]
  · rw [units_add_mul fraction exponent isFraction]
    exact Nat.mul_pos (Nat.add_pos_left binade_pos fraction) (Nat.two_pow_pos exponent)

/-- A unit is a power of two, and so a power of five in as many decimal places. -/
theorem decimalMagnitude_units {m places : Nat} (isUnit : oneUnits = 2 ^ places) (positive : 0 < m)
    (finite : m ≤ infinite) : decimalMagnitude (units m * 5 ^ places) (-(places : Int)) = m := by
  have some : 0 < units m := units_pos positive
  have powers : 2 ^ places ≤ 5 ^ places := Nat.pow_le_pow_left (by omega) places
  have nonzero : units m * 5 ^ places ≠ 0 := (Nat.mul_pos some (Nat.pow_pos (by omega))).ne'
  have large : places ≤ (units m * 5 ^ places).log2 :=
    (Nat.le_log2 nonzero).mpr (powers.trans (Nat.le_mul_of_pos_left _ some))
  have exact : units m * 5 ^ places * Nat.pow 10 (-(places : Int)).toNat * oneUnits = units m * 10 ^ places := by
    rw [show (-(places : Int)).toNat = 0 by omega, isUnit]
    change units m * 5 ^ places * 1 * 2 ^ places = _
    rw [Nat.mul_one, Nat.mul_assoc, ← Nat.mul_pow]
  rw [decimalMagnitude, if_neg nonzero, if_neg (by omega), if_neg (by omega), exact, Int.neg_neg, Int.toNat_natCast]
  exact nearest_units (Nat.pow_pos (by omega)) finite

theorem numeral?_expansion {m : Nat} (positive : 0 < m) (finite : m ≤ infinite) :
    numeral? (expansion m) = some m := by
  have isUnit : oneUnits = Nat.pow 2 1074 := by
    delta oneUnits
    with_reducible rfl
  have scaled : 0 < 1074 := by omega
  rw [expansion, show (-1074 : Int) = -((1074 : Nat) : Int) from rfl]
  -- The argument does not depend on how many places there are.
  generalize 1074 = places at isUnit scaled ⊢
  rw [Nat.pow_eq] at isUnit ⊢
  rcases positional_cases (units m * 5 ^ places) (-(places : Int)) with
    ⟨unscaled, -⟩ | ⟨whole, fraction, isText, isWhole, isFraction, isLength, isDigits⟩
  · omega
  · have length : fraction.length = places := by omega
    have digits : Nat.ofDigitChars 10 (whole ++ fraction) 0 = units m * 5 ^ places := by
      rw [isDigits, show (-(places : Int)).toNat = 0 by omega, Nat.pow_zero, Nat.mul_one]
    rw [isText, numeral?_fraction isWhole isFraction, length, digits, decimalMagnitude_units isUnit positive finite]

/-- The shortest text is one of those tried, if one of them reads back. -/
theorem shortest_cases (m : Nat) :
    shortest m ∈ candidates m ∧ numeral? (shortest m) = some m ∨ shortest m = expansion m := by
  rw [shortest]
  generalize expansion m = all
  generalize candidates m = texts
  cases found : texts.find? fun text => numeral? text = some m with
  | none => exact .inr (Option.getD_none)
  | some text =>
    exact .inl ⟨List.mem_of_find?_eq_some found, by simpa using List.find?_some found⟩

theorem numeral_of_mem_neighbours {size : Nat} {exponent : Int} {text : List Char}
    (member : text ∈ neighbours size exponent) : Numeral text := by
  unfold neighbours at member
  dsimp only at member
  split at member <;> rcases List.mem_pair.mp member with rfl | rfl <;> exact numeral_positional _ exponent

theorem numeral_shortest (m : Nat) : Numeral (shortest m) := by
  rcases shortest_cases m with ⟨tried, -⟩ | isExpansion
  · obtain ⟨step, -, member⟩ := List.mem_flatMap.mp tried
    exact numeral_of_mem_neighbours member
  · rw [isExpansion, expansion]
    exact numeral_positional _ _

theorem numeral?_shortest {m : Nat} (positive : 0 < m) (finite : m ≤ infinite) : numeral? (shortest m) = some m := by
  rcases shortest_cases m with ⟨-, reads⟩ | isExpansion
  · exact reads
  · rw [isExpansion]
    exact numeral?_expansion positive finite

theorem splitSign_of_isDigit {d : Char} (isDigit : d.isDigit = true) (more : List Char) :
    splitSign (d :: more) = (false, d :: more) := by
  unfold splitSign
  split
  · rename_i same
    obtain ⟨rfl, -⟩ := List.cons.inj same
    cases isDigit
  · rename_i same
    obtain ⟨rfl, -⟩ := List.cons.inj same
    cases isDigit
  · rfl

theorem splitSign_minus (body : List Char) : splitSign ('-' :: body) = (true, body) := rfl

/-- A text that begins with a digit is no name of infinity or of what is no number. -/
theorem ofText?_of_splitSign {text body : List Char} {negative : Bool} (numeral : Numeral body)
    (splits : splitSign text = (negative, body)) : ofText? text = (numeral? body).map (ofMagnitude negative) := by
  obtain ⟨d, more, rfl, isDigit⟩ := numeral.exists_cons
  have lower : d.toLower = d := Char.toLower_eq_of_not_isUpper (by simp [Scan.isUpper_of_isDigit isDigit])
  have unnamed (name : String) (named : name.toList.head?.all (!Char.isDigit ·) = true) :
      String.ofList ((d :: more).map Char.toLower) ≠ name := by
    rintro rfl
    simp [lower, isDigit] at named
  have noInf := unnamed "inf" rfl
  have noInfinity := unnamed "infinity" rfl
  have noNaN := unnamed "nan" rfl
  simp only [ofText?, splits, noInf, noInfinity, noNaN, or_self, if_false]

theorem ofText?_of_numeral {digits : List Char} (numeral : Numeral digits) :
    ofText? digits = (numeral? digits).map (ofMagnitude false) := by
  obtain ⟨d, more, rfl, isDigit⟩ := numeral.exists_cons
  exact ofText?_of_splitSign numeral (splitSign_of_isDigit isDigit more)

/-- A number is its sign and its magnitude. -/
theorem ofMagnitude_magnitude (x : Float) : ofMagnitude (isNegative x) (magnitude x) = x := by
  have bits : (if isNegative x then signBit + magnitude x else magnitude x) = x.toBits.toNat := by
    have bound : x.toBits.toNat < 2 * signBit := x.toBits.toNat_lt
    simp only [isNegative, magnitude, decide_eq_true_eq]
    split
    · rename_i negative
      rw [Nat.mod_eq_sub_mod negative, Nat.mod_eq_of_lt (by omega)]
      omega
    · rename_i positive
      exact Nat.mod_eq_of_lt (by omega)
  rw [ofMagnitude, bits, UInt64.ofNat_toNat, Float.ofBits_toBits]

theorem noNaN_of_finite {x : Float} (finite : isFinite x = true) : isNaN x = false := by
  simp only [isFinite, isNaN, decide_eq_true_eq, decide_eq_false_iff_not] at finite ⊢
  omega

theorem equal_self {x : Float} (finite : isFinite x = true) : equal x x = true := by
  simp [equal, position, noNaN_of_finite finite]

theorem equal_of_zero {x y : Float} (zero : magnitude x = 0) (zero' : magnitude y = 0) : equal x y = true := by
  have finite {x : Float} (zero : magnitude x = 0) : isFinite x = true := by
    rw [isFinite, zero]
    exact decide_eq_true (Nat.mul_pos (by omega) binade_pos)
  simp [equal, position, noNaN_of_finite (finite zero), noNaN_of_finite (finite zero'), zero, zero']

/-- A finite number is written as a zero, or as its magnitude behind a mark if it is negative. -/
theorem text_of_finite {x : Float} (finite : isFinite x = true) :
    magnitude x = 0 ∧ text x = ['0'] ∨ 0 < magnitude x ∧
      text x = if isNegative x then '¯' :: shortest (magnitude x) else shortest (magnitude x) := by
  rw [text, noNaN_of_finite finite]
  by_cases zero : magnitude x = 0
  · exact .inl ⟨zero, by simp [zero]⟩
  · exact .inr ⟨Nat.pos_of_ne_zero zero, by simp [zero, finite]⟩

theorem numeral_zero : Numeral ['0'] := .whole ⟨by simp, by simp⟩

theorem spelling_text {x : Float} (finite : isFinite x = true) :
    Spelling .number (text x) (String.ofList (text x)) := by
  rcases text_of_finite finite with ⟨-, isText⟩ | ⟨-, isText⟩ <;> rw [isText]
  · exact .verbatim (.number numeral_zero)
  · split
    · exact .negative (.inl rfl) (numeral_shortest _)
    · exact .verbatim (.number (numeral_shortest _))

theorem head_text {x : Float} (finite : isFinite x = true) :
    ∃ c more, text x = c :: more ∧ (c.isDigit = true ∨ c = '¯') := by
  rcases text_of_finite finite with ⟨-, isText⟩ | ⟨-, isText⟩ <;> rw [isText]
  · exact ⟨'0', [], rfl, .inl rfl⟩
  · split
    · exact ⟨'¯', _, rfl, .inr rfl⟩
    · obtain ⟨d, more, isNumeral, isDigit⟩ := (numeral_shortest (magnitude x)).exists_cons
      exact ⟨d, more, isNumeral, .inl isDigit⟩

theorem map_mark_of_numeral {digits : List Char} (numeral : Numeral digits) :
    (digits.map fun c => if c = '¯' then '-' else c) = digits := by
  have unmarked : ∀ c ∈ digits, c ≠ '¯' := by
    have ofDigits {digits : List Char} (isDigits : Digits digits) : ∀ c ∈ digits, c ≠ '¯' := by
      rintro c member rfl
      cases isDigits.all _ member
    cases numeral with
    | whole isWhole => exact ofDigits isWhole
    | fraction isWhole isFraction =>
      simp only [List.mem_append, List.mem_cons]
      rintro c (member | rfl | member)
      · exact ofDigits isWhole c member
      · decide
      · exact ofDigits isFraction c member
  rw [List.map_congr_left fun c member => if_neg (unmarked c member), List.map_id']

/-- The text of a finite number reads back as it, up to the sign of zero. -/
theorem numberOf_text {x : Float} (finite : isFinite x = true) :
    ∃ y, (∀ line, Rule.numberOf ⟨.number, String.ofList (text x), line⟩ = .ok y) ∧ equal y x = true := by
  have reads {y : Float} (isNumber : ofText? ((text x).map fun c => if c = '¯' then '-' else c) = some y)
      (line : Nat) : Rule.numberOf ⟨.number, String.ofList (text x), line⟩ = .ok y := by
    rw [Rule.numberOf, String.toList_ofList, isNumber]
  rcases text_of_finite finite with ⟨zero, isText⟩ | ⟨positive, isText⟩
  · have isZero : magnitude (ofMagnitude false 0) = 0 := by rfl
    have isNumber : ofText? ((text x).map fun c => if c = '¯' then '-' else c) = some (ofMagnitude false 0) := by
      rw [isText, map_mark_of_numeral numeral_zero, ofText?_of_numeral numeral_zero]
      rfl
    exact ⟨ofMagnitude false 0, reads isNumber, equal_of_zero isZero zero⟩
  · have readsBack := numeral?_shortest positive (Nat.le_of_lt (of_decide_eq_true finite))
    have numeral := numeral_shortest (magnitude x)
    have isNumber : ofText? ((text x).map fun c => if c = '¯' then '-' else c) =
        some (ofMagnitude (isNegative x) (magnitude x)) := by
      rw [isText]
      cases isNegative x with
      | false =>
        rw [if_neg (by simp), map_mark_of_numeral numeral, ofText?_of_numeral numeral, readsBack]
        rfl
      | true =>
        rw [if_pos rfl, List.map_cons, map_mark_of_numeral numeral, if_pos rfl,
          ofText?_of_splitSign numeral (splitSign_minus _), readsBack]
        rfl
    rw [ofMagnitude_magnitude] at isNumber
    exact ⟨x, reads isNumber, equal_self finite⟩

end Tacit.Number
