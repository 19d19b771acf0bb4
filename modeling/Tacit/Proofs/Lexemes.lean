import Mathlib.Data.List.TakeWhile
import Tacit.Proofs.Result
import Tacit.Token.Scan

/-! The lexical grammar. A piece of source text spells a token if it has the form of the token's kind,
and every spelling has a canonical one, the token's image. Scanning cuts a text into pieces that spell
tokens, none of which goes on with the character behind it, and finds every such cut. -/
namespace Tacit

deriving instance DecidableEq for Glyph

namespace Glyph

theorem ofSymbol?_symbol {glyph : Glyph} (listed : glyph ∈ table) : ofSymbol? glyph.symbol = some glyph := by
  revert glyph
  decide +kernel

theorem ofAscii?_ascii {glyph : Glyph} (listed : glyph ∈ table) (spoken : glyph.kind ≠ .punctuation) :
    ofAscii? glyph.ascii = some glyph := by
  revert glyph
  decide +kernel

theorem kind_ne_punctuation {glyph : Glyph} (spoken : glyph.meaning ≠ .punctuation) :
    glyph.kind ≠ .punctuation := by
  unfold kind Meaning.kind
  split
  · split <;> simp
  · split <;> simp
  · contradiction

theorem ofAscii?_eq_some {letters : List Char} {glyph : Glyph}
    (found : ofAscii? (String.ofList letters) = some glyph) :
    glyph ∈ table ∧ glyph.kind ≠ .punctuation ∧ glyph.ascii.toList = letters := by
  have matched := List.find?_some found
  simp only [decide_eq_true_eq] at matched
  refine ⟨List.mem_of_find?_eq_some found, kind_ne_punctuation matched.1, ?_⟩
  rw [matched.2, String.toList_ofList]

/-- The letters of a glyph: two or three in lower case. -/
theorem ascii_letters {glyph : Glyph} (listed : glyph ∈ table) (spoken : glyph.kind ≠ .punctuation) :
    glyph.ascii.toList.all Char.isLower = true ∧
      (glyph.ascii.toList.length = 2 ∨ glyph.ascii.toList.length = 3) := by
  revert glyph
  decide +kernel

/-- The letters of one glyph are never the beginning of those of another. -/
theorem eq_of_ascii_prefix {glyph other : Glyph} (listed : glyph ∈ table) (spoken : glyph.kind ≠ .punctuation)
    (otherListed : other ∈ table) (otherSpoken : other.kind ≠ .punctuation)
    (begins : glyph.ascii.toList <+: other.ascii.toList) : glyph = other := by
  have distinct : ∀ glyph ∈ table, ∀ other ∈ table, glyph.kind ≠ .punctuation → other.kind ≠ .punctuation →
      glyph.ascii.toList <+: other.ascii.toList → glyph = other := by
    decide +kernel
  exact distinct glyph listed other otherListed spoken otherSpoken begins

theorem symbol_ne_point {glyph : Glyph} (listed : glyph ∈ table) : glyph.symbol ≠ '.' := by
  revert glyph
  decide +kernel

end Glyph

/-- A character between quotes: any but the quote and the backslash, or a backslash and the character
that it escapes, which is no newline. -/
inductive QuotedCharacter (quote : Char) : List Char → Prop
  | plain {c : Char} (notQuote : c ≠ quote) (notEscape : c ≠ '\\') : QuotedCharacter quote [c]
  | escaped {c : Char} (sameLine : c ≠ '\n') : QuotedCharacter quote ['\\', c]

inductive QuotedText (quote : Char) : List Char → Prop
  | nil : QuotedText quote []
  | cons {first others : List Char} (head : QuotedCharacter quote first) (tail : QuotedText quote others) :
      QuotedText quote (first ++ others)

structure Digits (text : List Char) : Prop where
  nonempty : text ≠ []
  all : ∀ c ∈ text, c.isDigit = true

/-- Digits, and behind a point more digits. -/
inductive Numeral : List Char → Prop
  | whole {digits : List Char} (isWhole : Digits digits) : Numeral digits
  | fraction {whole fraction : List Char} (isWhole : Digits whole) (isFraction : Digits fraction) :
      Numeral (whole ++ '.' :: fraction)

theorem Numeral.exists_cons {digits : List Char} (numeral : Numeral digits) :
    ∃ d more, digits = d :: more ∧ d.isDigit = true := by
  have ofDigits {digits : List Char} (isDigits : Digits digits) :
      ∃ d more, digits = d :: more ∧ d.isDigit = true := by
    obtain ⟨d, more, rfl⟩ := List.exists_cons_of_ne_nil isDigits.nonempty
    exact ⟨d, more, rfl, isDigits.all d List.mem_cons_self⟩
  cases numeral with
  | whole isWhole => exact ofDigits isWhole
  | fraction isWhole isFraction =>
    obtain ⟨d, more, rfl, digit⟩ := ofDigits isWhole
    exact ⟨d, _, rfl, digit⟩

/-- The pieces of source text that tokens keep as they stand. -/
inductive Verbatim : TokenKind → List Char → Prop
  | string {text : List Char} (inside : QuotedText '\x22' text) :
      Verbatim .string ('\x22' :: (text ++ ['\x22']))
  | character {text : List Char} (inside : QuotedCharacter '\x27' text) :
      Verbatim .character ('\x27' :: (text ++ ['\x27']))
  | identifier {c : Char} {letters : List Char} (capital : c.isUpper = true)
      (all : ∀ c ∈ letters, c.isAlpha = true) : Verbatim .identifier (c :: letters)
  | comment {text : List Char} (oneLine : ∀ c ∈ text, c ≠ '\n') : Verbatim .comment ('#' :: text)
  | whitespace {c : Char} {blanks : List Char} (first : Scan.isBlank c = true)
      (all : ∀ c ∈ blanks, Scan.isBlank c = true) : Verbatim .whitespace (c :: blanks)
  | number {digits : List Char} (numeral : Numeral digits) : Verbatim .number digits
  | newline : Verbatim .newline ['\n']
  | openParen : Verbatim .openParen ['(']
  | closeParen : Verbatim .closeParen [')']
  | openArray : Verbatim .openArray ['[']
  | closeArray : Verbatim .closeArray [']']

/-- The signs that have an ASCII spelling beside their canonical one, which comes first. -/
inductive Sign : TokenKind → Char → Char → Prop
  | openList : Sign .openList '⟨' '\x7b'
  | closeList : Sign .closeList '⟩' '\x7d'
  | separator : Sign .separator '⋄' ';'
  | ligature : Sign .ligature '‿' '_'
  | binding : Sign (.binding none) '←' ':'

namespace Arity

def subscript : Arity → Char
  | niladic => '₀'
  | monadic => '₁'
  | dyadic => '₂'

def digit : Arity → Char
  | niladic => '0'
  | monadic => '1'
  | dyadic => '2'

end Arity

/-- A glyph is spelled by its symbol or by its letters, and negation by a backtick as well. -/
inductive Glyph.Spells (glyph : Glyph) : List Char → Prop
  | symbol : glyph.Spells [glyph.symbol]
  | ascii : glyph.Spells glyph.ascii.toList
  | backtick (negation : glyph.symbol = Scan.highMinus) : glyph.Spells [Scan.backtick]

/-- What pieces of source text spell: the kind of a token, and the canonical spelling of the piece. -/
inductive Spelling : TokenKind → List Char → String → Prop
  | verbatim {kind : TokenKind} {piece : List Char} (stands : Verbatim kind piece) :
      Spelling kind piece (String.ofList piece)
  | negative {mark : Char} {digits : List Char} (isMark : mark = Scan.highMinus ∨ mark = Scan.backtick)
      (numeral : Numeral digits) :
      Spelling .number (mark :: digits) (String.ofList (Scan.highMinus :: digits))
  | sign {kind : TokenKind} {canonical ascii c : Char} (sign : Sign kind canonical ascii)
      (either : c = canonical ∨ c = ascii) : Spelling kind [c] (String.singleton canonical)
  | binding {arity : Arity} {mark digit : Char} (isMark : mark = '←' ∨ mark = ':')
      (declares : digit = arity.subscript ∨ digit = arity.digit) :
      Spelling (.binding (some arity)) [mark, digit] (String.ofList ['←', arity.subscript])
  | glyph {glyph : Glyph} {piece : List Char} (listed : glyph ∈ Glyph.table)
      (spoken : glyph.kind ≠ .punctuation) (spells : glyph.Spells piece) :
      Spelling (Scan.tokenKind glyph.kind) piece (String.singleton glyph.symbol)

namespace Scan

/-- A character that a token takes along where it stands right behind it. A point goes with a number,
since no token begins with a point. -/
def Continues (kind : TokenKind) (piece : List Char) (c : Char) : Prop :=
  match kind with
  | .identifier => c.isAlpha = true
  | .comment => c ≠ '\n'
  | .whitespace => isBlank c = true
  | .number => c.isDigit = true ∨ c = '.'
  | .binding none => (declaredArity? c).isSome = true
  | .monadicFunction => (piece = [highMinus] ∨ piece = [backtick]) ∧ c.isDigit = true
  | _ => False

/-- A lexeme at the head of a text takes a piece that spells it and stops where the piece cannot go on,
except before a point. -/
def HeadOf (found : Lexeme) (c : Char) (rest : List Char) : Prop :=
  ∃ more next, rest = more ++ next ∧ found.extent = more.length ∧
    Spelling found.kind (c :: more) found.image ∧
    ∀ d ∈ next.head?, Continues found.kind (c :: more) d → d = '.'

theorem verbatim_of_append (kind : TokenKind) (c : Char) (more next : List Char) :
    verbatim kind c (more ++ next) more.length = ⟨kind, String.ofList (c :: more), more.length⟩ := by
  rw [verbatim, List.take_left' rfl]

theorem dropWhile_stops (accept : Char → Bool) (text : List Char) :
    ∀ d ∈ (text.dropWhile accept).head?, accept d = false := by
  intro d isNext
  have refused := List.head?_dropWhile_not accept text
  rw [Option.mem_def.mp isNext] at refused
  simpa using refused

theorem headOf_verbatim {kind : TokenKind} {c : Char} {more next : List Char}
    (stands : Verbatim kind (c :: more))
    (stops : ∀ d ∈ next.head?, Continues kind (c :: more) d → d = '.') :
    HeadOf (verbatim kind c (more ++ next) more.length) c (more ++ next) := by
  rw [verbatim_of_append]
  exact ⟨more, next, rfl, rfl, .verbatim stands, stops⟩

theorem headOf_takeWhile {kind : TokenKind} {c : Char} {rest : List Char} {accept : Char → Bool}
    (stands : ∀ more : List Char, (∀ d ∈ more, accept d = true) → Verbatim kind (c :: more))
    (accepts : ∀ piece d, Continues kind piece d → accept d = true) :
    HeadOf (verbatim kind c rest (rest.takeWhile accept).length) c rest := by
  have stops : ∀ d ∈ (rest.dropWhile accept).head?,
      Continues kind (c :: rest.takeWhile accept) d → d = '.' := by
    intro d isNext continues
    have refused := dropWhile_stops accept rest d isNext
    simp [accepts _ d continues] at refused
  have isHead := headOf_verbatim (stands _ fun d => List.mem_takeWhile_imp) stops
  rwa [List.takeWhile_append_dropWhile] at isHead

theorem stringExtent?_eq_some {rest : List Char} {extent : Nat} (closed : stringExtent? rest = some extent) :
    ∃ text next, rest = text ++ '\x22' :: next ∧ QuotedText '\x22' text ∧ extent = text.length + 1 := by
  fun_induction stringExtent? rest generalizing extent with
  | case1 => cases closed
  | case2 next =>
    cases closed
    exact ⟨[], next, rfl, .nil, rfl⟩
  | case3 rest => cases closed
  | case4 c rest sameLine ih =>
    obtain ⟨inner, isInner, rfl⟩ := Option.map_eq_some_iff.mp closed
    obtain ⟨text, next, rfl, quoted, rfl⟩ := ih isInner
    exact ⟨'\\' :: c :: text, next, rfl, .cons (.escaped sameLine) quoted, rfl⟩
  | case5 c rest notQuote notEscape ih =>
    obtain ⟨inner, isInner, rfl⟩ := Option.map_eq_some_iff.mp closed
    obtain ⟨text, next, rfl, quoted, rfl⟩ := ih isInner
    refine ⟨c :: text, next, rfl, .cons (.plain ?_ ?_) quoted, rfl⟩
    · rintro rfl
      exact notQuote rfl
    · rintro rfl
      obtain ⟨d, rest, isCons⟩ := List.exists_cons_of_ne_nil (show text ++ '\x22' :: next ≠ [] by simp)
      exact notEscape d rest rfl isCons

theorem stringExtent?_of_quotedText {text : List Char} (quoted : QuotedText '\x22' text) (next : List Char) :
    stringExtent? (text ++ '\x22' :: next) = some (text.length + 1) := by
  induction quoted with
  | nil => rfl
  | cons head tail ih =>
    cases head with
    | plain notQuote notEscape =>
      rw [List.append_assoc, List.singleton_append, stringExtent?]
      · simp [ih]
      · exact notQuote
      · exact fun _ _ isEscape => (notEscape isEscape).elim
    | escaped sameLine => simp [stringExtent?, sameLine, ih]

theorem characterExtent?_eq_some {rest : List Char} {extent : Nat}
    (closed : characterExtent? rest = some extent) :
    ∃ text next, rest = text ++ '\x27' :: next ∧ QuotedCharacter '\x27' text ∧ extent = text.length + 1 := by
  unfold characterExtent? at closed
  split at closed
  · split at closed <;> cases closed
    rename_i sameLine
    exact ⟨_, _, rfl, .escaped sameLine, rfl⟩
  · split at closed <;> cases closed
    rename_i other
    exact ⟨_, _, rfl, .plain (fun same => other (.inl same)) fun same => other (.inr same), rfl⟩
  · cases closed

theorem characterExtent?_of_quotedCharacter {text : List Char} (quoted : QuotedCharacter '\x27' text)
    (next : List Char) : characterExtent? (text ++ '\x27' :: next) = some (text.length + 1) := by
  cases quoted with
  | plain notQuote notEscape =>
    rw [List.singleton_append, characterExtent?]
    · simp [notQuote, notEscape]
    · exact fun _ isEscape _ => notEscape isEscape
  | escaped sameLine => simp [characterExtent?, sameLine]

/-- A class of characters is taken up to the first that is outside it. -/
theorem takeWhile_of_stops {accept : Char → Bool} {more next : List Char} (all : ∀ d ∈ more, accept d = true)
    (stops : ∀ d ∈ next.head?, ¬ accept d = true) : (more ++ next).takeWhile accept = more := by
  rw [List.takeWhile_append_of_pos all]
  have none : next.takeWhile accept = [] := by
    cases next with
    | nil => rfl
    | cons d next => simp [stops d rfl]
  rw [none, List.append_nil]

theorem numeralLength_of_numeral {digits next : List Char} (numeral : Numeral digits)
    (stops : ∀ d ∈ next.head?, ¬ (d.isDigit = true ∨ d = '.')) :
    numeralLength (digits ++ next) = digits.length := by
  have noDigit : ∀ d ∈ next.head?, ¬ d.isDigit = true :=
    fun d isNext isDigit => stops d isNext (.inl isDigit)
  cases numeral with
  | whole isWhole =>
    rw [numeralLength, takeWhile_of_stops isWhole.all noDigit, List.drop_left' rfl]
    cases next with
    | nil => rfl
    | cons d next =>
      have notPoint : d ≠ '.' := fun isPoint => stops d rfl (.inr isPoint)
      dsimp only
      split
      · rename_i same
        exact (notPoint (List.cons.inj same).1).elim
      · rfl
  | @fraction whole fraction isWhole isFraction =>
    have point : ∀ d ∈ ('.' :: fraction ++ next).head?, ¬ d.isDigit = true := by
      rintro d ⟨⟩
      decide
    have some : fraction.length ≠ 0 := by simpa using isFraction.nonempty
    rw [numeralLength, List.append_assoc, takeWhile_of_stops isWhole.all point, List.drop_left' rfl]
    simp only [List.cons_append, takeWhile_of_stops isFraction.all noDigit, if_neg some, List.length_append,
      List.length_cons]
    omega

theorem numeral_of_numeralLength {text : List Char} (digit : ¬ (text.takeWhile Char.isDigit).isEmpty = true) :
    ∃ digits next, text = digits ++ next ∧ numeralLength text = digits.length ∧ Numeral digits ∧
      ∀ d ∈ next.head?, d.isDigit = false := by
  have whole : Digits (text.takeWhile Char.isDigit) :=
    ⟨by simpa using digit, fun c => List.mem_takeWhile_imp⟩
  have stops := dropWhile_stops Char.isDigit
  have split := (@List.takeWhile_append_dropWhile _ Char.isDigit text).symm
  have behind : text.drop (text.takeWhile Char.isDigit).length = text.dropWhile Char.isDigit := by
    have dropped := @List.drop_left _ (text.takeWhile Char.isDigit) (text.dropWhile Char.isDigit)
    rwa [List.takeWhile_append_dropWhile] at dropped
  -- A point belongs to the numeral only if digits follow it.
  by_cases pointed : ∃ rest, text.dropWhile Char.isDigit = '.' :: rest ∧ rest.takeWhile Char.isDigit ≠ []
  · obtain ⟨rest, isRest, some⟩ := pointed
    have fraction : Digits (rest.takeWhile Char.isDigit) := ⟨some, fun c => List.mem_takeWhile_imp⟩
    refine ⟨_, rest.dropWhile Char.isDigit, ?_, ?_, .fraction whole fraction, stops rest⟩
    · rw [List.append_assoc, List.cons_append, List.takeWhile_append_dropWhile, ← isRest, ← split]
    · rw [numeralLength, behind, isRest]
      simp [some]
      omega
  · refine ⟨_, _, split, ?_, .whole whole, stops text⟩
    rw [numeralLength, behind]
    dsimp only
    split
    · rename_i rest isRest
      have none : rest.takeWhile Char.isDigit = [] := by
        by_contra some
        exact pointed ⟨rest, isRest, some⟩
      simp [none]
    · rfl

theorem continues_tokenKind {kind : GlyphKind} {piece : List Char} {d : Char}
    (continues : Continues (tokenKind kind) piece d) :
    (piece = [highMinus] ∨ piece = [backtick]) ∧ d.isDigit = true := by
  cases kind <;> first | exact continues | exact continues.elim

theorem numberExtent?_mark {mark : Char} (isMark : mark = highMinus ∨ mark = backtick) (rest : List Char) :
    numberExtent? mark rest =
      if (rest.takeWhile Char.isDigit).isEmpty then none else some (numeralLength rest) := by
  rw [numberExtent?, if_pos isMark]

theorem headOf_number {c : Char} {rest : List Char} {extent : Nat}
    (number : numberExtent? c rest = some extent) :
    HeadOf (verbatim .number (if c = backtick then highMinus else c) rest extent) c rest := by
  by_cases isMark : c = highMinus ∨ c = backtick
  · have canonical : (if c = backtick then highMinus else c) = highMinus := by
      rcases isMark with rfl | rfl <;> rfl
    rw [numberExtent?_mark isMark] at number
    split at number <;> cases number
    rename_i digit
    obtain ⟨digits, next, rfl, isLength, numeral, stops⟩ := numeral_of_numeralLength digit
    refine ⟨digits, next, rfl, isLength, ?_, ?_⟩
    · rw [canonical, verbatim, isLength, List.take_left' rfl]
      exact .negative isMark numeral
    · intro d isNext continues
      exact continues.resolve_left (by simp [stops d isNext])
  · rw [numberExtent?, if_neg isMark] at number
    split at number <;> cases number
    rename_i isDigit
    have plain : (if c = backtick then highMinus else c) = c := if_neg fun same => isMark (.inr same)
    obtain ⟨digits, next, split, isLength, numeral, stops⟩ :=
      @numeral_of_numeralLength (c :: rest) (by simp [isDigit])
    obtain ⟨first, more, rfl, -⟩ := numeral.exists_cons
    obtain ⟨rfl, rfl⟩ := List.cons.inj split
    rw [plain, isLength]
    refine headOf_verbatim (.number numeral) fun d isNext continues => ?_
    exact continues.resolve_left (by simp [stops d isNext])

theorem headOf_ascii {c : Char} {rest : List Char} {length : Nat} {glyph : Glyph}
    (spelled : spelled? ((c :: rest).takeWhile Char.isLower) = some (length, glyph)) :
    HeadOf (ofGlyph glyph (length - 1)) c rest := by
  obtain ⟨n, fits, found⟩ := List.exists_of_findSome?_eq_some spelled
  obtain ⟨other, found, same⟩ := Option.map_eq_some_iff.mp found
  cases same
  obtain ⟨listed, spoken, letters⟩ := Glyph.ofAscii?_eq_some found
  have size : 2 ≤ length ∧ length ≤ ((c :: rest).takeWhile Char.isLower).length := by
    obtain ⟨tried, short⟩ := List.mem_filter.mp fits
    simp only [List.mem_cons, List.not_mem_nil, or_false, decide_eq_true_eq] at tried short
    omega
  obtain ⟨behind, split⟩ := List.takeWhile_prefix (l := c :: rest) Char.isLower
  have start : ((c :: rest).takeWhile Char.isLower).take length = c :: rest.take (length - 1) := by
    have isSucc : length = length - 1 + 1 := by omega
    rw [← List.take_append_of_le_length size.2, split, isSucc, List.take_succ_cons]
    rfl
  have long : length - 1 ≤ rest.length := by
    have total := congrArg List.length split
    rw [List.length_append, List.length_cons] at total
    omega
  refine ⟨rest.take (length - 1), rest.drop (length - 1), (List.take_append_drop _ _).symm, ?_, ?_, ?_⟩
  · simp [ofGlyph, long]
  · have spells : glyph.Spells (c :: rest.take (length - 1)) := by
      rw [← start, ← letters]
      exact .ascii
    exact .glyph listed spoken spells
  · intro d _ continues
    have letters := congrArg List.length start
    rcases (continues_tokenKind continues).1 with single | single <;>
      · rw [single, List.length_singleton, List.length_take] at letters
        omega

theorem headOf_symbol {c : Char} {rest : List Char} {glyph : Glyph} (noNumber : numberExtent? c rest = none)
    (found : Glyph.ofSymbol? (if c = backtick then highMinus else c) = some glyph)
    (spoken : glyph.kind ≠ .punctuation) : HeadOf (ofGlyph glyph 0) c rest := by
  have listed := List.mem_of_find?_eq_some found
  have symbol : glyph.symbol = if c = backtick then highMinus else c := by
    simpa using List.find?_some found
  refine ⟨[], rest, rfl, rfl, .glyph listed spoken ?_, ?_⟩
  · split at symbol
    · rename_i isBacktick
      exact isBacktick ▸ .backtick symbol
    · exact symbol ▸ .symbol
  · intro d isNext continues
    obtain ⟨isMark, digit⟩ := continues_tokenKind continues
    rw [numberExtent?_mark (by simpa using isMark)] at noNumber
    cases rest with
    | nil => cases isNext
    | cons first rest =>
      cases isNext
      simp [digit] at noNumber

theorem headOf_word {c : Char} {rest : List Char} {found : Lexeme} (read : word c rest = .ok found) :
    HeadOf found c rest := by
  unfold word at read
  split at read
  · rename_i number
    cases read
    exact headOf_number number
  · rename_i noNumber
    split at read
    · dsimp only at read
      split at read <;> cases read
      rename_i spelled
      exact headOf_ascii spelled
    · split at read
      · rename_i isGlyph
        split at read <;> cases read
        rename_i spoken
        exact headOf_symbol noNumber isGlyph spoken
      · cases read

theorem headOf_sign {kind : TokenKind} {canonical ascii c : Char} {rest : List Char}
    (sign : Sign kind canonical ascii) (either : c = canonical ∨ c = ascii)
    (stops : ∀ d ∈ rest.head?, ¬ Continues kind [c] d) :
    HeadOf ⟨kind, String.singleton canonical, 0⟩ c rest :=
  ⟨[], rest, rfl, rfl, .sign sign either, fun d isNext continues => (stops d isNext continues).elim⟩

theorem declaredArity?_eq_some {d : Char} {arity : Arity} :
    declaredArity? d = some arity ↔ d = arity.subscript ∨ d = arity.digit := by
  unfold declaredArity?
  cases arity <;> grind [Arity.subscript, Arity.digit]

theorem bindingSpelling_some (arity : Arity) :
    bindingSpelling (some arity) = String.ofList ['←', arity.subscript] := by
  cases arity <;> rfl

theorem headOf_binding {c : Char} (isMark : c = '←' ∨ c = ':') (rest : List Char) :
    let arity := rest.head?.bind declaredArity?
    HeadOf ⟨.binding arity, bindingSpelling arity, if arity.isSome then 1 else 0⟩ c rest := by
  intro arity
  cases declared : arity with
  | none =>
    refine headOf_sign .binding isMark fun d isNext continues => ?_
    have undeclared : declaredArity? d = none := Option.bind_eq_none_iff.mp declared d isNext
    simp [Continues, undeclared] at continues
  | some declares =>
    obtain ⟨d, isNext, isDigit⟩ := Option.bind_eq_some_iff.mp declared
    cases rest with
    | nil => cases isNext
    | cons first rest =>
      cases isNext
      refine ⟨[d], rest, rfl, rfl, ?_, fun _ _ continues => continues.elim⟩
      rw [bindingSpelling_some]
      exact .binding isMark (declaredArity?_eq_some.mp isDigit)

theorem quoted_eq_ok {kind : TokenKind} {c : Char} {rest : List Char} {extent : Option Nat} {found : Lexeme}
    (read : quoted kind c rest extent = .ok found) :
    ∃ n, extent = some n ∧ found = verbatim kind c rest n := by
  unfold quoted at read
  split at read <;> cases read
  exact ⟨_, rfl, rfl⟩

/-- Behind its closing quote nothing belongs to a lexeme any more. -/
theorem headOf_closed {kind : TokenKind} {c quote : Char} {text next : List Char}
    (stands : Verbatim kind (c :: (text ++ [quote]))) (complete : ∀ piece d, ¬ Continues kind piece d) :
    HeadOf (verbatim kind c (text ++ quote :: next) (text.length + 1)) c (text ++ quote :: next) := by
  have isHead := @headOf_verbatim kind c (text ++ [quote]) next stands
    fun d _ continues => (complete _ d continues).elim
  simpa using isHead

/-- A lexeme at the head of a text spells its token and is not cut short. -/
theorem headOf_lexeme {c : Char} {rest : List Char} {found : Lexeme} (read : lexeme c rest = .ok found) :
    HeadOf found c rest := by
  unfold lexeme at read
  rcases ite_eq_iff.mp read with ⟨rfl, read⟩ | ⟨-, read⟩
  · obtain ⟨extent, closed, rfl⟩ := quoted_eq_ok read
    obtain ⟨text, next, rfl, inside, rfl⟩ := stringExtent?_eq_some closed
    exact headOf_closed (.string inside) fun _ _ => id
  rcases ite_eq_iff.mp read with ⟨rfl, read⟩ | ⟨-, read⟩
  · obtain ⟨extent, closed, rfl⟩ := quoted_eq_ok read
    obtain ⟨text, next, rfl, inside, rfl⟩ := characterExtent?_eq_some closed
    exact headOf_closed (.character inside) fun _ _ => id
  rcases ite_eq_iff.mp read with ⟨capital, read⟩ | ⟨-, read⟩
  · cases read
    exact headOf_takeWhile (fun more => .identifier capital) fun _ _ => id
  rcases ite_eq_iff.mp read with ⟨rfl, read⟩ | ⟨-, read⟩
  · cases read
    refine headOf_takeWhile (fun more all => ?_) fun _ _ continues => decide_eq_true continues
    exact .comment (by simpa using all)
  rcases ite_eq_iff.mp read with ⟨blank, read⟩ | ⟨-, read⟩
  · cases read
    exact headOf_takeWhile (fun more => .whitespace blank) fun _ _ => id
  iterate 5
    rcases ite_eq_iff.mp read with ⟨rfl, read⟩ | ⟨-, read⟩
    · cases read
      exact ⟨[], rest, rfl, rfl, .verbatim (by constructor), fun _ _ continues => continues.elim⟩
  iterate 4
    rcases ite_eq_iff.mp read with ⟨isSign, read⟩ | ⟨-, read⟩
    · cases read
      exact headOf_sign (by constructor) isSign fun _ _ continues => continues.elim
  rcases ite_eq_iff.mp read with ⟨isMark, read⟩ | ⟨-, read⟩
  · cases read
    exact headOf_binding isMark rest
  · exact headOf_word read

/-- The characters other than capitals that begin lexemes of their own. -/
def marks : List Char :=
  ['\x22', '\x27', '#', ' ', '\t', '\r', '\n', '(', ')', '[', ']', '⟨', '\x7b', '⟩', '\x7d', '⋄', ';',
    '‿', '_', '←', ':']

theorem lexeme_eq_word {c : Char} (small : c.isUpper = false) (unmarked : c ∉ marks) (rest : List Char) :
    lexeme c rest = word c rest := by
  simp only [marks, List.mem_cons, List.not_mem_nil, or_false, not_or] at unmarked
  simp [lexeme, isBlank, small, unmarked]

theorem val_le_of_isDigit {c : Char} (digit : c.isDigit = true) : c.val ≤ '9'.val :=
  of_decide_eq_true ((Bool.and_eq_true _ _).mp digit).2

theorem le_val_of_isLower {c : Char} (lower : c.isLower = true) : 'a'.val ≤ c.val :=
  of_decide_eq_true ((Bool.and_eq_true _ _).mp lower).1

theorem isUpper_of_isDigit {c : Char} (digit : c.isDigit = true) : c.isUpper = false := by
  apply decide_eq_false
  rintro ⟨high, -⟩
  exact absurd (UInt32.le_trans high (val_le_of_isDigit digit)) (by decide)

theorem isUpper_of_isLower {c : Char} (lower : c.isLower = true) : c.isUpper = false := by
  apply decide_eq_false
  rintro ⟨-, low⟩
  exact absurd (UInt32.le_trans (le_val_of_isLower lower) low) (by decide)

theorem isDigit_of_isLower {c : Char} (lower : c.isLower = true) : c.isDigit = false := by
  apply Bool.eq_false_iff.mpr
  intro digit
  exact absurd (UInt32.le_trans (le_val_of_isLower lower) (val_le_of_isDigit digit)) (by decide)

theorem lexeme_of_isDigit {c : Char} (digit : c.isDigit = true) (rest : List Char) :
    lexeme c rest = word c rest := by
  apply lexeme_eq_word
  · exact isUpper_of_isDigit digit
  · intro marked
    have noDigit : marks.all (!Char.isDigit ·) = true := rfl
    simpa [digit] using List.all_eq_true.mp noDigit c marked

theorem lexeme_of_isLower {c : Char} (lower : c.isLower = true) (rest : List Char) :
    lexeme c rest = word c rest := by
  apply lexeme_eq_word
  · exact isUpper_of_isLower lower
  · intro marked
    have noLetter : marks.all (!Char.isLower ·) = true := rfl
    simpa [lower] using List.all_eq_true.mp noLetter c marked

theorem word_of_number {c : Char} {more next : List Char}
    (isNumber : numberExtent? c (more ++ next) = some more.length) :
    word c (more ++ next) =
      .ok ⟨.number, String.ofList ((if c = backtick then highMinus else c) :: more), more.length⟩ := by
  rw [word, isNumber, ← verbatim_of_append]

theorem lexeme_of_numeral {c : Char} {more next : List Char} (numeral : Numeral (c :: more))
    (stops : ∀ d ∈ next.head?, ¬ (d.isDigit = true ∨ d = '.')) :
    lexeme c (more ++ next) = .ok ⟨.number, String.ofList (c :: more), more.length⟩ := by
  obtain ⟨_, _, same, digit⟩ := numeral.exists_cons
  obtain ⟨rfl, rfl⟩ := List.cons.inj same
  have unsigned : ¬ (c = highMinus ∨ c = backtick) := by
    rintro (rfl | rfl) <;> cases digit
  have extent : numberExtent? c (more ++ next) = some more.length := by
    have length := numeralLength_of_numeral numeral stops
    rw [List.cons_append] at length
    rw [numberExtent?, if_neg unsigned, if_pos digit, length]
    rfl
  rw [lexeme_of_isDigit digit, word_of_number extent, if_neg fun same => unsigned (.inr same)]

theorem lexeme_of_negative {mark : Char} {digits next : List Char} (isMark : mark = highMinus ∨ mark = backtick)
    (numeral : Numeral digits) (stops : ∀ d ∈ next.head?, ¬ (d.isDigit = true ∨ d = '.')) :
    lexeme mark (digits ++ next) = .ok ⟨.number, String.ofList (highMinus :: digits), digits.length⟩ := by
  have extent : numberExtent? mark (digits ++ next) = some digits.length := by
    obtain ⟨d, more, rfl, digit⟩ := numeral.exists_cons
    rw [numberExtent?_mark isMark, if_neg (by simp [digit]), numeralLength_of_numeral numeral stops]
  have isWord : lexeme mark (digits ++ next) = word mark (digits ++ next) := by
    rcases isMark with rfl | rfl <;> exact lexeme_eq_word rfl (by decide) _
  rw [isWord, word_of_number extent]
  rcases isMark with rfl | rfl <;> rfl

theorem lexeme_of_verbatim {kind : TokenKind} {c : Char} {more next : List Char}
    (stands : Verbatim kind (c :: more)) (apart : ∀ d ∈ next.head?, ¬ Continues kind (c :: more) d) :
    lexeme c (more ++ next) = .ok ⟨kind, String.ofList (c :: more), more.length⟩ := by
  rw [← verbatim_of_append kind c more next]
  cases stands with
  | string inside =>
    have extent := stringExtent?_of_quotedText inside next
    simp [lexeme, quoted, extent]
  | character inside =>
    have extent := characterExtent?_of_quotedCharacter inside next
    simp [lexeme, quoted, extent]
  | identifier capital all =>
    have notString : c ≠ '\x22' := by rintro rfl; cases capital
    have notCharacter : c ≠ '\x27' := by rintro rfl; cases capital
    rw [lexeme, if_neg notString, if_neg notCharacter, if_pos capital, takeWhile_of_stops all apart]
  | comment oneLine =>
    have extent : (more ++ next).takeWhile (· ≠ '\n') = more := by
      apply takeWhile_of_stops (by simpa using oneLine)
      intro d isNext other
      have differs : d ≠ '\n' := of_decide_eq_true other
      exact apart d isNext differs
    have read (rest : List Char) : lexeme '#' rest =
        .ok (verbatim .comment '#' rest (rest.takeWhile (· ≠ '\n')).length) := rfl
    rw [read, extent]
  | whitespace first all =>
    have read (rest : List Char) : lexeme c rest =
        .ok (verbatim .whitespace c rest (rest.takeWhile isBlank).length) := by
      simp only [isBlank, decide_eq_true_eq] at first
      rcases first with rfl | rfl | rfl <;> rfl
    rw [read, takeWhile_of_stops all apart]
  | number numeral => exact verbatim_of_append .number c more next ▸ lexeme_of_numeral numeral apart
  | newline | openParen | closeParen | openArray | closeArray => rfl

/-- A binding marker takes the digit behind it along. -/
theorem lexeme_of_mark {mark : Char} (isMark : mark = '←' ∨ mark = ':') (rest : List Char) :
    let arity := rest.head?.bind declaredArity?
    lexeme mark rest = .ok ⟨.binding arity, bindingSpelling arity, if arity.isSome then 1 else 0⟩ := by
  rcases isMark with rfl | rfl <;> rfl

theorem lexeme_of_sign {kind : TokenKind} {canonical ascii c : Char} {next : List Char}
    (sign : Sign kind canonical ascii) (either : c = canonical ∨ c = ascii)
    (apart : ∀ d ∈ next.head?, ¬ Continues kind [c] d) :
    lexeme c next = .ok ⟨kind, String.singleton canonical, 0⟩ := by
  cases sign with
  | binding =>
    have undeclared : next.head?.bind declaredArity? = none := by
      apply Option.bind_eq_none_iff.mpr
      intro d isNext
      simpa [Continues] using apart d isNext
    rw [lexeme_of_mark either, undeclared]
    rfl
  | openList | closeList | separator | ligature => rcases either with rfl | rfl <;> rfl

theorem lexeme_of_binding {arity : Arity} {mark digit : Char} (isMark : mark = '←' ∨ mark = ':')
    (declares : digit = arity.subscript ∨ digit = arity.digit) (next : List Char) :
    lexeme mark (digit :: next) =
      .ok ⟨.binding (some arity), String.ofList ['←', arity.subscript], 1⟩ := by
  have declared : (digit :: next).head?.bind declaredArity? = some arity :=
    declaredArity?_eq_some.mpr declares
  rw [lexeme_of_mark isMark, declared, bindingSpelling_some]
  rfl

/-- No glyph has the letters of another and one more. -/
theorem ofAscii?_longer {glyph : Glyph} (listed : glyph ∈ Glyph.table) (spoken : glyph.kind ≠ .punctuation)
    (d : Char) : Glyph.ofAscii? (String.ofList (glyph.ascii.toList ++ [d])) = none := by
  by_contra some
  obtain ⟨other, found⟩ := Option.ne_none_iff_exists'.mp some
  obtain ⟨otherListed, otherSpoken, letters⟩ := Glyph.ofAscii?_eq_some found
  have same := Glyph.eq_of_ascii_prefix listed spoken otherListed otherSpoken (letters ▸ List.prefix_append _ _)
  rw [same] at letters
  simpa using congrArg List.length letters

/-- The letters of a glyph are found whatever letters follow them. -/
theorem spelled?_ascii {glyph : Glyph} (listed : glyph ∈ Glyph.table) (spoken : glyph.kind ≠ .punctuation)
    (letters : List Char) :
    spelled? (glyph.ascii.toList ++ letters) = some (glyph.ascii.toList.length, glyph) := by
  have found : Glyph.ofAscii? (String.ofList glyph.ascii.toList) = some glyph := by
    rw [String.ofList_toList, Glyph.ofAscii?_ascii listed spoken]
  have whole : (glyph.ascii.toList ++ letters).take glyph.ascii.toList.length = glyph.ascii.toList :=
    List.take_left' rfl
  rcases (Glyph.ascii_letters listed spoken).2 with length | length
  · rw [length] at whole ⊢
    cases letters with
    | nil =>
      have sizes : [3, 2].filter (· ≤ (glyph.ascii.toList ++ []).length) = [2] := by simp [length]
      rw [spelled?, sizes, List.findSome?_cons, whole, found]
      rfl
    | cons d letters =>
      have sizes : [3, 2].filter (· ≤ (glyph.ascii.toList ++ d :: letters).length) = [3, 2] := by
        simp [length]
        omega
      have three : (glyph.ascii.toList ++ d :: letters).take 3 = glyph.ascii.toList ++ [d] := by
        rw [List.take_append, List.take_of_length_le (by omega), length]
        rfl
      rw [spelled?, sizes, List.findSome?_cons, three, ofAscii?_longer listed spoken, Option.map_none,
        List.findSome?_cons, whole, found]
      rfl
  · rw [length] at whole ⊢
    have sizes : [3, 2].filter (· ≤ (glyph.ascii.toList ++ letters).length) = [3, 2] := by
      simp [length]
      omega
    rw [spelled?, sizes, List.findSome?_cons, whole, found]
    rfl

theorem numberExtent?_eq_none {c : Char} (unsigned : ¬ (c = highMinus ∨ c = backtick))
    (noDigit : c.isDigit = false) (rest : List Char) : numberExtent? c rest = none := by
  rw [numberExtent?, if_neg unsigned, if_neg (by simp [noDigit])]

theorem lexeme_of_ascii {glyph : Glyph} (listed : glyph ∈ Glyph.table) (spoken : glyph.kind ≠ .punctuation)
    {c : Char} {more : List Char} (letters : glyph.ascii.toList = c :: more) (next : List Char) :
    lexeme c (more ++ next) = .ok ⟨tokenKind glyph.kind, String.singleton glyph.symbol, more.length⟩ := by
  have all := List.all_eq_true.mp (Glyph.ascii_letters listed spoken).1
  have lower : c.isLower = true := all c (by simp [letters])
  have unsigned : ¬ (c = highMinus ∨ c = backtick) := by
    rintro (rfl | rfl) <;> cases lower
  have noDigit : c.isDigit = false := isDigit_of_isLower lower
  have run : (c :: (more ++ next)).takeWhile Char.isLower =
      glyph.ascii.toList ++ next.takeWhile Char.isLower := by
    rw [← List.takeWhile_append_of_pos all, letters, List.cons_append]
  rw [lexeme_of_isLower lower, word, numberExtent?_eq_none unsigned noDigit]
  simp only [if_pos lower, run, spelled?_ascii listed spoken]
  rw [letters]
  rfl

/-- The symbols of glyphs begin no other lexemes. -/
theorem symbol_plain {glyph : Glyph} (listed : glyph ∈ Glyph.table) (spoken : glyph.kind ≠ .punctuation) :
    glyph.symbol.isUpper = false ∧ glyph.symbol ∉ marks ∧ glyph.symbol.isLower = false ∧
      glyph.symbol.isDigit = false ∧ glyph.symbol ≠ backtick := by
  revert glyph
  decide +kernel

theorem kind_of_negation {glyph : Glyph} (listed : glyph ∈ Glyph.table) (negation : glyph.symbol = highMinus) :
    glyph.kind = .monadicFunction := by
  revert glyph
  decide +kernel

theorem lexeme_of_symbol {glyph : Glyph} (listed : glyph ∈ Glyph.table) (spoken : glyph.kind ≠ .punctuation)
    {c : Char} (isSymbol : c = glyph.symbol ∨ c = backtick ∧ glyph.symbol = highMinus) {next : List Char}
    (apart : ∀ d ∈ next.head?, ¬ Continues (tokenKind glyph.kind) [c] d) :
    lexeme c next = .ok ⟨tokenKind glyph.kind, String.singleton glyph.symbol, 0⟩ := by
  have start : c.isUpper = false ∧ c ∉ marks ∧ c.isLower = false ∧ c.isDigit = false ∧
      (if c = backtick then highMinus else c) = glyph.symbol := by
    rcases isSymbol with rfl | ⟨rfl, negation⟩
    · obtain ⟨small, unmarked, noLetter, noDigit, notBacktick⟩ := symbol_plain listed spoken
      exact ⟨small, unmarked, noLetter, noDigit, if_neg notBacktick⟩
    · exact ⟨rfl, by decide, rfl, rfl, negation.symm⟩
  obtain ⟨small, unmarked, noLetter, noDigit, canonical⟩ := start
  have noNumber : numberExtent? c next = none := by
    by_cases isMark : c = highMinus ∨ c = backtick
    · have negation : glyph.symbol = highMinus := by
        rw [← canonical]
        rcases isMark with rfl | rfl <;> rfl
      rw [numberExtent?_mark isMark]
      cases next with
      | nil => rfl
      | cons d next =>
        have stops : ¬ d.isDigit = true := by
          intro digit
          apply apart d rfl
          rw [kind_of_negation listed negation]
          exact ⟨by simpa using isMark, digit⟩
        simp [stops]
    · exact numberExtent?_eq_none isMark noDigit next
  rw [lexeme_eq_word small unmarked, word, noNumber]
  simp only [noLetter, canonical, Glyph.ofSymbol?_symbol listed, if_neg spoken]
  rfl

/-- A piece that spells a token is found where it does not go on. -/
theorem lexeme_of_spelling {kind : TokenKind} {c : Char} {more next : List Char} {image : String}
    (spelling : Spelling kind (c :: more) image) (apart : ∀ d ∈ next.head?, ¬ Continues kind (c :: more) d) :
    lexeme c (more ++ next) = .ok ⟨kind, image, more.length⟩ := by
  cases spelling with
  | verbatim stands => exact lexeme_of_verbatim stands apart
  | negative isMark numeral => exact lexeme_of_negative isMark numeral apart
  | sign sign either => exact lexeme_of_sign sign either apart
  | binding isMark declares => exact lexeme_of_binding isMark declares next
  | @glyph glyph _ listed spoken spells =>
    generalize same : c :: more = piece at spells
    cases spells with
    | symbol =>
      obtain ⟨rfl, rfl⟩ := List.cons.inj same
      exact lexeme_of_symbol listed spoken (.inl rfl) apart
    | ascii => exact lexeme_of_ascii listed spoken same.symm next
    | backtick negation =>
      obtain ⟨rfl, rfl⟩ := List.cons.inj same
      exact lexeme_of_symbol listed spoken (.inr ⟨rfl, negation⟩) apart

theorem lineAfter_eq (c : Char) (line : Nat) : lineAfter c line = line + [c].count '\n' := by
  by_cases newline : c = '\n' <;> simp [lineAfter, newline]

/-- What belongs to a lexeme only moves the line on. -/
theorem tokensFrom_append (line : Nat) (more next : List Char) :
    tokensFrom line more.length (more ++ next) = tokensFrom (line + more.count '\n') 0 next := by
  induction more generalizing line with
  | nil => rfl
  | cons c more ih =>
    change tokensFrom (lineAfter c line) more.length (more ++ next) = _
    rw [ih, lineAfter_eq, Nat.add_assoc, ← List.count_append, List.singleton_append]

theorem tokensFrom_behind (line : Nat) (c : Char) (more next : List Char) :
    tokensFrom (lineAfter c line) more.length (more ++ next) =
      tokensFrom (line + (c :: more).count '\n') 0 next :=
  tokensFrom_append line (c :: more) next

end Scan

/-- Pieces of source text from some line on that spell tokens, none of which goes on with the character
behind it. -/
inductive Cut : Nat → List (List Char) → List Token → Prop
  | nil (line : Nat) : Cut line [] []
  | cons {line : Nat} {kind : TokenKind} {piece : List Char} {image : String} {pieces : List (List Char)}
      {tokens : List Token} (spelling : Spelling kind piece image)
      (apart : ∀ d ∈ pieces.flatten.head?, ¬ Scan.Continues kind piece d)
      (later : Cut (line + piece.count '\n') pieces tokens) :
      Cut line (piece :: pieces) (⟨kind, image, line⟩ :: tokens)

theorem Verbatim.exists_cons {kind : TokenKind} {piece : List Char} (stands : Verbatim kind piece) :
    ∃ c more, piece = c :: more ∧ c ≠ '.' := by
  cases stands with
  | identifier capital all =>
    refine ⟨_, _, rfl, ?_⟩
    rintro rfl
    cases capital
  | whitespace first all =>
    refine ⟨_, _, rfl, ?_⟩
    rintro rfl
    cases first
  | number numeral =>
    obtain ⟨d, more, rfl, digit⟩ := numeral.exists_cons
    refine ⟨d, more, rfl, ?_⟩
    rintro rfl
    cases digit
  | _ => exact ⟨_, _, rfl, by decide⟩

/-- A piece is not empty and does not begin with a point. -/
theorem Spelling.exists_cons {kind : TokenKind} {piece : List Char} {image : String}
    (spelling : Spelling kind piece image) : ∃ c more, piece = c :: more ∧ c ≠ '.' := by
  cases spelling with
  | verbatim stands => exact stands.exists_cons
  | negative isMark numeral => exact ⟨_, _, rfl, by rcases isMark with rfl | rfl <;> decide⟩
  | sign sign either => exact ⟨_, _, rfl, by cases sign <;> rcases either with rfl | rfl <;> decide⟩
  | binding isMark declares => exact ⟨_, _, rfl, by rcases isMark with rfl | rfl <;> decide⟩
  | @glyph glyph _ listed spoken spells =>
    cases spells with
    | symbol => exact ⟨_, _, rfl, Glyph.symbol_ne_point listed⟩
    | ascii =>
      obtain ⟨all, length⟩ := Glyph.ascii_letters listed spoken
      obtain ⟨c, more, letters⟩ := List.exists_cons_of_length_pos
        (show 0 < glyph.ascii.toList.length by omega)
      refine ⟨c, more, letters, ?_⟩
      rintro rfl
      simp [letters] at all
    | backtick negation => exact ⟨_, _, rfl, by decide⟩

theorem Cut.head_ne_point {line : Nat} {pieces : List (List Char)} {tokens : List Token}
    (cut : Cut line pieces tokens) : ∀ d ∈ pieces.flatten.head?, d ≠ '.' := by
  cases cut with
  | nil => simp
  | cons spelling apart later =>
    obtain ⟨c, more, rfl, notPoint⟩ := spelling.exists_cons
    rintro d ⟨⟩
    exact notPoint

namespace Scan

/-- A piece that spells a token is scanned as it where it does not go on. -/
theorem tokensFrom_of_spelling {kind : TokenKind} {piece next : List Char} {image : String}
    (spelling : Spelling kind piece image) (apart : ∀ d ∈ next.head?, ¬ Continues kind piece d) (line : Nat) :
    tokensFrom line 0 (piece ++ next) =
      (⟨kind, image, line⟩ :: ·) <$> tokensFrom (line + piece.count '\n') 0 next := by
  obtain ⟨c, more, rfl, -⟩ := spelling.exists_cons
  rw [List.cons_append, tokensFrom, lexeme_of_spelling spelling apart, ← tokensFrom_behind]
  rfl

theorem tokensFrom_of_cut {line : Nat} {pieces : List (List Char)} {tokens : List Token}
    (cut : Cut line pieces tokens) : tokensFrom line 0 pieces.flatten = .ok tokens := by
  induction cut with
  | nil => rfl
  | cons spelling apart _ ih =>
    rw [List.flatten_cons, tokensFrom_of_spelling spelling apart, ih]
    rfl

theorem exists_cut {line : Nat} {text : List Char} {tokens : List Token}
    (scanned : tokensFrom line 0 text = .ok tokens) :
    ∃ pieces, pieces.flatten = text ∧ Cut line pieces tokens := by
  induction length : text.length using Nat.strong_induction_on generalizing line text tokens with
  | _ n ih =>
  cases text with
  | nil =>
    cases scanned
    exact ⟨[], rfl, .nil line⟩
  | cons c rest =>
    simp only [tokensFrom, bind_eq_ok, pure_eq_ok] at scanned
    obtain ⟨found, read, others, later, rfl⟩ := scanned
    have isLexeme : lexeme c rest = .ok found := mapError_eq_ok.mp read
    obtain ⟨more, next, rfl, extent, spelling, stops⟩ := headOf_lexeme isLexeme
    rw [extent, tokensFrom_behind] at later
    obtain ⟨pieces, rfl, cut⟩ := ih next.length (by simp at length; omega) later rfl
    refine ⟨(c :: more) :: pieces, by simp, .cons spelling (fun d isNext continues => ?_) cut⟩
    -- Before a point a number might have gone on, but then nothing is read behind it.
    exact cut.head_ne_point d isNext (stops d isNext continues)

end Scan

/-- Scanning finds the tokens that pieces of the source text spell, where none of the pieces goes on. -/
theorem scan_eq_ok_iff {source : String} {tokens : List Token} :
    scan source = .ok tokens ↔ ∃ pieces, pieces.flatten = source.toList ∧ Cut 1 pieces tokens := by
  constructor
  · exact Scan.exists_cut
  · rintro ⟨pieces, isSource, cut⟩
    rw [scan, ← isSource]
    exact Scan.tokensFrom_of_cut cut

end Tacit
