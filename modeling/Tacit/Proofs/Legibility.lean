import Tacit.Proofs.Numerals
import Tacit.Proofs.Reading

/-! The tokens of a source text are legible: what the scanner takes for a number, a character, a function or a
modifier is read as one by the rules, though they look at the spelling alone. So a source text is never refused
for the spelling of one of its tokens, and the programs that source texts spell are well made. -/
namespace Tacit

theorem Number.exists_numeral? {digits : List Char} (numeral : Numeral digits) : ∃ m, numeral? digits = some m := by
  cases numeral with
  | whole isWhole =>
    have all : digits.takeWhile Char.isDigit = digits := List.takeWhile_eq_self_iff.mpr isWhole.all
    have none : digits.dropWhile Char.isDigit = [] := List.dropWhile_eq_nil_iff.mpr isWhole.all
    simp [numeral?, all, none, isWhole.nonempty]
  | fraction isWhole isFraction => exact ⟨_, numeral?_fraction isWhole isFraction⟩

namespace Rule

theorem exists_numberOf {digits : List Char} (numeral : Numeral digits) (line : Nat) :
    (∃ value, numberOf ⟨.number, String.ofList digits, line⟩ = .ok value) ∧
      ∃ value, numberOf ⟨.number, String.ofList (Scan.highMinus :: digits), line⟩ = .ok value := by
  obtain ⟨m, reads⟩ := Number.exists_numeral? numeral
  have marked : ((Scan.highMinus :: digits).map fun c => if c = '¯' then '-' else c) = '-' :: digits := by
    rw [List.map_cons, Number.map_mark_of_numeral numeral]
    rfl
  constructor
  · simp [numberOf, Number.map_mark_of_numeral numeral, Number.ofText?_of_numeral numeral, reads]
  · simp only [numberOf, String.toList_ofList, marked, reads,
      Number.ofText?_of_splitSign numeral (Number.splitSign_minus digits)]
    exact ⟨_, rfl⟩

theorem exists_characterOf {text : List Char} (quoted : QuotedCharacter '\x27' text) (line : Nat) :
    ∃ c, characterOf ⟨.character, String.ofList ('\x27' :: (text ++ ['\x27'])), line⟩ = .ok c := by
  have inside : (Quoted.content (String.ofList ('\x27' :: (text ++ ['\x27'])))).toList = Quoted.decode text := by
    simp [Quoted.content]
  simp only [characterOf, inside]
  cases quoted with
  | @plain c notQuote notEscape =>
    rw [Quoted.decode.eq_3]
    · exact ⟨c, rfl⟩
    · exact fun _ _ isEscape => (notEscape isEscape).elim
  | @escaped c sameLine => exact ⟨Quoted.escaped c, rfl⟩

theorem meaning?_singleton {glyph : Glyph} (listed : glyph ∈ Glyph.table) (kind : TokenKind) (line : Nat) :
    meaning? ⟨kind, String.singleton glyph.symbol, line⟩ = some glyph.meaning := by
  simp [meaning?, Glyph.ofSymbol?_symbol listed]

end Rule

/-- The kind of a glyph's token says what the glyph stands for. -/
theorem Glyph.legible {glyph : Glyph} (listed : glyph ∈ table) (spoken : glyph.kind ≠ .punctuation) (line : Nat) :
    Token.Legible ⟨Scan.tokenKind glyph.kind, String.singleton glyph.symbol, line⟩ := by
  have meaning := Rule.meaning?_singleton listed (Scan.tokenKind glyph.kind) line
  cases isMeaning : glyph.meaning with
  | function primitive =>
    have spells : Rule.glyphFunction ⟨Scan.tokenKind glyph.kind, String.singleton glyph.symbol, line⟩ =
        .ok primitive := by
      rw [Rule.glyphFunction, meaning, isMeaning]
    by_cases dyadic : primitive.arity = .dyadic <;>
      simp only [kind, Meaning.kind, isMeaning, dyadic, if_true, if_false, Scan.tokenKind] at spells ⊢ <;>
      constructor <;> simp [spells]
  | modifier modifier =>
    have spells : Rule.glyphModifier ⟨Scan.tokenKind glyph.kind, String.singleton glyph.symbol, line⟩ =
        .ok modifier := by
      rw [Rule.glyphModifier, meaning, isMeaning]
    have arity : modifier.arity = .monadic ∨ modifier.arity = .dyadic := by cases modifier <;> simp [Modifier.arity]
    rcases arity with monadic | dyadic
    · simp only [kind, Meaning.kind, isMeaning, monadic, reduceCtorEq, if_false, Scan.tokenKind] at spells ⊢
      constructor <;> simp [spells, monadic]
    · simp only [kind, Meaning.kind, isMeaning, dyadic, if_true, Scan.tokenKind] at spells ⊢
      constructor <;> simp [spells, dyadic]
  | punctuation => exact absurd (by simp [kind, isMeaning, Meaning.kind]) spoken

theorem Spelling.legible {kind : TokenKind} {piece : List Char} {image : String}
    (spelling : Spelling kind piece image) (line : Nat) : Token.Legible ⟨kind, image, line⟩ := by
  cases spelling with
  | verbatim stands =>
    cases stands with
    | number numeral =>
      exact ⟨fun _ => (Rule.exists_numberOf numeral line).1, by simp, by simp, by simp, by simp⟩
    | character inside =>
      exact ⟨by simp, fun _ => Rule.exists_characterOf inside line, by simp, by simp, by simp⟩
    | _ => constructor <;> simp
  | negative isMark numeral =>
    exact ⟨fun _ => (Rule.exists_numberOf numeral line).2, by simp, by simp, by simp, by simp⟩
  | sign sign either => cases sign <;> constructor <;> simp
  | binding isMark declares => constructor <;> simp
  | glyph listed spoken spells => exact Glyph.legible listed spoken line

theorem Cut.legible {line : Nat} {pieces : List (List Char)} {tokens : List Token} (cut : Cut line pieces tokens) :
    ∀ token ∈ tokens, token.Legible := by
  induction cut with
  | nil => simp
  | cons spelling _ _ ih => exact List.forall_mem_cons.mpr ⟨spelling.legible _, ih⟩

theorem legible_of_scan {source : String} {tokens : List Token} (scanned : scan source = .ok tokens) :
    ∀ token ∈ tokens, token.Legible := by
  obtain ⟨pieces, -, cut⟩ := scan_eq_ok_iff.mp scanned
  exact cut.legible

/-- The programs that source texts spell are well made. -/
theorem wellMade_of_readProgram {limit : Nat} {source : String} {program : List Node}
    (isRead : readProgram limit source = .ok program) : ∀ node ∈ program, node.WellMade := by
  obtain ⟨tokens, scanned, parsed⟩ := readProgram_eq_ok.mp isRead
  exact (parse_of_legible (legible_of_scan scanned) limit).2 program parsed

/-- Scanner and rules agree on tokens: the tokens of a source text are never refused for their spelling, and
in the programs that are read from them all nodes fit their forms. -/
theorem parse_of_scan {source : String} {tokens : List Token} (scanned : scan source = .ok tokens) (limit : Nat) :
    (∀ token ∈ tokens, token.Legible) ∧
      (∀ e, parse limit tokens = .error e → ¬ e.cause.OfSpelling) ∧
      ∀ program, parse limit tokens = .ok program →
        ∀ node ∈ program, ∀ inner : Node, inner.Inside node → inner.Fits := by
  have legible := legible_of_scan scanned
  obtain ⟨refuses, reads⟩ := parse_of_legible legible limit
  exact ⟨legible, fun e failed => (refuses e failed).cause, reads⟩

theorem parse_of_scan_of_mixed_spelling :
    let tokens : List Token := [⟨.dyadicFunction, "+", 1⟩, ⟨.monadicModifier, "¨", 1⟩, ⟨.dyadicModifier, "∘", 1⟩,
      ⟨.character, "'\\n'", 1⟩, ⟨.ligature, "‿", 1⟩, ⟨.number, "¯2.5", 1⟩]
    scan "add¨∘'\\n'_\x602.5" = .ok tokens ∧
      ∃ program, parse 1 tokens = .ok program ∧ program.length = 1 ∧
        ∀ node ∈ program, ∀ inner : Node, inner.Inside node → inner.Fits := by
  intro tokens
  have scanned : scan "add¨∘'\\n'_\x602.5" = .ok tokens := by decide +kernel
  have one : (parse 1 tokens).toOption.map List.length = some 1 := by decide +kernel
  refine ⟨scanned, ?_⟩
  cases parsed : parse 1 tokens with
  | error e =>
    rw [parsed] at one
    cases one
  | ok program =>
    rw [parsed] at one
    exact ⟨program, rfl, Option.some.inj one, (parse_of_scan scanned 1).2.2 program parsed⟩

end Tacit
