import Tacit.Proofs.Respelling

/-! Glyphs that are written without blanks between them. Two letters or three spell a glyph, and the letters of one
glyph never begin those of another; so a text in which glyphs stand one behind the other, some by their symbols and
some by their letters, can be cut in one way only, and it is scanned as those glyphs. -/
namespace Tacit

namespace Glyph

/-- A glyph of the table that stands for a function or for a modifier. -/
def Executable (glyph : Glyph) : Prop := glyph ∈ table ∧ glyph.kind ≠ .punctuation

instance (glyph : Glyph) : Decidable glyph.Executable := inferInstanceAs (Decidable (_ ∧ _))

def token (glyph : Glyph) (line : Nat) : Token :=
  ⟨Scan.tokenKind glyph.kind, String.singleton glyph.symbol, line⟩

variable {glyph : Glyph} {piece : List Char}

theorem Executable.spelling (executable : glyph.Executable) (spells : glyph.Spells piece) :
    Spelling (Scan.tokenKind glyph.kind) piece (String.singleton glyph.symbol) :=
  .glyph executable.1 executable.2 spells

theorem Spells.count_newline (executable : glyph.Executable) (spells : glyph.Spells piece) :
    piece.count '\n' = 0 := by
  have same := (executable.spelling spells).count_newline
  have symbol := (Glyph.count_newline executable.1).1
  rw [String.toList_singleton, symbol] at same
  exact same.symm

/-- No way to spell a glyph begins with a digit, which a negation in front of it would take along. -/
theorem Spells.head_not_digit (executable : glyph.Executable) (spells : glyph.Spells piece) :
    ∀ d ∈ piece.head?, d.isDigit = false := by
  intro d isHead
  cases spells with
  | symbol =>
    cases isHead
    exact (Scan.symbol_plain executable.1 executable.2).2.2.2.1
  | ascii =>
    have letters := List.all_eq_true.mp (ascii_letters executable.1 executable.2).1
    exact Scan.isDigit_of_isLower (letters d (List.mem_of_mem_head? isHead))
  | backtick negation =>
    cases isHead
    rfl

theorem ofSymbol?_token (executable : glyph.Executable) (line : Nat) :
    (glyph.token line).image.toList.head?.bind ofSymbol? = some glyph := by
  simp [token, ofSymbol?_symbol executable.1]

end Glyph

theorem Cut.of_glyphs {glyphs : List Glyph} {pieces : List (List Char)} (line : Nat)
    (executable : ∀ glyph ∈ glyphs, glyph.Executable) (spelled : List.Forall₂ Glyph.Spells glyphs pieces) :
    Cut line pieces (glyphs.map (·.token line)) := by
  induction spelled with
  | nil => exact .nil line
  | @cons glyph piece glyphs pieces spells others ih =>
    obtain ⟨first, later⟩ := List.forall_mem_cons.mp executable
    have apart : ∀ d ∈ pieces.flatten.head?, ¬ Scan.Continues (Scan.tokenKind glyph.kind) piece d := by
      intro d isNext continues
      have digit := (Scan.continues_tokenKind continues).2
      cases others with
      | nil => cases isNext
      | @cons next nextPiece _ _ nextSpells _ =>
        have nextExecutable := later next List.mem_cons_self
        obtain ⟨c, more, rfl, -⟩ := (nextExecutable.spelling nextSpells).exists_cons
        have noDigit := nextSpells.head_not_digit nextExecutable d isNext
        rw [noDigit] at digit
        cases digit
    have behind : Cut (line + piece.count '\n') pieces (glyphs.map (·.token line)) := by
      rw [spells.count_newline first]
      exact ih later
    exact .cons (first.spelling spells) apart behind

theorem map_token_injective {glyphs others : List Glyph} {line : Nat}
    (executable : ∀ glyph ∈ glyphs, glyph.Executable) (otherExecutable : ∀ glyph ∈ others, glyph.Executable)
    (same : glyphs.map (·.token line) = others.map (·.token line)) : glyphs = others := by
  have decoded {glyphs : List Glyph} (executable : ∀ glyph ∈ glyphs, glyph.Executable) :
      (glyphs.map (·.token line)).map (·.image.toList.head?.bind Glyph.ofSymbol?) = glyphs.map some := by
    rw [List.map_map]
    exact List.map_congr_left fun glyph member => Glyph.ofSymbol?_token (executable glyph member) line
  have sameGlyphs : glyphs.map some = others.map some := by
    rw [← decoded executable, same, decoded otherExecutable]
  exact List.map_injective_iff.mpr (fun _ _ => Option.some.inj) sameGlyphs

/-- Glyphs that are spelled one behind the other, each by its symbol or by its letters, are scanned as their tokens;
so no other glyphs can be spelled by the same text. -/
theorem scan_glyphs {glyphs : List Glyph} {pieces : List (List Char)}
    (executable : ∀ glyph ∈ glyphs, glyph.Executable) (spelled : List.Forall₂ Glyph.Spells glyphs pieces) :
    scan (String.ofList pieces.flatten) = .ok (glyphs.map (·.token 1)) ∧
      ∀ (others : List Glyph) (otherPieces : List (List Char)), (∀ glyph ∈ others, glyph.Executable) →
        List.Forall₂ Glyph.Spells others otherPieces → otherPieces.flatten = pieces.flatten → others = glyphs := by
  have scanned {glyphs : List Glyph} {pieces : List (List Char)} (executable : ∀ glyph ∈ glyphs, glyph.Executable)
      (spelled : List.Forall₂ Glyph.Spells glyphs pieces) :
      scan (String.ofList pieces.flatten) = .ok (glyphs.map (·.token 1)) :=
    scan_eq_ok_iff.mpr ⟨pieces, by simp, Cut.of_glyphs 1 executable spelled⟩
  refine ⟨scanned executable spelled, fun others otherPieces otherExecutable otherSpelled sameText => ?_⟩
  have tokens := scanned otherExecutable otherSpelled
  rw [sameText, scanned executable spelled] at tokens
  exact (map_token_injective executable otherExecutable (Except.ok.inj tokens)).symm

/-- Two letters in front of three, three in front of two, and a negation in front of letters. -/
theorem scan_glyphs_of_letters_and_symbols :
    let glyphs : List Glyph := [⟨'≠', "ne", "not equal", .function .notEqual⟩,
      ⟨'>', "grt", "greater than", .function .greater⟩, ⟨'⋅', "id", "identity", .function .identity⟩,
      ⟨'¯', "ng", "negate", .function .negate⟩, ⟨'¬', "not", "not", .function .complement⟩,
      ⟨'○', "ov", "over", .modifier .over⟩]
    (∀ glyph ∈ glyphs, glyph.Executable) ∧
      scan "negrtid¯notov" = .ok [⟨.dyadicFunction, "≠", 1⟩, ⟨.dyadicFunction, ">", 1⟩, ⟨.monadicFunction, "⋅", 1⟩,
        ⟨.monadicFunction, "¯", 1⟩, ⟨.monadicFunction, "¬", 1⟩, ⟨.dyadicModifier, "○", 1⟩] := by
  intro glyphs
  have executable : ∀ glyph ∈ glyphs, glyph.Executable := by decide +kernel
  have spelled : List.Forall₂ Glyph.Spells glyphs
      ["ne".toList, "grt".toList, "id".toList, ['¯'], "not".toList, "ov".toList] :=
    .cons .ascii (.cons .ascii (.cons .ascii (.cons .symbol (.cons .ascii (.cons .ascii .nil)))))
  exact ⟨executable, (scan_glyphs executable spelled).1⟩

end Tacit
