import Mathlib.Data.List.Chain
import Tacit.Proofs.Lexemes
import Tacit.Session

/-! Source texts and the canonical spelling of their tokens. Scanning loses nothing: the pieces of the
tokens make up the source, and their lines are counted in it. Where each token is spelled by its image
the same tokens are found again, unless a negation comes to stand directly before a number, which then
takes it for its sign. -/
namespace Tacit

def Spelled (piece : List Char) (token : Token) : Prop := Spelling token.kind piece token.image

/-- A piece is the canonical spelling of itself. -/
def Canonical (piece : List Char) (token : Token) : Prop :=
  Spelling token.kind piece (String.ofList piece)

/-- A source text as a sequence of pieces, one for each token. -/
structure Segmentation (source : String) (pieces : List (List Char)) (tokens : List Token) : Prop where
  lossless : pieces.flatten = source.toList
  nonempty : ∀ piece ∈ pieces, piece ≠ []
  spelled : List.Forall₂ Spelled pieces tokens
  line : ∀ i token, tokens[i]? = some token → token.line = 1 + (pieces.take i).flatten.count '\n'

def respelled (tokens : List Token) : String := String.join (tokens.map Token.image)

def images (tokens : List Token) : List (List Char) := tokens.map (·.image.toList)

theorem toList_respelled (tokens : List Token) : (respelled tokens).toList = (images tokens).flatten := by
  rw [respelled, String.toList_join, images, List.flatMap_map, List.flatMap_def]

theorem Glyph.count_newline {glyph : Glyph} (listed : glyph ∈ table) :
    [glyph.symbol].count '\n' = 0 ∧ glyph.ascii.toList.count '\n' = 0 := by
  revert glyph
  decide +kernel

namespace Scan

/-- A character that no token but a comment takes along. -/
def Inert (d : Char) : Prop :=
  d.isAlpha = false ∧ isBlank d = false ∧ d.isDigit = false ∧ d ≠ '.' ∧ declaredArity? d = none

instance (d : Char) : Decidable (Inert d) :=
  inferInstanceAs (Decidable (_ ∧ _))

theorem kind_of_inert {kind : TokenKind} {piece : List Char} {d : Char} (inert : Inert d)
    (continues : Continues kind piece d) : kind = .comment := by
  obtain ⟨noLetter, noBlank, noDigit, noPoint, undeclared⟩ := inert
  cases kind with
  | comment => rfl
  | binding arity => cases arity <;> simp [Continues, undeclared] at continues
  | _ => simp [Continues, noLetter, noBlank, noDigit, noPoint] at continues

theorem inert_symbol {glyph : Glyph} (listed : glyph ∈ Glyph.table) : Inert glyph.symbol := by
  revert glyph
  decide +kernel

/-- Only of a negation it matters how it is spelled. -/
theorem continues_congr {kind : TokenKind} (other : kind ≠ .monadicFunction) {piece piece' : List Char}
    {d : Char} (continues : Continues kind piece d) : Continues kind piece' d := by
  cases kind with
  | monadicFunction => contradiction
  | binding arity => cases arity <;> exact continues
  | _ => exact continues

end Scan

namespace Spelling

variable {kind : TokenKind} {piece : List Char} {image : String}

theorem canonical (spelling : Spelling kind piece image) : Spelling kind image.toList image := by
  cases spelling with
  | verbatim stands =>
    rw [String.toList_ofList]
    exact .verbatim stands
  | negative isMark numeral =>
    rw [String.toList_ofList]
    exact .negative (.inl rfl) numeral
  | sign sign either =>
    rw [String.toList_singleton]
    exact .sign sign (.inl rfl)
  | binding isMark declares =>
    rw [String.toList_ofList]
    exact .binding (.inl rfl) (.inl rfl)
  | glyph listed spoken spells =>
    rw [String.toList_singleton]
    exact .glyph listed spoken .symbol

theorem image_unique {image' : String} (spelling : Spelling kind piece image)
    (spelling' : Spelling kind piece image') : image = image' := by
  obtain ⟨c, more, rfl, -⟩ := spelling.exists_cons
  have first := @Scan.lexeme_of_spelling kind c more [] image spelling (by simp)
  have second := @Scan.lexeme_of_spelling kind c more [] image' spelling' (by simp)
  have same := first.symm.trans second
  simpa using same

/-- No line is lost or added by canonical spelling. -/
theorem count_newline (spelling : Spelling kind piece image) :
    image.toList.count '\n' = piece.count '\n' := by
  cases spelling with
  | verbatim stands => rw [String.toList_ofList]
  | negative isMark numeral =>
    rw [String.toList_ofList]
    rcases isMark with rfl | rfl <;> rfl
  | sign sign either => cases sign <;> rcases either with rfl | rfl <;> rfl
  | @binding arity mark digit isMark declares =>
    cases arity <;> rcases isMark with rfl | rfl <;> rcases declares with rfl | rfl <;> rfl
  | glyph listed spoken spells =>
    obtain ⟨symbol, ascii⟩ := Glyph.count_newline listed
    rw [String.toList_singleton, symbol]
    cases spells with
    | symbol => exact symbol.symm
    | ascii => exact ascii.symm
    | backtick => rfl

/-- Only the letters of a glyph differ in length from their canonical spelling. -/
theorem length_eq (spelling : Spelling kind piece image) (sameHead : piece.head? = image.toList.head?) :
    piece.length = image.toList.length := by
  cases spelling with
  | verbatim stands => rw [String.toList_ofList]
  | negative isMark numeral => rw [String.toList_ofList, List.length_cons, List.length_cons]
  | sign sign either => rw [String.toList_singleton, List.length_singleton, List.length_singleton]
  | binding isMark declares => rw [String.toList_ofList]; rfl
  | @glyph glyph _ listed spoken spells =>
    rw [String.toList_singleton] at sameHead ⊢
    cases spells with
    | symbol | backtick => rfl
    | ascii =>
      have noLetter := (Scan.symbol_plain listed spoken).2.2.1
      have letter := List.all_eq_true.mp (Glyph.ascii_letters listed spoken).1 glyph.symbol
        (List.mem_of_head? sameHead)
      simp [noLetter] at letter

/-- A canonical spelling begins like the piece, or else with an inert character. -/
theorem head_image {c : Char} {more : List Char} (spelling : Spelling kind (c :: more) image) :
    ∃ d more', image.toList = d :: more' ∧ (c = d ∨ c ≠ '\n' ∧ Scan.Inert d) := by
  generalize isPiece : c :: more = piece at spelling
  cases spelling with
  | verbatim stands =>
    subst isPiece
    exact ⟨c, more, String.toList_ofList, .inl rfl⟩
  | negative isMark numeral =>
    obtain ⟨rfl, rfl⟩ := List.cons.inj isPiece
    refine ⟨_, _, String.toList_ofList, .inr ⟨?_, by decide⟩⟩
    rcases isMark with rfl | rfl <;> decide
  | sign sign either =>
    obtain ⟨rfl, rfl⟩ := List.cons.inj isPiece
    refine ⟨_, _, String.toList_singleton _, .inr ?_⟩
    cases sign <;> rcases either with rfl | rfl <;> decide
  | binding isMark declares =>
    obtain ⟨rfl, rfl⟩ := List.cons.inj isPiece
    refine ⟨_, _, String.toList_ofList, .inr ⟨?_, by decide⟩⟩
    rcases isMark with rfl | rfl <;> decide
  | @glyph glyph _ listed spoken spells =>
    refine ⟨_, _, String.toList_singleton _, .inr ⟨?_, Scan.inert_symbol listed⟩⟩
    rintro rfl
    obtain ⟨symbol, ascii⟩ := Glyph.count_newline listed
    cases spells with
    | symbol =>
      obtain ⟨same, -⟩ := List.cons.inj isPiece
      simp [← same] at symbol
    | ascii => simp [← isPiece] at ascii
    | backtick => cases isPiece

/-- What the canonical spelling of a token begins with goes with a token before it only if what the
token's own piece begins with does. -/
theorem continues_of_image {c d : Char} {more more' : List Char} (spelling : Spelling kind (c :: more) image)
    (isImage : image.toList = d :: more') {before : TokenKind} {last : List Char}
    (continues : Scan.Continues before last d) : Scan.Continues before last c := by
  obtain ⟨_, _, isImage', same | ⟨notNewline, inert⟩⟩ := spelling.head_image
  · obtain ⟨rfl, -⟩ := List.cons.inj (isImage.symm.trans isImage')
    exact same ▸ continues
  · obtain ⟨rfl, -⟩ := List.cons.inj (isImage.symm.trans isImage')
    obtain rfl := Scan.kind_of_inert inert continues
    exact notNewline

theorem kind_of_digit {d : Char} {more : List Char} (spelling : Spelling kind (d :: more) image)
    (digit : d.isDigit = true) : kind = .number := by
  have read := @Scan.lexeme_of_spelling kind d more [] image spelling (by simp)
  have unsigned : ¬ (d = Scan.highMinus ∨ d = Scan.backtick) := by
    rintro (rfl | rfl) <;> cases digit
  rw [Scan.lexeme_of_isDigit digit, Scan.word, Scan.numberExtent?, if_neg unsigned, if_pos digit] at read
  exact (congrArg Lexeme.kind (Except.ok.inj read)).symm

theorem digit_of_number {d : Char} {more : List Char} (spelling : Spelling .number piece image)
    (isImage : image.toList = d :: more) (unsigned : d ≠ Scan.highMinus) : d.isDigit = true := by
  generalize isKind : TokenKind.number = kind at spelling
  cases spelling with
  | verbatim stands =>
    cases stands with
    | number numeral =>
      obtain ⟨first, others, rfl, digit⟩ := numeral.exists_cons
      rw [String.toList_ofList] at isImage
      exact (List.cons.inj isImage).1 ▸ digit
    | _ => cases isKind
  | negative isMark numeral =>
    rw [String.toList_ofList] at isImage
    exact (unsigned (List.cons.inj isImage).1.symm).elim
  | sign sign either => cases sign <;> cases isKind
  | binding => cases isKind
  | @glyph glyph _ listed spoken spells => cases kind : glyph.kind <;> simp [kind, Scan.tokenKind] at isKind

theorem image_ne_backtick (spelling : Spelling kind piece image) : image.toList ≠ [Scan.backtick] := by
  intro isImage
  have canonical := spelling.canonical
  rw [isImage] at canonical
  have read := @Scan.lexeme_of_spelling kind Scan.backtick [] [] image canonical (by simp)
  have isNegation : Scan.lexeme Scan.backtick [] = .ok ⟨.monadicFunction, "¯", 0⟩ := by rfl
  cases isNegation.symm.trans read
  cases isImage

end Spelling

/-- A negation directly before a number without a sign: spelled one after the other, they are a
negative number. -/
structure Merges (first second : Token) : Prop where
  negation : first.kind = .monadicFunction ∧ first.image = "¯"
  unsigned : second.kind = .number ∧ second.image.toList.head? ≠ some Scan.highMinus

instance (first second : Token) : Decidable (Merges first second) :=
  decidable_of_iff _ ⟨fun both => ⟨both.1, both.2⟩,
    fun merges => And.intro merges.negation merges.unsigned⟩

def Unmerged (tokens : List Token) : Prop := tokens.IsChain fun first second => ¬ Merges first second

instance (tokens : List Token) : Decidable (Unmerged tokens) :=
  inferInstanceAs (Decidable (tokens.IsChain _))

namespace Cut

variable {line : Nat} {pieces : List (List Char)} {tokens : List Token}

theorem spelled (cut : Cut line pieces tokens) : List.Forall₂ Spelled pieces tokens := by
  induction cut with
  | nil => exact .nil
  | cons spelling apart later ih => exact .cons spelling ih

theorem nonempty (cut : Cut line pieces tokens) : ∀ piece ∈ pieces, piece ≠ [] := by
  induction cut with
  | nil => simp
  | cons spelling apart later ih =>
    obtain ⟨c, more, rfl, -⟩ := spelling.exists_cons
    exact List.forall_mem_cons.mpr ⟨List.cons_ne_nil c more, ih⟩

theorem line_eq (cut : Cut line pieces tokens) (i : Nat) (token : Token) (at' : tokens[i]? = some token) :
    token.line = line + (pieces.take i).flatten.count '\n' := by
  induction cut generalizing i with
  | nil => cases at'
  | @cons line kind piece image pieces tokens spelling apart later ih =>
    cases i with
    | zero =>
      cases at'
      rfl
    | succ i =>
      rw [ih i at', List.take_succ_cons, List.flatten_cons, List.count_append, Nat.add_assoc]

/-- Spelled by their images, tokens are cut in the same way unless some of them merge. -/
theorem respelled (cut : Cut line pieces tokens) (unmerged : Unmerged tokens) :
    Cut line (images tokens) tokens := by
  induction cut with
  | nil => exact .nil _
  | @cons line kind piece image pieces tokens spelling apart later ih =>
    have behind := ih unmerged.tail
    rw [← spelling.count_newline] at behind
    refine .cons spelling.canonical (fun d isNext continues => ?_) behind
    cases later with
    | nil => cases isNext
    | @cons _ kind' piece' image' _ tokens spelling' apart' later =>
      obtain ⟨c, more, rfl, -⟩ := spelling'.exists_cons
      obtain ⟨d', more', isImage, -⟩ := spelling'.head_image
      have isHead : d' = d := by simpa [images, isImage] using isNext
      subst isHead
      by_cases other : kind = .monadicFunction
      · subst other
        obtain ⟨isMark, digit⟩ := continues
        have isNegation : image = "¯" :=
          String.toList_injective (isMark.resolve_right spelling.image_ne_backtick)
        have isNumber : kind' = .number := (isImage ▸ spelling'.canonical).kind_of_digit digit
        refine (List.isChain_cons_cons.mp unmerged).1 ⟨⟨rfl, isNegation⟩, isNumber, ?_⟩
        rw [isImage]
        rintro ⟨⟩
        cases digit
      · exact apart c rfl (spelling'.continues_of_image isImage (Scan.continues_congr other continues))

end Cut

/-- Pieces that make up the canonical spelling of the tokens they spell are canonical themselves. -/
theorem eq_images {pieces : List (List Char)} {tokens : List Token}
    (spelled : List.Forall₂ Spelled pieces tokens)
    (same : pieces.flatten = (images tokens).flatten) : pieces = images tokens := by
  induction spelled with
  | nil => rfl
  | @cons piece token pieces tokens spelling spelled ih =>
    change piece ++ pieces.flatten = token.image.toList ++ (images tokens).flatten at same
    obtain ⟨c, more, rfl, -⟩ := spelling.exists_cons
    obtain ⟨d, more', isImage, -⟩ := spelling.head_image
    have sameHead : (c :: more).head? = token.image.toList.head? := by
      rw [isImage] at same ⊢
      exact congrArg some (List.cons.inj same).1
    obtain ⟨first, others⟩ := List.append_inj same (spelling.length_eq sameHead)
    rw [first, ih others]
    rfl

theorem Cut.not_merges {line : Nat} {first second : Token} {pieces : List (List Char)} {tokens : List Token}
    (cut : Cut line (first.image.toList :: second.image.toList :: pieces) (first :: second :: tokens)) :
    ¬ Merges first second := by
  rintro ⟨⟨isFunction, isNegation⟩, isNumber, unsigned⟩
  cases cut with
  | cons spelling apart later =>
    cases later with
    | cons spelling' apart' later =>
      obtain ⟨d, more, isImage, -⟩ := spelling'.exists_cons
      dsimp only at isFunction isNegation isNumber unsigned isImage
      subst isFunction isNegation isNumber
      have digit := spelling'.digit_of_number isImage (by simpa [isImage] using unsigned)
      exact apart d (by simp [isImage]) ⟨.inl (by simp [Scan.highMinus]), digit⟩

theorem Cut.unmerged {line : Nat} {tokens : List Token} (cut : Cut line (images tokens) tokens) :
    Unmerged tokens := by
  induction tokens generalizing line with
  | nil => exact .nil
  | cons first tokens ih =>
    cases tokens with
    | nil => exact .singleton _
    | cons second tokens =>
      have apart := cut.not_merges
      cases cut with
      | cons spelling _ later => exact .cons_cons apart (ih later)

theorem eq_images_of_canonical {pieces : List (List Char)} {tokens : List Token}
    (spelled : List.Forall₂ Spelled pieces tokens)
    (canonical : List.Forall₂ Canonical pieces tokens) : pieces = images tokens := by
  induction spelled with
  | nil => rfl
  | @cons piece token pieces tokens spelling spelled ih =>
    cases canonical with
    | cons own canonical =>
      have first : piece = token.image.toList := by
        rw [spelling.image_unique own, String.toList_ofList]
      rw [ih canonical, first]
      rfl

namespace Segmentation

variable {source : String} {pieces : List (List Char)} {tokens : List Token}

theorem of_cut (lossless : pieces.flatten = source.toList) (cut : Cut 1 pieces tokens) :
    Segmentation source pieces tokens where
  lossless := lossless
  nonempty := cut.nonempty
  spelled := cut.spelled
  line := cut.line_eq

theorem lines_ordered (segmentation : Segmentation source pieces tokens) :
    tokens.Pairwise fun first second => first.line ≤ second.line := by
  rw [List.pairwise_iff_getElem]
  intro i j below below' before
  rw [segmentation.line i _ (List.getElem?_eq_getElem below),
    segmentation.line j _ (List.getElem?_eq_getElem below')]
  have start : pieces.take i <+: pieces.take j := List.take_prefix_take_left (Nat.le_of_lt before)
  obtain ⟨between, split⟩ := start
  rw [← split, List.flatten_append, List.count_append]
  omega

theorem respelled_eq_iff (segmentation : Segmentation source pieces tokens) :
    respelled tokens = source ↔ List.Forall₂ Canonical pieces tokens := by
  constructor
  · intro same
    have flat : pieces.flatten = (images tokens).flatten := by
      rw [segmentation.lossless, ← same, toList_respelled]
    have spelled := segmentation.spelled
    have isImages := eq_images spelled flat
    rw [isImages, images, List.forall₂_map_left_iff, List.forall₂_same] at spelled ⊢
    intro token member
    rw [Canonical, String.ofList_toList]
    exact spelled token member
  · intro canonical
    have flat := eq_images_of_canonical segmentation.spelled canonical
    apply String.toList_injective
    rw [toList_respelled, ← flat, segmentation.lossless]

end Segmentation

/-- A scanned text is cut into pieces without loss. Each token has the canonical spelling of its piece
and the line on which the piece begins, so lines never decrease, and in a text of canonical spellings
nothing is respelled. -/
theorem segmentation_of_scan {source : String} {tokens : List Token} (scanned : scan source = .ok tokens) :
    ∃ pieces, Segmentation source pieces tokens ∧
      (tokens.Pairwise fun first second => first.line ≤ second.line) ∧
      (respelled tokens = source ↔ List.Forall₂ Canonical pieces tokens) := by
  obtain ⟨pieces, lossless, cut⟩ := scan_eq_ok_iff.mp scanned
  have segmentation := Segmentation.of_cut lossless cut
  exact ⟨pieces, segmentation, segmentation.lines_ordered, segmentation.respelled_eq_iff⟩

theorem segmentation_of_mixed_spelling :
    let tokens : List Token := [⟨.identifier, "F", 1⟩, ⟨.binding (some .monadic), "←₁", 1⟩,
      ⟨.whitespace, " ", 1⟩, ⟨.number, "¯3", 1⟩, ⟨.ligature, "‿", 1⟩, ⟨.string, "\x22a\nb\x22", 1⟩,
      ⟨.dyadicFunction, "+", 2⟩, ⟨.comment, "# c", 2⟩, ⟨.newline, "\n", 2⟩, ⟨.monadicFunction, "¯", 3⟩]
    scan "F:1 \x603_\x22a\nb\x22add# c\nng" = .ok tokens ∧
      ∃ pieces, Segmentation "F:1 \x603_\x22a\nb\x22add# c\nng" pieces tokens ∧
        (tokens.Pairwise fun first second => first.line ≤ second.line) ∧
        (respelled tokens = "F:1 \x603_\x22a\nb\x22add# c\nng" ↔
          List.Forall₂ Canonical pieces tokens) := by
  intro tokens
  have scanned : scan "F:1 \x603_\x22a\nb\x22add# c\nng" = .ok tokens := by rfl
  exact ⟨scanned, segmentation_of_scan scanned⟩

/-- The canonical spelling of a scanned text has the same tokens, and so spells the same program, unless
a negation in it comes directly before a number without a sign. -/
theorem scan_respelled_iff {source : String} {tokens : List Token} (scanned : scan source = .ok tokens) :
    (scan (respelled tokens) = .ok tokens ↔ Unmerged tokens) ∧
      (Unmerged tokens → ∀ limit, readProgram limit (respelled tokens) = readProgram limit source) := by
  have again : scan (respelled tokens) = .ok tokens ↔ Unmerged tokens := by
    rw [scan_eq_ok_iff, toList_respelled]
    constructor
    · rintro ⟨pieces, same, cut⟩
      rw [eq_images cut.spelled same] at cut
      exact cut.unmerged
    · intro unmerged
      obtain ⟨pieces, -, cut⟩ := scan_eq_ok_iff.mp scanned
      exact ⟨images tokens, rfl, cut.respelled unmerged⟩
  refine ⟨again, fun unmerged limit => ?_⟩
  rw [readProgram, readProgram, again.mpr unmerged, scanned]

theorem scan_respelled_of_aliases :
    let tokens : List Token := [⟨.monadicFunction, "¯", 1⟩, ⟨.whitespace, " ", 1⟩, ⟨.number, "3", 1⟩,
      ⟨.dyadicFunction, "+", 1⟩, ⟨.monadicFunction, "¯", 1⟩, ⟨.number, "¯4", 1⟩]
    scan "ng 3addng\x604" = .ok tokens ∧ respelled tokens = "¯ 3+¯¯4" ∧
      Unmerged tokens ∧ scan "¯ 3+¯¯4" = .ok tokens ∧
      readProgram defaultLimit "¯ 3+¯¯4" = readProgram defaultLimit "ng 3addng\x604" := by
  intro tokens
  have scanned : scan "ng 3addng\x604" = .ok tokens := by rfl
  have spelling : respelled tokens = "¯ 3+¯¯4" := by rfl
  have unmerged : Unmerged tokens := by decide
  obtain ⟨again, program⟩ := scan_respelled_iff scanned
  rw [spelling] at again program
  exact ⟨scanned, spelling, unmerged, again.mpr unmerged, program unmerged defaultLimit⟩

/-- The canonical spelling of a text may have other tokens than the text. -/
theorem scan_respelled_differs :
    ¬ ∀ (source : String) (tokens : List Token), scan source = .ok tokens →
      scan (respelled tokens) = .ok tokens := by
  intro again
  have scanned : scan "ng3" = .ok [⟨.monadicFunction, "¯", 1⟩, ⟨.number, "3", 1⟩] := by rfl
  have merged : scan (respelled [⟨.monadicFunction, "¯", 1⟩, ⟨.number, "3", 1⟩]) =
      .ok [⟨.number, "¯3", 1⟩] := by rfl
  cases merged.symm.trans (again "ng3" _ scanned)

end Tacit
