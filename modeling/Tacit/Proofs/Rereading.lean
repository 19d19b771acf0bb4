import Tacit.Proofs.Contents
import Tacit.Proofs.Forcing
import Tacit.Proofs.Texts

/-! What a value shows, read again. The text of a value need not denote the value, since arrays inside an
array are written like further axes, and it need not denote anything. But there is only one way to read it,
and what is read, if it has a value, has one with the same text. This is shown of numbers, characters and
functions, of rows, and of arrays axis by axis. -/
namespace Tacit

/-- A node whose value, if it has one, has a certain text. -/
def Node.Shows (node : Node) (text : List Char) : Prop :=
  ∀ value after, node.eval.outcome .empty = (.ok value, after) → after = .empty ∧ value.text = text ∧ value.Proper

theorem Node.evalAll_of_shows {nodes : List Node} {texts : List (List Char)}
    (shows : List.Forall₂ Node.Shows nodes texts) {values : List Value} {after : Env}
    (ended : (Node.evalAll nodes).outcome .empty = (.ok values, after)) :
    after = .empty ∧ values.map Value.text = texts ∧ ∀ value ∈ values, value.Proper := by
  induction shows generalizing values after with
  | nil =>
    cases ended
    exact ⟨rfl, rfl, by simp⟩
  | @cons node text nodes texts first _ ih =>
    rw [Node.outcome_evalAll_cons] at ended
    rcases firstEnded : node.eval.outcome .empty with ⟨_ | value, between⟩ <;> rw [firstEnded] at ended
    · cases ended
    obtain ⟨rfl, isText, proper⟩ := first value between firstEnded
    rcases othersEnded : (Node.evalAll nodes).outcome .empty with ⟨_ | others, final⟩ <;>
      simp only [othersEnded] at ended <;> cases ended
    obtain ⟨rfl, areTexts, areProper⟩ := ih othersEnded
    exact ⟨rfl, by rw [List.map_cons, isText, areTexts], List.forall_mem_cons.mpr ⟨proper, areProper⟩⟩

/-- A text that scans in a certain way wherever it stands, in front of a blank, a closing bracket or nothing:
its significant tokens, if it has any, are as demanded. -/
def Scans (demand : List Token → Prop) (text : List Char) : Prop :=
  ∀ line rest tokens, (∀ d ∈ rest.head?, d = ' ' ∨ d = ']') → Scan.tokensFrom line 0 (text ++ rest) = .ok tokens →
    ∃ own behind after, significant tokens = own ++ significant behind ∧
      Scan.tokensFrom after 0 rest = .ok behind ∧ demand own

section Scans

variable {demand : List Token → Prop} {text : List Char}

theorem Scan.tokensFrom_spelling {line : Nat} {kind : TokenKind} {piece next : List Char} {image : String}
    {tokens : List Token} (spelling : Spelling kind piece image)
    (apart : ∀ d ∈ next.head?, ¬ Continues kind piece d)
    (scanned : tokensFrom line 0 (piece ++ next) = .ok tokens) :
    ∃ behind, tokens = ⟨kind, image, line⟩ :: behind ∧
      tokensFrom (line + piece.count '\n') 0 next = .ok behind := by
  rw [tokensFrom_of_spelling spelling apart, map_eq_ok] at scanned
  obtain ⟨behind, later, rfl⟩ := scanned
  exact ⟨behind, rfl, later⟩

theorem Scans.mono {stronger : List Token → Prop} (scans : Scans stronger text)
    (weaker : ∀ own, stronger own → demand own) : Scans demand text := by
  intro line rest tokens stops scanned
  obtain ⟨own, behind, after, isOwn, later, holds⟩ := scans _ _ _ stops scanned
  exact ⟨own, behind, after, isOwn, later, weaker own holds⟩

theorem Scan.tokensFrom_separator {line : Nat} {c : Char} {next : List Char} {tokens : List Token}
    (notBlank : isBlank c = false) (scanned : tokensFrom line 0 (" ⋄ ".toList ++ c :: next) = .ok tokens) :
    ∃ behind, tokens = separator line ++ behind ∧ tokensFrom line 0 (c :: next) = .ok behind := by
  have blank : Spelling .whitespace [' '] (String.ofList [' ']) := .verbatim (.whitespace rfl (by simp))
  have mark : Spelling .separator ['⋄'] (String.singleton '⋄') := .sign .separator (.inl rfl)
  have parted : ∀ d ∈ ('⋄' :: ' ' :: c :: next).head?, ¬ Continues .whitespace [' '] d := by
    rintro d ⟨⟩ continues
    cases continues
  have stops : ∀ d ∈ (c :: next).head?, ¬ Continues .whitespace [' '] d := by
    rintro d ⟨⟩ continues
    simp [Continues, notBlank] at continues
  obtain ⟨_, rfl, fromMark⟩ := tokensFrom_spelling blank parted scanned
  obtain ⟨_, rfl, behindMark⟩ := tokensFrom_spelling mark (fun _ _ => id) fromMark
  obtain ⟨behind, rfl, later⟩ := tokensFrom_spelling blank stops behindMark
  exact ⟨behind, rfl, later⟩

theorem Scans.separated {others joined : List Token → Prop} {second : List Char} (first : Scans demand text)
    (begins : ∃ c more, second = c :: more ∧ Scan.isBlank c = false) (rest : Scans others second)
    (join : ∀ own mark later, demand own → mark.kind = .separator → others later → joined (own ++ mark :: later)) :
    Scans joined (text ++ " ⋄ ".toList ++ second) := by
  intro line next tokens stops scanned
  obtain ⟨c, more, rfl, notBlank⟩ := begins
  rw [List.append_assoc, List.append_assoc] at scanned
  obtain ⟨own, _, between, isOwn, fromMark, holds⟩ := first _ _ _ (by simp) scanned
  obtain ⟨_, rfl, behindMark⟩ := Scan.tokensFrom_separator notBlank fromMark
  obtain ⟨later, behind, after, isLater, scannedLast, hold⟩ := rest _ _ _ stops behindMark
  refine ⟨own ++ ⟨.separator, String.singleton '⋄', between⟩ :: later, behind, after, ?_, scannedLast,
    join own _ later holds rfl hold⟩
  rw [isOwn, significant_append, isLater, List.append_assoc]
  rfl

theorem Scans.bracketed {outer : List Token → Prop} (inside : Scans demand text)
    (enclose : ∀ opening own closing, opening.kind = .openArray → demand own → closing.kind = .closeArray →
      outer (opening :: own ++ [closing])) : Scans outer ('[' :: text ++ [']']) := by
  intro line next tokens stops scanned
  have opens : Spelling .openArray ['['] (String.ofList ['[']) := .verbatim .openArray
  have closes : Spelling .closeArray [']'] (String.ofList [']']) := .verbatim .closeArray
  rw [List.append_assoc] at scanned
  obtain ⟨_, rfl, fromInside⟩ := Scan.tokensFrom_spelling opens (fun _ _ => id) scanned
  obtain ⟨own, _, between, isOwn, fromEnd, holds⟩ := inside _ _ _ (by simp) fromInside
  obtain ⟨behind, rfl, later⟩ := Scan.tokensFrom_spelling closes (fun _ _ => id) fromEnd
  let opening : Token := ⟨.openArray, String.ofList ['['], line⟩
  let closing : Token := ⟨.closeArray, String.ofList [']'], between⟩
  refine ⟨opening :: own ++ [closing], behind, _, ?_, later, enclose opening own closing rfl holds rfl⟩
  rw [List.append_assoc]
  exact congrArg (opening :: ·) isOwn

end Scans

/-- A text that is read again as itself: it begins with no blank, and what it denotes, if it denotes
anything, has this text. -/
structure Rereads (text : List Char) : Prop where
  begins : ∃ c more, text = c :: more ∧ Scan.isBlank c = false
  forced : Scans (Forces · (Node.Shows · text)) text

theorem rereads_token {kind : TokenKind} {image : String} {text : List Char}
    (begins : ∃ c more, text = c :: more ∧ Scan.isBlank c = false) (spelling : Spelling kind text image)
    (apart : ∀ d, d = ' ' ∨ d = ']' → ¬ Scan.Continues kind text d)
    (known : ∀ line, ∃ node, (∀ levels, Grammar.Primary levels [⟨kind, image, line⟩] node) ∧ node.Shows text) :
    Rereads text := by
  refine ⟨begins, fun line rest tokens stops scanned => ?_⟩
  have parted : ∀ d ∈ rest.head?, ¬ Scan.Continues kind text d := fun d isNext => apart d (stops d isNext)
  obtain ⟨behind, rfl, later⟩ := Scan.tokensFrom_spelling spelling parted scanned
  obtain ⟨node, primary, shows⟩ := known line
  obtain ⟨_, _, ⟨⟩, isPrimary⟩ := (primary 0).starts
  refine ⟨[⟨kind, image, line⟩], behind, _, ?_, later, forces_token primary shows⟩
  rw [← List.singleton_append, significant_append, (significant_of_beginsPrimary isPrimary).1]

theorem Literal.rereads {kind : TokenKind} {image : String} {text : List Char} {value : Value}
    (literal : Literal kind text image value) (isText : value.text = text) (proper : value.Proper) :
    Rereads text := by
  refine rereads_token literal.begins literal.spelling literal.apart fun line => ?_
  obtain ⟨node, primary, evaluates⟩ := literal.derived line
  refine ⟨node, primary, fun other after ended => ?_⟩
  rw [evaluates] at ended
  cases ended
  exact ⟨rfl, isText, proper⟩

theorem Scan.tokensFrom_ne_ok {c : Char} {rest : List Char} {fault : LexFault}
    (refused : lexeme c rest = .error fault) (line : Nat) (tokens : List Token) : tokensFrom line 0 (c :: rest) ≠ .ok tokens := by
  intro scanned
  simp only [tokensFrom, refused, bind_eq_ok] at scanned
  obtain ⟨_, failed, _⟩ := scanned
  cases failed

theorem rereads_of_unscanned {c : Char} {more : List Char} (begins : Scan.isBlank c = false)
    (fails : ∀ line rest tokens, Scan.tokensFrom line 0 (c :: more ++ rest) ≠ .ok tokens) : Rereads (c :: more) :=
  ⟨⟨c, more, rfl, begins⟩, fun line rest tokens _ scanned => absurd scanned (fails line rest tokens)⟩

/-- The name that is written for a NaN is bound to nothing. -/
theorem rereads_nan : Rereads ['N', 'a', 'N'] := by
  have name : Verbatim .identifier ['N', 'a', 'N'] := .identifier rfl (by simp)
  refine rereads_token ⟨_, _, rfl, rfl⟩ (.verbatim name) ?_ fun line => ⟨_, fun levels => .reference rfl, ?_⟩
  · rintro d (rfl | rfl) <;> simp [Scan.Continues]
  · intro value after ended
    rw [Node.eval, Eval.outcome_lookup] at ended
    simp at ended

theorem rereads_number (x : Float) : Rereads (Number.text x) := by
  by_cases finite : Number.isFinite x = true
  · obtain ⟨y, literal, equal⟩ := exists_literal_number finite
    refine literal.rereads ?_ trivial
    rw [Value.text, Number.text_of_equal equal]
  have unknown (line : Nat) (rest : List Char) (tokens : List Token) :
      Scan.tokensFrom line 0 ('∞' :: rest) ≠ .ok tokens := Scan.tokensFrom_ne_ok rfl line tokens
  rcases Number.text_of_not_finite finite with isText | isText | isText <;> rw [isText]
  · exact rereads_nan
  · exact rereads_of_unscanned rfl unknown
  · -- The mark in front of an infinity is read as a glyph.
    refine rereads_of_unscanned rfl fun line rest tokens scanned => ?_
    have mark := @Spelling.glyph ⟨'¯', "ng", "negate", .function .negate⟩ ['¯'] (by decide) (by decide) .symbol
    have apart : ∀ d ∈ ('∞' :: rest).head?, ¬ Scan.Continues .monadicFunction ['¯'] d := by
      rintro d ⟨⟩ continues
      cases continues.2
    obtain ⟨behind, -, later⟩ := Scan.tokensFrom_spelling mark apart scanned
    exact unknown _ rest behind later

theorem rereads_function (fn : Fn) : Rereads (Value.function fn).text := by
  rw [Value.text]
  cases fn.arity with
  | niladic | monadic | dyadic =>
    exact rereads_of_unscanned rfl fun line rest tokens => Scan.tokensFrom_ne_ok rfl line tokens

theorem scans_intercalate {texts : List (List Char)} (each : ∀ text ∈ texts, Rereads text) :
    Scans (ForcesAll · (List.Forall₂ Node.Shows · texts)) (List.intercalate " ⋄ ".toList texts) := by
  induction texts with
  | nil => exact fun line rest tokens _ scanned => ⟨[], tokens, line, rfl, scanned, forcesAll_nil⟩
  | cons text texts ih =>
    obtain ⟨first, others⟩ := List.forall_mem_cons.mp each
    cases texts with
    | nil =>
      rw [List.intercalate_singleton]
      refine first.forced.mono fun own forces => forces.single fun node shows => ?_
      exact .cons shows .nil
    | cons next texts =>
      have begins : ∃ c more, List.intercalate " ⋄ ".toList (next :: texts) = c :: more ∧
          Scan.isBlank c = false := by
        obtain ⟨c, more, isNext, notBlank⟩ := (others next List.mem_cons_self).begins
        cases texts with
        | nil => exact ⟨c, more, by simp [isNext], notBlank⟩
        | cons => exact ⟨c, _, by rw [isNext, List.intercalate_cons_cons]; rfl, notBlank⟩
      rw [List.intercalate_cons_cons]
      refine first.forced.separated begins (ih others) fun own mark later forces isMark rest => ?_
      exact .cons forces isMark rest fun node nodes shows shown => .cons shows shown

/-- An array of nodes with certain texts is written as the texts between brackets, or it has no value. -/
theorem Node.shows_array {nodes : List Node} {texts : List (List Char)} (line : Nat)
    (shows : List.Forall₂ Node.Shows nodes texts) (mixed : ∃ text ∈ texts, text.head? ≠ some '\x27') :
    (Node.array nodes line).Shows (Display.bracketed texts) := by
  intro value after ended
  rw [Node.eval_eq, Eval.outcome_bind, Node.children] at ended
  rcases inner : (Node.evalAll nodes).outcome .empty with ⟨_ | cells, between⟩ <;> rw [inner] at ended
  · cases ended
  obtain ⟨rfl, rfl, proper⟩ := Node.evalAll_of_shows shows inner
  have acts : (atLine line (Value.array <$> Value.stack cells), Env.empty) = (.ok value, after) := ended
  cases stacked : Value.stack cells <;> rw [stacked] at acts <;> cases acts
  case ok grid =>
    have other : ∃ cell ∈ cells, cell.asCharacter? = none := by
      obtain ⟨_, member, head⟩ := mixed
      obtain ⟨cell, isCell, rfl⟩ := List.mem_map.mp member
      refine ⟨cell, isCell, Option.eq_none_iff_forall_ne_some.mpr fun c isCharacter => ?_⟩
      exact head (Value.head_text_of_character isCharacter)
    exact ⟨rfl, Value.text_stack stacked proper other⟩

/-- Texts between brackets, unless all of them are characters. -/
theorem rereads_bracketed {texts : List (List Char)} (each : ∀ text ∈ texts, Rereads text)
    (mixed : texts = [] ∨ ∃ text ∈ texts, text.head? ≠ some '\x27') : Rereads (Display.bracketed texts) := by
  refine ⟨⟨'[', _, rfl, rfl⟩, (scans_intercalate each).bracketed fun opening own closing opens inside closes => ?_⟩
  refine inside.bracketed opens closes fun nodes shows => ?_
  rcases mixed with rfl | mixed
  · cases shows
    rintro _ _ ⟨⟩
    exact ⟨rfl, rfl, by simp [Value.Proper, Grid.vector]⟩
  · exact Node.shows_array opening.line shows mixed

theorem rereads_row {data : List Value} (each : ∀ value ∈ data, Rereads value.text) :
    Rereads (Display.row (Value.items data)) := by
  have texts : ∀ text ∈ data.map Value.text, Rereads text := by simpa using each
  have row := Value.row_items data
  cases all : data.mapM Value.asCharacter? with
  | none =>
    obtain ⟨value, member, other⟩ := Value.mapM_asCharacter?_eq_none.mp all
    rw [all] at row
    rw [row]
    exact rereads_bracketed texts
      (.inr ⟨value.text, List.mem_map_of_mem member, Value.head_text_of_not_character other⟩)
  | some characters =>
    obtain rfl := Value.eq_characters all
    rw [all] at row
    cases characters with
    | nil =>
      rw [row]
      exact rereads_bracketed texts (.inl rfl)
    | cons c rest =>
      have isText : (Value.ofText (c :: rest)).text = Quoted.enclose '\x22' (c :: rest) := by
        rw [Value.ofText, Grid.vector, Value.text, Display.layout_row (by simp), row]
      rw [row]
      exact (literal_string (c :: rest)).rereads isText (by simp [Value.Proper, Value.ofText, Grid.vector])

theorem rereads_layout {shape : Shape} {data : List Value} (each : ∀ value ∈ data, Rereads value.text) :
    Rereads (Display.layout shape (Value.items data)) := by
  induction shape generalizing data with
  | nil => exact rereads_of_unscanned rfl fun line rest tokens => Scan.tokensFrom_ne_ok rfl line tokens
  | cons axis axes ih =>
    rcases Nat.eq_zero_or_pos axis with rfl | notEmpty
    · exact @rereads_bracketed [] (by simp) (.inl rfl)
    cases axes with
    | nil =>
      rw [Display.layout_row notEmpty]
      exact rereads_row each
    | cons second axes =>
      rw [Display.layout_pieces notEmpty, Value.chunks_items, List.map_map]
      apply rereads_bracketed
      · simp only [List.mem_map]
        rintro _ ⟨piece, member, rfl⟩
        exact ih fun value isValue => each value (Grid.mem_of_mem_chunks member isValue)
      · obtain ⟨piece, member⟩ := List.exists_mem_of_length_pos
          (show 0 < (Grid.chunks axis (Shape.size (second :: axes)) data).length by rwa [Grid.length_chunks])
        exact .inr ⟨_, List.mem_map_of_mem member, Display.head_layout _ _⟩

theorem rereads_text (value : Value) : Rereads value.text := by
  induction value using Value.induct_elements with
  | number x =>
    rw [Value.text]
    exact rereads_number x
  | character c =>
    rw [Value.text]
    exact (literal_character c).rereads (by rw [Value.text]) trivial
  | function fn => exact rereads_function fn
  | array grid each =>
    rw [Value.text]
    exact rereads_layout each

theorem Rereads.submit {text : List Char} (rereads : Rereads text) {result : Option Value} {env : Env}
    (succeeds : submit (String.ofList text) .empty = (.ok result, env)) :
    ∃ again, result = some again ∧ again.text = text := by
  cases isRead : readProgram defaultLimit (String.ofList text) with
  | error failure => simp [Tacit.submit, submitWithLimit, isRead] at succeeds
  | ok program =>
    obtain ⟨tokens, scanned, parsed⟩ := readProgram_eq_ok.mp isRead
    have whole : Scan.tokensFrom 1 0 (text ++ []) = .ok tokens := by
      rwa [scan, String.toList_ofList, ← List.append_nil text] at scanned
    obtain ⟨own, behind, _, isOwn, ⟨⟩, forces⟩ := rereads.forced 1 [] tokens (by simp) whole
    rw [show significant [] = [] from rfl, List.append_nil] at isOwn
    obtain ⟨node, rfl, shows⟩ := parse_of_forces (isOwn ▸ forces) parsed
    rw [submit_of_readProgram isRead, Node.outcome_evalAll_cons] at succeeds
    rcases ended : node.eval.outcome .empty with ⟨_ | again, after⟩ <;> rw [ended] at succeeds <;> cases succeeds
    exact ⟨again, rfl, (shows again after ended).2.1⟩

/-- What a value shows is stable: if it is submitted with success, the result is a value that shows the same,
though it need not be the same value. -/
theorem display_of_submit_display {value : Value} {result : Option Value} {env : Env}
    (succeeds : submit value.display .empty = (.ok result, env)) :
    ∃ again, result = some again ∧ again.display = value.display := by
  obtain ⟨again, isResult, isText⟩ := (rereads_text value).submit succeeds
  exact ⟨again, isResult, congrArg String.ofList isText⟩

/-- A vector of two matrices comes back as one array with three axes. -/
theorem display_of_submit_display_of_matrices :
    let value : Value := .array (Grid.vector
      [.array ⟨[1, 2], [.character 'a', .character '\n']⟩, .array ⟨[1, 2], [.character 'b', .character '\x22']⟩])
    let again : Value := .array ⟨[2, 1, 2], [.character 'a', .character '\n', .character 'b', .character '\x22']⟩
    submit value.display .empty = (.ok (some again), .empty) ∧ again.equal value = false ∧
      ∃ other, some again = some other ∧ other.display = value.display := by
  intro value again
  have succeeds : submit value.display .empty = (.ok (some again), .empty) := by cbv
  exact ⟨succeeds, rfl, display_of_submit_display succeeds⟩

end Tacit
