import Tacit.Proofs.Numerals
import Tacit.Proofs.Sessions
import Tacit.Proofs.Statements

/-! Literals: texts that denote a value wherever they stand. Such a text is cut into tokens in front of a
blank, a closing bracket or nothing, the tokens are derived as a primary, and its evaluation gives the
value and leaves the environment alone. Numbers and quoted texts are literals, and so are literals
between brackets whose values can be stacked. -/
namespace Tacit

namespace Quoted

section Escape

variable (quote : Char)

theorem escape_cases (c : Char) :
    (∃ letter, escape quote c = ['\\', letter] ∧ letter ≠ '\n' ∧ escaped letter = c) ∨
      (c = quote ∧ escape quote c = ['\\', c]) ∨ (c ≠ quote ∧ c ≠ '\\' ∧ escape quote c = [c]) := by
  by_cases newline : c = '\n'
  · subst newline
    exact .inl ⟨'n', rfl, by decide, rfl⟩
  by_cases tab : c = '\t'
  · subst tab
    exact .inl ⟨'t', rfl, by decide, rfl⟩
  by_cases null : c = '\x00'
  · subst null
    exact .inl ⟨'0', rfl, by decide, rfl⟩
  by_cases backslash : c = '\\'
  · subst backslash
    exact .inl ⟨'\\', rfl, by decide, rfl⟩
  by_cases isQuote : c = quote
  · subst isQuote
    exact .inr (.inl ⟨rfl, by simp [escape, newline, tab, null]⟩)
  · exact .inr (.inr ⟨isQuote, backslash, by simp [escape, newline, tab, null, backslash, isQuote]⟩)

/-- An escaped character stands for itself again. -/
theorem decode_escape_append (unnamed : escaped quote = quote) (c : Char) (rest : List Char) :
    decode (escape quote c ++ rest) = c :: decode rest := by
  rcases escape_cases quote c with ⟨letter, isText, -, rfl⟩ | ⟨rfl, isText⟩ | ⟨-, plain, isText⟩ <;> rw [isText]
  · rfl
  · change escaped c :: decode rest = _
    rw [unnamed]
  · rw [List.singleton_append, decode.eq_3]
    simp [plain]

theorem decode_flatMap_escape (unnamed : escaped quote = quote) (text : List Char) :
    decode (text.flatMap (escape quote)) = text := by
  induction text with
  | nil => rfl
  | cons c text ih => rw [List.flatMap_cons, decode_escape_append quote unnamed, ih]

/-- What is quoted is read as it was. -/
theorem content_enclose (unnamed : escaped quote = quote) (text : List Char) :
    content (String.ofList (enclose quote text)) = String.ofList text := by
  have inside : ((enclose quote text).drop 1).dropLast = text.flatMap (escape quote) := by
    simp [enclose]
  rw [content, String.toList_ofList, inside, decode_flatMap_escape quote unnamed]

theorem quotedCharacter_escape (sameLine : quote ≠ '\n') (c : Char) : QuotedCharacter quote (escape quote c) := by
  rcases escape_cases quote c with ⟨letter, isText, onLine, -⟩ | ⟨rfl, isText⟩ | ⟨notQuote, plain, isText⟩ <;>
    rw [isText]
  · exact .escaped onLine
  · exact .escaped sameLine
  · exact .plain notQuote plain

theorem quotedText_escape (sameLine : quote ≠ '\n') (text : List Char) :
    QuotedText quote (text.flatMap (escape quote)) := by
  induction text with
  | nil => exact .nil
  | cons c text ih => exact .cons (quotedCharacter_escape quote sameLine c) ih

end Escape

end Quoted

/-- Pieces of text that are cut into tokens in front of a blank, a closing bracket or nothing. -/
def Fragment (line : Nat) (pieces : List (List Char)) (tokens : List Token) : Prop :=
  ∀ others behind, (∀ d ∈ others.flatten.head?, d = ' ' ∨ d = ']') →
    Cut (line + pieces.flatten.count '\n') others behind → Cut line (pieces ++ others) (tokens ++ behind)

/-- A text that is derived as something wherever it stands. It begins with no blank. -/
structure Stands {α : Type} (derives : List Token → α → Prop) (text : List Char) : Prop where
  begins : ∃ c rest, text = c :: rest ∧ Scan.isBlank c = false
  derived : ∀ line, ∃ pieces tokens a, pieces.flatten = text ∧ Fragment line pieces tokens ∧ Unbroken tokens ∧
    derives (significant tokens) a

def Denotes (levels : Nat) (text : List Char) (value : Value) : Prop :=
  Stands (fun tokens node => Grammar.Primary levels tokens node ∧
    ∀ env, node.eval.outcome env = (.ok value, env)) text

def DenotesAll (levels : Nat) (text : List Char) (values : List Value) : Prop :=
  Stands (fun tokens nodes => Grammar.Elements levels tokens nodes ∧
    ∀ env, (Node.evalAll nodes).outcome env = (.ok values, env)) text

/-- A text that is a single token in front of a blank, a closing bracket or nothing, and denotes a value. -/
structure Literal (kind : TokenKind) (text : List Char) (image : String) (value : Value) : Prop where
  begins : ∃ c more, text = c :: more ∧ Scan.isBlank c = false
  spelling : Spelling kind text image
  apart : ∀ d, d = ' ' ∨ d = ']' → ¬ Scan.Continues kind text d
  derived : ∀ line, ∃ node, (∀ levels, Grammar.Primary levels [⟨kind, image, line⟩] node) ∧
    ∀ env, node.eval.outcome env = (.ok value, env)

/-- What begins a primary means something and breaks no line. -/
theorem significant_of_beginsPrimary {token : Token} (begins : Rule.beginsPrimary token.kind = true) :
    significant [token] = [token] ∧ Unbroken [token] := by
  cases kind : token.kind <;> simp_all [significant, Token.isSignificant, Unbroken, Rule.beginsPrimary]

theorem Literal.denotes {kind : TokenKind} {text : List Char} {image : String} {value : Value}
    (literal : Literal kind text image value) (levels : Nat) : Denotes levels text value := by
  refine ⟨literal.begins, fun line => ?_⟩
  obtain ⟨node, primary, evaluates⟩ := literal.derived line
  obtain ⟨token, later, ⟨⟩, isPrimary⟩ := (primary levels).starts
  obtain ⟨alone, unbroken⟩ := significant_of_beginsPrimary isPrimary
  refine ⟨[text], _, node, by simp, ?_, unbroken, by rw [alone]; exact primary levels, evaluates⟩
  intro others behind stops cut
  rw [List.flatten_singleton] at cut
  exact .cons literal.spelling (fun d isNext => literal.apart d (stops d isNext)) cut

/-- A finite number, up to the sign of zero. -/
theorem exists_literal_number {x : Float} (finite : Number.isFinite x = true) :
    ∃ y, Literal .number (Number.text x) (String.ofList (Number.text x)) (.number y) ∧ Number.equal y x = true := by
  obtain ⟨y, reads, equal⟩ := Number.numberOf_text finite
  obtain ⟨c, more, isText, begins⟩ := Number.head_text finite
  refine ⟨y, ⟨⟨c, more, isText, ?_⟩, Number.spelling_text finite, ?_, fun line => ?_⟩, equal⟩
  · rcases begins with isDigit | rfl
    · apply Bool.eq_false_iff.mpr
      intro blank
      simp only [Scan.isBlank, decide_eq_true_eq] at blank
      rcases blank with rfl | rfl | rfl <;> cases isDigit
    · rfl
  · rintro d (rfl | rfl) <;> simp [Scan.Continues]
  · exact ⟨_, fun levels => .number rfl (reads line), fun env => rfl⟩

theorem exists_denotes_number (x : Float) (finite : Number.isFinite x = true) :
    ∃ y, (∀ levels, Denotes levels (Number.text x) (.number y)) ∧ Number.equal y x = true := by
  obtain ⟨y, literal, equal⟩ := exists_literal_number finite
  exact ⟨y, literal.denotes, equal⟩

theorem literal_character (c : Char) : Literal .character (Quoted.enclose '\x27' [c])
    (String.ofList (Quoted.enclose '\x27' [c])) (.character c) := by
  have stands : Verbatim .character (Quoted.enclose '\x27' [c]) := by
    have inside := Quoted.quotedCharacter_escape '\x27' (by decide) c
    simpa [Quoted.enclose] using Verbatim.character inside
  have reads (line : Nat) : Rule.characterOf ⟨.character, String.ofList (Quoted.enclose '\x27' [c]), line⟩ =
      .ok c := by
    simp only [Rule.characterOf, Quoted.content_enclose '\x27' rfl, String.toList_ofList]
  refine ⟨⟨_, _, rfl, rfl⟩, .verbatim stands, fun d _ => id, fun line => ?_⟩
  exact ⟨_, fun levels => .character rfl (reads line), fun env => rfl⟩

theorem literal_string (text : List Char) : Literal .string (Quoted.enclose '\x22' text)
    (String.ofList (Quoted.enclose '\x22' text)) (.ofText text) := by
  have stands : Verbatim .string (Quoted.enclose '\x22' text) :=
    .string (Quoted.quotedText_escape '\x22' (by decide) text)
  have evaluates (line : Nat) (env : Env) :
      (Node.string (Quoted.content (String.ofList (Quoted.enclose '\x22' text))) line).eval.outcome env =
        (.ok (.ofText text), env) := by
    rw [Quoted.content_enclose '\x22' rfl, Node.eval, String.toList_ofList]
    rfl
  refine ⟨⟨_, _, rfl, rfl⟩, .verbatim stands, fun d _ => id, fun line => ?_⟩
  exact ⟨_, fun levels => .string rfl, evaluates line⟩

section Elements

variable {levels : Nat}

theorem significant_append (first second : List Token) :
    significant (first ++ second) = significant first ++ significant second :=
  List.filter_append first second

theorem Unbroken.append {first second : List Token} (unbroken : Unbroken first) (others : Unbroken second) :
    Unbroken (first ++ second) := by
  intro token member
  rcases List.mem_append.mp member with member | member
  · exact unbroken token member
  · exact others token member

theorem Grammar.Primary.expression {tokens : List Token} {node : Node} (derived : Primary levels tokens node) :
    Expression levels tokens node := by
  have wrapped := (Modified.wrapped derived (.done node)).expression
  rwa [List.append_nil] at wrapped

theorem Denotes.single {text : List Char} {value : Value} (denotes : Denotes levels text value) :
    DenotesAll levels text [value] := by
  refine ⟨denotes.begins, fun line => ?_⟩
  obtain ⟨pieces, tokens, node, isText, fragment, unbroken, primary, evaluates⟩ := denotes.derived line
  refine ⟨pieces, tokens, [node], isText, fragment, unbroken, ?_, fun env => ?_⟩
  · simpa using @Grammar.Elements.listed levels _ node [] primary.expression (by simp)
  · rw [Node.outcome_evalAll_cons, evaluates]
    rfl

def separator (line : Nat) : List Token :=
  [⟨.whitespace, String.ofList [' '], line⟩, ⟨.separator, String.singleton '⋄', line⟩,
    ⟨.whitespace, String.ofList [' '], line⟩]

theorem Fragment.separated {line : Nat} {pieces others : List (List Char)} {tokens behind : List Token}
    (first : Fragment line pieces tokens) (begins : ∃ c rest, others.flatten = c :: rest ∧ Scan.isBlank c = false)
    (second : Fragment (line + pieces.flatten.count '\n') others behind) :
    Fragment line (pieces ++ [[' '], ['⋄'], [' ']] ++ others)
      (tokens ++ separator (line + pieces.flatten.count '\n') ++ behind) := by
  intro more last stops cut
  obtain ⟨c, rest, isText, notBlank⟩ := begins
  have blank : Verbatim .whitespace [' '] := .whitespace rfl (by simp)
  have lines : (pieces ++ [[' '], ['⋄'], [' ']] ++ others).flatten.count '\n' =
      pieces.flatten.count '\n' + others.flatten.count '\n' := by
    simp
  rw [lines, ← Nat.add_assoc] at cut
  have behindSeparator := second more last stops cut
  have separated : Cut (line + pieces.flatten.count '\n') ([' '] :: ['⋄'] :: [' '] :: (others ++ more))
      (separator (line + pieces.flatten.count '\n') ++ (behind ++ last)) := by
    refine .cons (.verbatim blank) ?_ (.cons (.sign .separator (.inl rfl)) (fun _ _ => id)
      (.cons (.verbatim blank) ?_ behindSeparator))
    · rintro d ⟨⟩
      exact fun continues => by cases continues
    · rw [List.flatten_append, isText]
      rintro d ⟨⟩
      exact fun continues => by simp [Scan.Continues, notBlank] at continues
  have whole := first _ _ (by simp) separated
  simpa using whole

theorem Grammar.Elements.cons {tokens others : List Token} {mark : Token} {first : Node}
    {nodes : List Node} (begins : Grammar.Expression levels tokens first) (kind : mark.kind = .separator)
    (rest : Grammar.Elements levels others nodes) :
    Grammar.Elements levels (tokens ++ mark :: others) (first :: nodes) := by
  cases rest with
  | @listed _ tokens' first' parts begins' each =>
    have listed := @Grammar.Elements.listed levels tokens first ((mark :: tokens', first') :: parts) begins
      (List.forall_mem_cons.mpr ⟨.behind kind begins', each⟩)
    simpa using listed

theorem DenotesAll.cons {text others : List Char} {value : Value} {values : List Value}
    (denotes : Denotes levels text value) (rest : DenotesAll levels others values) :
    DenotesAll levels (text ++ " ⋄ ".toList ++ others) (value :: values) := by
  constructor
  · obtain ⟨c, more, isText, notBlank⟩ := denotes.begins
    exact ⟨c, more ++ " ⋄ ".toList ++ others, by simp [isText], notBlank⟩
  · intro line
    obtain ⟨pieces, tokens, node, isText, fragment, unbroken, primary, evaluates⟩ := denotes.derived line
    obtain ⟨pieces', tokens', nodes, isText', fragment', unbroken', elements, evaluates'⟩ :=
      rest.derived (line + pieces.flatten.count '\n')
    have begins : ∃ c rest, pieces'.flatten = c :: rest ∧ Scan.isBlank c = false := by
      rw [isText']
      exact rest.begins
    refine ⟨_, _, node :: nodes, ?_, fragment.separated begins fragment', ?_, ?_, fun env => ?_⟩
    · simp [isText, isText']
    · refine (unbroken.append ?_).append unbroken'
      simp [Unbroken, separator]
    · rw [significant_append, significant_append, List.append_assoc]
      exact Grammar.Elements.cons primary.expression rfl elements
    · rw [Node.outcome_evalAll_cons, evaluates]
      dsimp only
      rw [evaluates']

theorem denotesAll_intercalate {text : List Char} {texts : List (List Char)} {value : Value} {values : List Value}
    (first : Denotes levels text value) (others : List.Forall₂ (Denotes levels) texts values) :
    DenotesAll levels (List.intercalate " ⋄ ".toList (text :: texts)) (value :: values) := by
  induction others generalizing text value with
  | nil => simpa using first.single
  | cons next _ ih =>
    have rest := DenotesAll.cons first (ih next)
    simpa [List.intercalate] using rest

theorem Fragment.bracketed {line : Nat} {pieces : List (List Char)} {tokens : List Token}
    (inside : Fragment line pieces tokens) :
    Fragment line (['['] :: pieces ++ [[']']]) (⟨.openArray, String.ofList ['['], line⟩ :: tokens ++
      [⟨.closeArray, String.ofList [']'], line + pieces.flatten.count '\n'⟩]) := by
  intro others behind stops cut
  have lines : (['['] :: pieces ++ [[']']]).flatten.count '\n' = pieces.flatten.count '\n' := by simp
  rw [lines] at cut
  have closed := inside ([']'] :: others) (⟨.closeArray, String.ofList [']'], _⟩ :: behind) (by simp)
    (.cons (.verbatim .closeArray) (fun _ _ => id) cut)
  have whole := Cut.cons (.verbatim .openArray) (fun _ _ => id) closed
  simpa using whole

theorem DenotesAll.bracketed {text : List Char} {values : List Value} {grid : Grid Value}
    (denotes : DenotesAll levels text values) (stacked : Value.stack values = .ok grid) :
    Denotes (levels + 1) ('[' :: text ++ [']']) (.array grid) := by
  refine ⟨⟨'[', text ++ [']'], rfl, rfl⟩, fun line => ?_⟩
  obtain ⟨pieces, tokens, nodes, isText, fragment, unbroken, elements, evaluates⟩ := denotes.derived line
  refine ⟨_, _, .array nodes line, by simp [isText], fragment.bracketed, ?_, ?_, fun env => ?_⟩
  · intro token member
    rcases List.mem_append.mp member with member | member
    · rcases List.mem_cons.mp member with rfl | member
      · simp
      · exact unbroken token member
    · rw [List.mem_singleton.mp member]
      simp
  · rw [significant_append]
    exact @Grammar.Primary.array levels ⟨.openArray, _, line⟩ ⟨.closeArray, _, _⟩ _ nodes rfl elements rfl
  · have succeeds : (Value.array <$> Value.stack values : Result Value) = .ok (.array grid) := by
      rw [stacked]
      rfl
    rw [Node.eval_eq, Eval.outcome_bind, Node.children, evaluates]
    change (Eval.liftAt line (Value.array <$> Value.stack values)).outcome env = _
    rw [succeeds]
    rfl

/-- Literals between brackets with separators between them. -/
theorem denotes_bracketed {texts : List (List Char)} {values : List Value} {grid : Grid Value}
    (some : texts ≠ []) (each : List.Forall₂ (Denotes levels) texts values)
    (stacked : Value.stack values = .ok grid) :
    Denotes (levels + 1) (Display.bracketed texts) (.array grid) := by
  cases each with
  | nil => exact absurd rfl some
  | cons first others => exact (denotesAll_intercalate first others).bracketed stacked

end Elements

/-- A text that denotes a value is a program that gives the value. -/
theorem Denotes.submit {text : List Char} {value : Value} (denotes : Denotes defaultLimit text value) (env : Env) :
    submit (String.ofList text) env = (.ok (some value), env) := by
  obtain ⟨pieces, tokens, node, isText, fragment, unbroken, primary, evaluates⟩ := denotes.derived 1
  have cut : Cut 1 pieces tokens := by
    simpa using fragment [] [] (by simp) (.nil _)
  have scanned : scan (String.ofList text) = .ok tokens :=
    scan_eq_ok_iff.mpr ⟨pieces, by rw [isText, String.toList_ofList], cut⟩
  have shown : Unbroken (significant tokens) := by
    intro token member
    exact unbroken token (List.mem_of_mem_filter member)
  have parsed := (readsWhole_of_derived shown (.plain primary.expression)).parse
  rw [submit_of_readProgram (readProgram_eq_ok.mpr ⟨tokens, scanned, parsed⟩), Node.outcome_evalAll_cons, evaluates]
  rfl

end Tacit
