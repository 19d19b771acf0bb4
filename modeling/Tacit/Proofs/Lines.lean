import Tacit.Proofs.Legibility
import Tacit.Proofs.Respelling
import Tacit.Proofs.Statements

/-! The lines that failures are reported at. A node has the line of one of the tokens it is read from, and
whatever fails in a step of its evaluation is reported there, wherever the functions come from that are called
in it. So a failure points into the text that was submitted: at a line of it, and, once the text is cut into
tokens, at a line on which one of them begins. -/
namespace Tacit

namespace Node

/-- A node and all nodes inside it have lines of these tokens. -/
def StandsOn (tokens : List Token) (node : Node) : Prop :=
  ∀ inner : Node, inner.Inside node → ∃ token ∈ tokens, token.line = inner.line

variable {tokens others : List Token} {node : Node}

theorem StandsOn.mono (stands : node.StandsOn tokens) (among : tokens ⊆ others) : node.StandsOn others := by
  intro inner inside
  obtain ⟨token, member, sameLine⟩ := stands inner inside
  exact ⟨token, among member, sameLine⟩

theorem standsOn_of_children (own : ∃ token ∈ tokens, token.line = node.line)
    (children : ∀ child ∈ node.children, child.StandsOn tokens) : node.StandsOn tokens := by
  intro inner inside
  cases inside with
  | self => exact own
  | child isChild deeper => exact children _ isChild inner deeper

theorem standsOn_leaf {token : Token} (leaf : node.children = []) (sameLine : token.line = node.line) :
    node.StandsOn [token] :=
  standsOn_of_children ⟨token, List.mem_cons_self, sameLine⟩ (by simp [leaf])

end Node

namespace Grammar

variable {levels : Nat} {tokens : List Token} {node : Node}

theorem Wraps.standsOn {operand : Node} {marks : List Token} (wraps : Wraps operand marks node)
    (stands : operand.StandsOn tokens) : node.StandsOn (tokens ++ marks) := by
  induction wraps generalizing tokens with
  | done => simpa using stands
  | @next operand _ mark modifier marks kind spells others ih =>
    have wrapped : (Node.modified modifier operand mark.line).StandsOn (tokens ++ [mark]) := by
      apply Node.standsOn_of_children ⟨mark, by simp, rfl⟩
      simpa [Node.children] using stands.mono (List.subset_append_left tokens [mark])
    simpa using ih wrapped

theorem standsOn_parts {first : Node} {others : List (List Token × Node)} (begins : first.StandsOn tokens)
    (each : ∀ part ∈ others, part.2.StandsOn part.1) :
    ∀ node ∈ first :: others.map Prod.snd, node.StandsOn (tokens ++ others.flatMap Prod.fst) := by
  intro node member
  rcases List.mem_cons.mp member with rfl | member
  · exact begins.mono (List.subset_append_left _ _)
  · obtain ⟨part, isPart, rfl⟩ := List.mem_map.mp member
    apply (each part isPart).mono
    intro token isToken
    exact List.mem_append_right _ (List.mem_flatMap.mpr ⟨part, isPart, isToken⟩)

/-- A group stands on the line of its first part. -/
theorem standsOn_grouped {group : List Node → Nat → Node}
    (groups : ∀ nodes line, (group nodes line).children = nodes)
    (onLine : ∀ nodes line, (group nodes line).line = line) {first : Node} {others : List Node}
    (each : ∀ node ∈ first :: others, node.StandsOn tokens) : (grouped group first others).StandsOn tokens := by
  have begins := each first List.mem_cons_self
  cases others with
  | nil => exact begins
  | cons other others =>
    obtain ⟨token, member, sameLine⟩ := begins first (.self first)
    apply Node.standsOn_of_children
    · exact ⟨token, member, sameLine.trans (onLine _ _).symm⟩
    · change ∀ child ∈ (group (first :: other :: others) first.line).children, child.StandsOn tokens
      rwa [groups]

/-- Elements between brackets stand on the line of the opening one. -/
theorem standsOn_bracketed {opening closing : Token} {nodes : List Node}
    (sameLine : opening.line = node.line) (isHeld : node.children = nodes)
    (each : ∀ element ∈ nodes, element.StandsOn tokens) :
    node.StandsOn (opening :: tokens ++ [closing]) := by
  apply Node.standsOn_of_children ⟨opening, by simp, sameLine⟩
  rw [isHeld]
  intro element member
  exact (each element member).mono (by simp)

theorem Statement.standsOn (derived : Statement levels tokens node) : node.StandsOn tokens := by
  -- One induction over all the relations of the grammar, with a case for each of their rules.
  refine @Statement.rec
    (fun _ tokens node _ => node.StandsOn tokens) (fun _ tokens node _ => node.StandsOn tokens)
    (fun _ tokens node _ => node.StandsOn tokens) (fun _ tokens node _ => node.StandsOn tokens)
    (fun _ tokens node _ => node.StandsOn tokens) (fun _ tokens node _ => node.StandsOn tokens)
    (fun _ tokens nodes _ => ∀ node ∈ nodes, node.StandsOn tokens) (fun _ tokens node _ => node.StandsOn tokens)
    ?number ?string ?character ?reference ?function ?parenthesized ?array ?list ?wrapped ?combined ?joined
    ?strand ?expression ?separated ?elements ?plain ?binding levels tokens node derived
  case number | string | character | reference | function =>
    intros
    exact Node.standsOn_leaf rfl rfl
  case parenthesized =>
    intro _ opening closing inside node _ _ _ inner
    exact inner.mono (by simp)
  case array | list =>
    intro _ opening closing inside nodes _ _ _ each
    exact standsOn_bracketed rfl rfl each
  case wrapped =>
    intro _ tokens marks operand node _ wraps primary
    exact wraps.standsOn primary
  case combined =>
    intro _ tokens marks others operand left right mark modifier _ wraps _ _ _ primary second
    have first : left.StandsOn (tokens ++ marks ++ mark :: others) :=
      (wraps.standsOn primary).mono (List.subset_append_left _ _)
    have last : right.StandsOn (tokens ++ marks ++ mark :: others) := by
      apply second.mono
      intro token member
      simp [member]
    apply Node.standsOn_of_children ⟨mark, by simp, rfl⟩
    simpa [Node.children] using And.intro first last
  case joined | separated =>
    intro _ mark tokens node _ _ element
    exact element.mono (List.subset_cons_self mark tokens)
  case strand | expression =>
    intro _ tokens first others _ _ begins each
    exact standsOn_grouped (fun _ _ => rfl) (fun _ _ => rfl) (standsOn_parts begins each)
  case elements =>
    intro _ tokens first others _ _ begins each
    exact standsOn_parts begins each
  case plain =>
    intro _ tokens node _ only
    exact only
  case binding =>
    intro _ name marker arity tokens value _ _ _ bound
    apply Node.standsOn_of_children ⟨name, by simp, rfl⟩
    have inner : value.StandsOn (name :: marker :: tokens) := bound.mono (by simp)
    simpa [Node.children] using inner

end Grammar

theorem standsOn_of_parse {limit : Nat} {tokens : List Token} {program : List Node}
    (parsed : parse limit tokens = .ok program) : ∀ node ∈ program, node.StandsOn tokens := by
  intro node member
  obtain ⟨taken, among, derived⟩ := derived_among_of_parse parsed node member
  exact derived.standsOn.mono among

/-- A cause does not know of lines, so no other one is reported than that of the operation. -/
theorem failsOnly_atLine {Cause α : Type} (line : Nat) (outcome : Except Cause α) :
    FailsOnly (·.line = line) (atLine line outcome) := by
  cases outcome with
  | ok a => exact failsOnly_ok a
  | error cause => exact failsOnly_error.mpr rfl

/-- Wherever it is started, a computation reports its failures at one line. -/
def Eval.FailsAt {α : Type} (line : Nat) (x : Eval α) : Prop :=
  ∀ env, FailsOnly (·.line = line) (x.outcome env).1

namespace Eval

variable {α : Type}

@[simp] theorem failsAt_pure (line : Nat) (a : α) : FailsAt line (pure a) := fun _ => failsOnly_ok a

@[simp] theorem failsAt_throw (cause : Fault) (line : Nat) : FailsAt line (throw ⟨cause, line⟩ : Eval α) :=
  fun _ => failsOnly_error.mpr rfl

@[simp] theorem failsAt_liftAt (line : Nat) (result : Result α) : FailsAt line (liftAt line result) :=
  fun _ => failsOnly_atLine line result

@[simp] theorem failsAt_lookup (name : String) (line : Nat) : FailsAt line (lookup name line) := by
  intro env
  rw [outcome_lookup]
  cases env.get? name with
  | none => exact failsOnly_error.mpr rfl
  | some value => exact failsOnly_ok value

@[simp] theorem failsAt_bindName (name : String) (declared : Option Arity) (value : Value) (line : Nat) :
    FailsAt line (bindName name declared value line) := by
  intro env
  rcases outcome_bindName name declared value line env with made | ⟨arity, -, -, refused⟩
  · rw [made]
    exact failsOnly_ok value
  · rw [refused]
    exact failsOnly_error.mpr rfl

end Eval

/-- A node reports what fails in its own step at its own line. -/
theorem Node.failsAt_act (node : Node) (operands : List Value) : (node.act operands).FailsAt node.line := by
  fun_cases Node.act node operands <;> simp [Node.line]

theorem line_of_running {source : String} {program : List Node} {env : Env} {e : RuntimeError}
    (isRead : readProgram defaultLimit source = .ok program)
    (failed : (submit source env).1 = .error (.running e)) :
    ∃ node ∈ program, ∃ inner : Node, inner.Inside node ∧ inner.line = e.line := by
  have runs : SubmissionRuns (fun _ => True) (fun _ => True)
      (fun e => ∃ node ∈ program, ∃ inner : Node, inner.Inside node ∧ inner.line = e.line) source env := by
    apply submissionRuns_of_steps_keep trivial
    intro step taken _
    rw [submissionSteps, isRead] at taken
    obtain ⟨node, member, start, taken⟩ := Node.exists_of_mem_stepsAll (by simpa [yielded] using taken)
    obtain ⟨inside, -⟩ := Node.inside_of_mem_steps taken
    constructor
    · exact fun _ _ => trivial
    · intro e stopped
      have sameLine := step.node.failsAt_act step.operands step.before e stopped
      exact ⟨node, member, step.node, inside, sameLine.symm⟩
    · trivial
  exact runs.error e failed

theorem parse_nil (limit : Nat) : parse limit [] = .ok [] := by
  rw [parse_eq]
  rfl

/-- Tokens that are refused are refused at the line of one of them: where something is missing at the end, at
that of the last one. -/
theorem line_of_parse {limit : Nat} {tokens : List Token} {e : ParseError}
    (legible : ∀ token ∈ tokens, token.Legible) (failed : parse limit tokens = .error e) :
    ∃ token ∈ tokens, token.line = e.line := by
  obtain ⟨-, atEnd | among⟩ := (parse_of_legible legible limit).1 e failed
  · cases tokens using List.reverseRecOn with
    | nil =>
      rw [parse_nil] at failed
      cases failed
    | append_singleton others last => exact ⟨last, by simp, by simpa using atEnd.symm⟩
  · exact among

/-- A text that cannot be cut is refused at one of its lines. -/
theorem Scan.line_of_tokensFrom {line skip : Nat} {text : List Char} {e : LexError}
    (failed : tokensFrom line skip text = .error e) : line ≤ e.line ∧ e.line ≤ line + text.count '\n' := by
  induction text generalizing line skip with
  | nil => cases failed
  | cons c rest ih =>
    have total : (c :: rest).count '\n' = [c].count '\n' + rest.count '\n' := by
      rw [← List.count_append, List.singleton_append]
    have later {skip : Nat} (failed : tokensFrom (lineAfter c line) skip rest = .error e) :
        line ≤ e.line ∧ e.line ≤ line + (c :: rest).count '\n' := by
      have bounds := ih failed
      rw [lineAfter_eq] at bounds
      omega
    cases skip with
    | succ skip => exact later failed
    | zero =>
      rcases bind_eq_error.mp failed with here | ⟨found, -, failed⟩
      · have sameLine := failsOnly_atLine line (lexeme c rest) e here
        omega
      · rcases bind_eq_error.mp failed with behind | ⟨_, _, impossible⟩
        · exact later behind
        · cases impossible

theorem Segmentation.exists_split {source : String} {pieces : List (List Char)} {tokens : List Token}
    (segmentation : Segmentation source pieces tokens) {token : Token} (member : token ∈ tokens) :
    ∃ before piece after, source.toList = before ++ piece ++ after ∧ Spelled piece token ∧
      token.line = 1 + before.count '\n' := by
  obtain ⟨i, inside, rfl⟩ := List.mem_iff_getElem.mp member
  have count := segmentation.spelled.length_eq
  have inPieces : i < pieces.length := by omega
  have spelled := (List.forall₂_iff_get.mp segmentation.spelled).2 i inPieces inside
  have onLine := segmentation.line i _ (List.getElem?_eq_getElem inside)
  refine ⟨(pieces.take i).flatten, pieces[i], (pieces.drop (i + 1)).flatten, ?_, spelled, onLine⟩
  rw [← segmentation.lossless, List.append_assoc, ← List.flatten_cons, List.getElem_cons_drop,
    ← List.flatten_append, List.take_append_drop]

/-- On this line of a source text one of its tokens begins. -/
def TokenBegins (source : String) (line : Nat) : Prop :=
  ∃ tokens, scan source = .ok tokens ∧ ∃ token ∈ tokens, token.line = line ∧
    ∃ before piece after, source.toList = before ++ piece ++ after ∧ Spelled piece token ∧
      line = 1 + before.count '\n'

theorem tokenBegins_of_mem {source : String} {tokens : List Token} {token : Token}
    (scanned : scan source = .ok tokens) (member : token ∈ tokens) : TokenBegins source token.line := by
  obtain ⟨pieces, lossless, cut⟩ := scan_eq_ok_iff.mp scanned
  exact ⟨tokens, scanned, token, member, rfl, (Segmentation.of_cut lossless cut).exists_split member⟩

theorem TokenBegins.bounds {source : String} {line : Nat} (begins : TokenBegins source line) :
    1 ≤ line ∧ line ≤ 1 + source.toList.count '\n' := by
  obtain ⟨_, _, _, _, _, before, piece, after, split, _, isLine⟩ := begins
  rw [split, List.count_append, List.count_append]
  omega

/-- A submission fails when its text is cut, when its tokens are read, or when its program is run. -/
theorem cases_of_submit_eq_error {source : String} {env : Env} {failure : Failure}
    (failed : (submit source env).1 = .error failure) :
    (∃ e, failure = .scanning e ∧ scan source = .error e) ∨
      ∃ tokens, scan source = .ok tokens ∧
        ((∃ e, failure = .parsing e ∧ parse defaultLimit tokens = .error e) ∨
          ∃ e program, failure = .running e ∧ parse defaultLimit tokens = .ok program) := by
  cases scanned : scan source with
  | error e =>
    have isRead : readProgram defaultLimit source = .error (.scanning e) := by
      rw [readProgram, scanned]
      rfl
    rw [submit, submitWithLimit, isRead] at failed
    cases failed
    exact .inl ⟨e, rfl, rfl⟩
  | ok tokens =>
    right
    refine ⟨tokens, rfl, ?_⟩
    cases parsed : parse defaultLimit tokens with
    | error e =>
      have isRead : readProgram defaultLimit source = .error (.parsing e) := by
        rw [readProgram, scanned]
        exact congrArg (Except.mapError Failure.parsing) parsed
      rw [submit, submitWithLimit, isRead] at failed
      cases failed
      exact .inl ⟨e, rfl, rfl⟩
    | ok program =>
      right
      rw [submit_of_readProgram (readProgram_eq_ok.mpr ⟨tokens, scanned, parsed⟩)] at failed
      cases ended : ((Node.evalAll program).outcome env).1 with
      | error e =>
        rw [ended] at failed
        cases failed
        exact ⟨e, program, rfl, rfl⟩
      | ok values =>
        rw [ended] at failed
        cases failed

/-- Whatever a submission fails with, and whatever was bound before it, the failure is reported at a line of
the submitted text; and at one on which a token begins, unless the text could not be cut into tokens. -/
theorem line_of_submit {source : String} {env : Env} {failure : Failure}
    (failed : (submit source env).1 = .error failure) :
    1 ≤ failure.line ∧ failure.line ≤ 1 + source.toList.count '\n' ∧
      ((∀ e, failure ≠ .scanning e) → TokenBegins source failure.line) := by
  rcases cases_of_submit_eq_error failed with ⟨e, rfl, refused⟩ | ⟨tokens, scanned, later⟩
  · obtain ⟨lower, upper⟩ := Scan.line_of_tokensFrom refused
    exact ⟨lower, upper, fun other => absurd rfl (other e)⟩
  · have among : ∃ token ∈ tokens, token.line = failure.line := by
      rcases later with ⟨e, rfl, refused⟩ | ⟨e, program, rfl, parsed⟩
      · exact line_of_parse (legible_of_scan scanned) refused
      · have isRead := readProgram_eq_ok.mpr ⟨tokens, scanned, parsed⟩
        obtain ⟨node, member, inner, inside, sameLine⟩ := line_of_running isRead failed
        obtain ⟨token, isToken, onLine⟩ := standsOn_of_parse parsed node member inner inside
        exact ⟨token, isToken, onLine.trans sameLine⟩
    obtain ⟨token, member, sameLine⟩ := among
    have begins : TokenBegins source failure.line := sameLine ▸ tokenBegins_of_mem scanned member
    exact ⟨begins.bounds.1, begins.bounds.2, fun _ => begins⟩

theorem line_of_submit_of_bound_function :
    let bound := Env.empty.insert "F" (.function (.primitive .negate))
    let failure : Failure := .running ⟨.typeError (.unary "negate" .character), 3⟩
    submit "\n\n\n\nF ← ¯" .empty = (.ok (some (.function (.primitive .negate))), bound) ∧
      (submit "# F\n\nF 'a'" bound).1 = .error failure ∧ 1 ≤ failure.line ∧
      failure.line ≤ 1 + "# F\n\nF 'a'".toList.count '\n' ∧ TokenBegins "# F\n\nF 'a'" failure.line := by
  intro bound failure
  have scanned : scan "\n\n\n\nF ← ¯" = .ok [⟨.newline, "\n", 1⟩, ⟨.newline, "\n", 2⟩, ⟨.newline, "\n", 3⟩,
    ⟨.newline, "\n", 4⟩, ⟨.identifier, "F", 5⟩, ⟨.whitespace, " ", 5⟩, ⟨.binding none, "←", 5⟩,
    ⟨.whitespace, " ", 5⟩, ⟨.monadicFunction, "¯", 5⟩] := by decide +kernel
  have scanned' : scan "# F\n\nF 'a'" = .ok [⟨.comment, "# F", 1⟩, ⟨.newline, "\n", 1⟩, ⟨.newline, "\n", 2⟩,
    ⟨.identifier, "F", 3⟩, ⟨.whitespace, " ", 3⟩, ⟨.character, "'a'", 3⟩] := by decide +kernel
  have succeeds : submit "\n\n\n\nF ← ¯" .empty = (.ok (some (.function (.primitive .negate))), bound) := by
    rw [submit_of_readProgram (readProgram_eq_ok.mpr ⟨_, scanned, rfl⟩)]
    rfl
  have failed : (submit "# F\n\nF 'a'" bound).1 = .error failure := by
    rw [submit_of_readProgram (readProgram_eq_ok.mpr ⟨_, scanned', rfl⟩)]
    rfl
  obtain ⟨lower, upper, begins⟩ := line_of_submit failed
  exact ⟨succeeds, failed, lower, upper, begins fun _ => nofun⟩

end Tacit
