import Tacit.Proofs.Readings
import Tacit.Proofs.Respelling

/-! Source texts joined by a newline. No lexeme goes on over the newline, so the tokens of the joined
text are those of the first, the newline, and those of the second further down. Where the first text
is read to its end, the statements of the second follow, on lines further down. Lines only ever show
in errors, so the joined text is evaluated like the one text after the other. -/
namespace Tacit

namespace Cut

variable {line : Nat} {pieces : List (List Char)} {tokens : List Token}

theorem moved (lines : Nat) (cut : Cut line pieces tokens) :
    Cut (line + lines) pieces (tokens.map (Token.moved lines)) := by
  induction cut with
  | nil => exact .nil _
  | @cons line kind piece image pieces tokens spelling apart later ih =>
    rw [Nat.add_right_comm] at ih
    exact .cons spelling apart ih

theorem append {others : List (List Char)} {behind : List Token} (first : Cut line pieces tokens)
    (apart : ∀ kind piece, ∀ d ∈ others.flatten.head?, ¬ Scan.Continues kind piece d)
    (second : Cut (line + pieces.flatten.count '\n') others behind) :
    Cut line (pieces ++ others) (tokens ++ behind) := by
  induction first with
  | nil line => exact second
  | @cons line kind piece image pieces tokens spelling distinct later ih =>
    rw [List.flatten_cons, List.count_append, ← Nat.add_assoc] at second
    rw [List.cons_append, List.cons_append]
    refine .cons spelling (fun d isNext => ?_) (ih second)
    rw [List.flatten_append, List.head?_append] at isNext
    rcases Option.or_eq_some_iff.mp isNext with isNext | ⟨-, isNext⟩
    · exact distinct d isNext
    · exact apart kind piece d isNext

end Cut

theorem Scan.not_continues_newline (kind : TokenKind) (piece : List Char) : ¬ Continues kind piece '\n' := by
  intro continues
  cases kind_of_inert (by decide) continues
  exact continues rfl

/-- How many lines further down a text begins that is put behind another and a newline. -/
def linesBefore (source : String) : Nat := 1 + source.toList.count '\n'

/-- The newline at a seam is a token of its own. -/
theorem scan_joined {first second : String} {tokens others : List Token} (scanned : scan first = .ok tokens)
    (scanned' : scan second = .ok others) :
    scan (first ++ "\n" ++ second) =
      .ok (tokens ++ ⟨.newline, "\n", linesBefore first⟩ :: others.map (Token.moved (linesBefore first))) := by
  obtain ⟨pieces, isFirst, cut⟩ := scan_eq_ok_iff.mp scanned
  obtain ⟨pieces', isSecond, cut'⟩ := scan_eq_ok_iff.mp scanned'
  refine scan_eq_ok_iff.mpr ⟨pieces ++ ['\n'] :: pieces', by simp [isFirst, isSecond], ?_⟩
  have behind : Cut (linesBefore first + ['\n'].count '\n') pieces'
      (others.map (Token.moved (linesBefore first))) := by
    have moved := cut'.moved (linesBefore first)
    rwa [Nat.add_comm] at moved
  refine cut.append (fun kind piece d isNext => ?_) ?_
  · cases isNext
    exact Scan.not_continues_newline kind piece
  · rw [isFirst]
    exact .cons (.verbatim .newline) (fun d _ => id) behind

namespace Rule

open Variation

/-- Outside brackets, what is read once is read twice. -/
theorem Follows.run_of_ok {v : Variation} {scope : Scope} {α β : Type} {g : α → β} {rule : Rule α}
    {rule' : Rule β} (follows : Follows v scope g rule rule') (unbracketed : scope.bracketed = false)
    {tokens rest : List Token} {a : α} (ran : rule.run tokens = .ok (a, rest)) :
    rule'.run (v.move tokens) = .ok (g a, v.move rest) := by
  have agreement := follows tokens
  rw [ran] at agreement
  generalize rule'.run (v.move tokens) = second at agreement ⊢
  cases agreement with
  | read => rfl
  | exhausted _ _ ended => exact absurd ended.bracketed (by simp [unbracketed])

section Level

variable {v : Variation} {scope scope' : Scope} (fair : v.Fair) {descend descend' : Descent} {levels levels' : Nat}
  (derives : ∀ scope line rules, descend scope line = .ok rules →
    ∃ inner, levels = inner + 1 ∧ rules.Derives inner)
  (derives' : ∀ scope line rules, descend' scope line = .ok rules →
    ∃ inner, levels' = inner + 1 ∧ rules.Derives inner)
  (deeper : descend.Follows v descend') (alike : v.Alike scope scope')

include fair derives derives' deeper alike

/-- Statements that are read to the end are read in front of more tokens too, and then those behind. -/
theorem run_statements_move (unbracketed : scope.bracketed = false) {newline : Token} {more : List Token}
    (behind : v.behind = newline :: more) {budget tokens : List Token} {nodes : List Node}
    (ran : (statements descend scope budget).run tokens = .ok (nodes, []))
    {budget' : List Token} (enough : (v.move tokens).length ≤ budget'.length) :
    (statements descend' scope' budget').run (v.move tokens) =
      Prod.map (nodes.map (Node.moved v.lines) ++ ·) id <$>
        (statements descend' scope' v.behind).run v.behind := by
  have unbracketed' : scope'.bracketed = false := alike.bracketed.trans unbracketed
  have consumes := consumes_statement derives' scope'
  have within {budget' : List Token} (enough : v.behind.length ≤ budget'.length) :
      (statements descend' scope' budget').run v.behind =
        Prod.map ([] ++ ·) id <$> (statements descend' scope' v.behind).run v.behind := by
    rw [run_statements_of_le consumes v.behind budget' v.behind enough (Nat.le_refl _)]
    cases (statements descend' scope' v.behind).run v.behind <;> rfl
  have isBehind (tokens : List Token) : v.behind.length ≤ (v.move tokens).length := by simp [move]
  induction budget generalizing tokens nodes budget' with
  | nil =>
    cases ran
    exact within enough
  | cons _ budget ih =>
    obtain ⟨token', budget', rfl⟩ : ∃ token' rest, budget' = token' :: rest :=
      List.exists_cons_of_length_pos (by simp [move, behind] at enough; omega)
    have moved := dropWhile_moved v.lines isBreak tokens
    rcases cases_of_run_statements unbracketed ran with
      ⟨shown, rfl⟩ | ⟨begin, later, first, rest, others, shown, begins, read, isNext, others', rfl⟩
    · have same : (v.move tokens).dropWhile (isBreak ·.kind) = v.behind.dropWhile (isBreak ·.kind) := by
        rw [move, List.dropWhile_append, moved, shown]
        rfl
      rw [run_statements_congr descend' scope' token' budget' same]
      exact within ((isBehind tokens).trans enough)
    · have shown' : (v.move tokens).dropWhile (isBreak ·.kind) = v.move (begin :: later) := by
        rw [move, List.dropWhile_append, moved, shown]
        rfl
      have read' := (follows_statement fair derives deeper alike).run_of_ok unbracketed read
      have isNext' : (v.move rest).head?.any (isBreak ·.kind) = true := by
        cases rest with
        | nil => simp [move, behind, fair.parted newline (by simp [behind]), isBreak]
        | cons next rest => simpa [Token.moved] using isNext next rfl
      have enoughRest : (v.move rest).length ≤ budget'.length := by
        have shorter : (v.move rest).length < (v.move (begin :: later)).length := consumes.shortens read'
        have dropped := List.length_dropWhile_le (isBreak ·.kind) (v.move tokens)
        rw [shown'] at dropped
        simp only [List.length_cons] at enough
        omega
      rw [run_statements_of_read unbracketed' shown' begins read' isNext', ih others' enoughRest]
      cases (statements descend' scope' v.behind).run v.behind <;> rfl

end Level

end Rule

theorem significant_moved (lines : Nat) (tokens : List Token) :
    significant (tokens.map (Token.moved lines)) = (significant tokens).map (Token.moved lines) :=
  List.filter_map ..

/-- Two readings of which the second may do anything where the first one fails. -/
theorem Variation.alike_of_lenient {v : Variation} (lenient : ∀ e, v.excused e) (limit endLine endLine' : Nat) :
    v.Alike (Scope.outermost limit endLine) (Scope.outermost limit endLine') :=
  ⟨rfl, .inl lenient, fun _ => lenient _⟩

/-- Statements behind a newline, some lines further down, are read as they are alone. -/
theorem parse_joined {limit lines : Nat} {tokens others : List Token} {program program' : List Node}
    {newline : Token} (isBreak : newline.kind = .newline) (whole : ReadsWhole limit tokens program)
    (parsed : parse limit others = .ok program') :
    parse limit (tokens ++ newline :: others.map (Token.moved lines)) =
      .ok (program ++ program'.map (Node.moved lines)) := by
  have kept : newline.isSignificant = true := by simp [Token.isSignificant, isBreak]
  have split : significant (tokens ++ newline :: others.map (Token.moved lines)) =
      significant tokens ++ newline :: (significant others).map (Token.moved lines) := by
    rw [← significant_moved]
    simp [significant, kept]
  rw [ReadsWhole, Rules.withLevels_eq_layer] at whole
  rw [parse_eq, map_eq_ok] at parsed
  obtain ⟨⟨program', left⟩, read, rfl⟩ := parsed
  rw [parse_eq, split]
  generalize (tokens.getLast?.map Token.line).getD 1 = endLine at whole
  generalize (others.getLast?.map Token.line).getD 1 = endLine' at read
  generalize ((tokens ++ newline :: others.map (Token.moved lines)).getLast?.map Token.line).getD 1 = final
  let further : Variation := ⟨lines, [], fun _ => True⟩
  let before : Variation := ⟨0, newline :: (significant others).map (Token.moved lines), fun _ => True⟩
  have fair : further.Fair := ⟨by simp [further], by simp [further]⟩
  have fair' : before.Fair := ⟨by simp [before, isBreak], by simp [before]⟩
  have derives := Rules.derives_below limit
  have alike := further.alike_of_lenient (fun _ => trivial) limit endLine' final
  have alike' := before.alike_of_lenient (fun _ => trivial) limit endLine final
  have second := (Rule.follows_program fair derives (Rules.follows_below fair (Nat.le_refl limit)) alike
    rfl).run_of_ok rfl read
  have first := Rule.run_statements_move fair' derives derives
    (Rules.follows_below fair' (Nat.le_refl limit)) alike' rfl rfl whole (Nat.le_refl _)
  rw [before.move_of_lines_eq_zero rfl, List.map_id'' Node.moved_zero] at first
  have behind : (Rule.statements (Rules.below limit) (Scope.outermost limit final) before.behind).run
      before.behind = .ok (program'.map (Node.moved lines), left.map (Token.moved lines)) := by
    have consumes := Rule.consumes_statement derives (Scope.outermost limit final)
    have skipped : before.behind.dropWhile (Rule.isBreak ·.kind) =
        ((significant others).map (Token.moved lines)).dropWhile (Rule.isBreak ·.kind) := by
      simp [before, Rule.isBreak, isBreak]
    rw [Rule.run_statements_congr _ _ newline _ skipped,
      Rule.run_statements_of_le consumes _ _ ((significant others).map (Token.moved lines)) (by simp)
        (Nat.le_refl _)]
    simp only [further, Variation.move, List.append_nil] at second
    exact second
  rw [behind] at first
  exact congrArg (Prod.fst <$> ·) first

namespace Eval

variable {α β : Type}

/-- A computation that ends as another, except that its errors stand some lines further down. -/
def Moved (lines : Nat) (x x' : Eval α) : Prop :=
  ∀ env, x'.outcome env = Prod.map (Except.mapError (Located.moved lines)) id (x.outcome env)

variable {lines : Nat}

theorem moved_pure (a : α) : Moved lines (pure a) (pure a) := fun _ => rfl

theorem moved_throw (e : RuntimeError) : Moved lines (throw e : Eval α) (throw (e.moved lines)) :=
  fun _ => rfl

theorem moved_liftAt (line : Nat) (result : Result α) :
    Moved lines (liftAt line result) (liftAt (line + lines) result) := by
  intro env
  cases result <;> rfl

theorem moved_lookup (name : String) (line : Nat) :
    Moved lines (lookup name line) (lookup name (line + lines)) := by
  intro env
  rw [outcome_lookup, outcome_lookup]
  cases env.get? name <;> rfl

theorem moved_bindName (name : String) (declared : Option Arity) (value : Value) (line : Nat) :
    Moved lines (bindName name declared value line) (bindName name declared value (line + lines)) := by
  intro env
  rcases declared with _ | arity
  · rfl
  · by_cases same : value.arity = arity
    · simp only [bindName, same, ne_eq, not_true_eq_false, if_false]
      rfl
    · simp only [bindName, ne_eq, same, not_false_eq_true, if_true]
      rfl

theorem Moved.bind {x x' : Eval α} {f f' : α → Eval β} (first : Moved lines x x')
    (second : ∀ a, Moved lines (f a) (f' a)) : Moved lines (x >>= f) (x' >>= f') := by
  intro env
  rw [outcome_bind, outcome_bind, first env]
  rcases x.outcome env with ⟨e | a, after⟩
  · rfl
  · exact second a after

end Eval

namespace Node

theorem children_moved (lines : Nat) (node : Node) :
    (node.moved lines).children = node.children.map (Node.moved lines) := by
  cases node with
  | train | strand | array | list => exact movedAll_eq lines _
  | _ => rfl

/-- The line of a node shows only in the error of its step. -/
theorem moved_act (lines : Nat) (node : Node) (values : List Value) :
    Eval.Moved lines (node.act values) ((node.moved lines).act values) := by
  cases node with
  | number | string | character | glyph =>
    cases values with
    | nil => exact Eval.moved_pure _
    | cons => exact Eval.moved_throw _
  | reference =>
    cases values with
    | nil => exact Eval.moved_lookup _ _
    | cons => exact Eval.moved_throw _
  | modified =>
    rcases values with _ | ⟨_, _ | _⟩
    · exact Eval.moved_throw _
    · exact Eval.moved_liftAt _ _
    · exact Eval.moved_throw _
  | combined =>
    rcases values with _ | ⟨_, _ | ⟨_, _ | _⟩⟩
    · exact Eval.moved_throw _
    · exact Eval.moved_throw _
    · exact Eval.moved_liftAt _ _
    · exact Eval.moved_throw _
  | binding =>
    rcases values with _ | ⟨_, _ | _⟩
    · exact Eval.moved_throw _
    · exact Eval.moved_bindName _ _ _ _
    · exact Eval.moved_throw _
  | train | array => exact Eval.moved_liftAt _ _
  | strand | list => exact Eval.moved_pure _

theorem moved_evalAll_of_each {lines : Nat} {nodes : List Node}
    (each : ∀ node ∈ nodes, Eval.Moved lines node.eval (node.moved lines).eval) :
    Eval.Moved lines (evalAll nodes) (evalAll (nodes.map (Node.moved lines))) := by
  induction nodes with
  | nil => exact Eval.moved_pure []
  | cons node nodes ih =>
    obtain ⟨first, others⟩ := List.forall_mem_cons.mp each
    exact first.bind fun value => (ih others).bind fun values => Eval.moved_pure (value :: values)

theorem moved_eval (lines : Nat) (node : Node) : Eval.Moved lines node.eval (node.moved lines).eval := by
  induction node using induct_children with
  | step node ih =>
    rw [eval_eq, eval_eq, children_moved]
    exact (moved_evalAll_of_each ih).bind fun values => moved_act lines node values

theorem moved_evalAll (lines : Nat) (nodes : List Node) :
    Eval.Moved lines (evalAll nodes) (evalAll (nodes.map (Node.moved lines))) :=
  moved_evalAll_of_each fun node _ => moved_eval lines node

theorem evalAll_append (nodes others : List Node) :
    evalAll (nodes ++ others) = (do return (← evalAll nodes) ++ (← evalAll others)) := by
  induction nodes with
  | nil => simp [evalAll]
  | cons node nodes ih => simp [evalAll, ih]

end Node

def Failure.moved (lines : Nat) : Failure → Failure
  | scanning error => scanning (error.moved lines)
  | parsing error => parsing (error.moved lines)
  | running error => running (error.moved lines)

/-- A text behind a newline does what it does when it is submitted after the text before: it leaves the
same environment, and it ends with the same value or with the same error further down. -/
theorem submit_joined {first second : String} {tokens : List Token} {program others : List Node}
    {value : Option Value} {env after : Env} (scanned : scan first = .ok tokens)
    (whole : ReadsWhole defaultLimit tokens program) (isRead : readProgram defaultLimit second = .ok others)
    (succeeds : submit first env = (.ok value, after)) :
    submit (first ++ "\n" ++ second) env =
      (if others.isEmpty then .ok value
        else (submit second after).1.mapError (Failure.moved (linesBefore first)),
        (submit second after).2) := by
  obtain ⟨tokens', scanned', parsed⟩ := readProgram_eq_ok.mp isRead
  have isJoined : readProgram defaultLimit (first ++ "\n" ++ second) =
      .ok (program ++ others.map (Node.moved (linesBefore first))) :=
    readProgram_eq_ok.mpr ⟨_, scan_joined scanned scanned', parse_joined rfl whole parsed⟩
  rw [submit_of_readProgram (readProgram_eq_ok.mpr ⟨tokens, scanned, whole.parse⟩)] at succeeds
  rw [submit_of_readProgram isJoined, submit_of_readProgram isRead, Node.evalAll_append, Eval.outcome_bind]
  rcases begun : (Node.evalAll program).outcome env with ⟨_ | values, middle⟩ <;> rw [begun] at succeeds
  · cases succeeds
  cases succeeds
  simp only [Eval.outcome_bind, Node.moved_evalAll (linesBefore first) others middle]
  rcases ended : (Node.evalAll others).outcome middle with ⟨e | values', final⟩
  · have some : others.isEmpty = false := by
      cases others with
      | nil => cases ended
      | cons => rfl
    simp only [some]
    rfl
  · have length := Node.length_of_evalAll_eq_ok ended
    cases others with
    | nil =>
      rw [List.eq_nil_of_length_eq_zero length]
      simp [Except.mapError, Except.map]
    | cons node others =>
      obtain ⟨value, behind, rfl⟩ := List.exists_cons_of_length_eq_add_one length
      simp [Except.mapError, Except.map, List.getLast?_cons]

theorem submit_joined_of_failure :
    let after := Env.empty.insert "A" (.character 'a')
    submit "A ← 'a'\n# bound" .empty = (.ok (some (.character 'a')), after) ∧
      submit "A\nB" after = (.error (.running ⟨.unknownVariable "B", 2⟩), after) ∧
      submit ("A ← 'a'\n# bound" ++ "\n" ++ "A\nB") .empty =
        (.error (.running ⟨.unknownVariable "B", 4⟩), after) := by
  intro after
  have scanned : scan "A ← 'a'\n# bound" = .ok [⟨.identifier, "A", 1⟩, ⟨.whitespace, " ", 1⟩,
    ⟨.binding none, "←", 1⟩, ⟨.whitespace, " ", 1⟩, ⟨.character, "'a'", 1⟩, ⟨.newline, "\n", 1⟩,
    ⟨.comment, "# bound", 2⟩] := by rfl
  have whole : ReadsWhole defaultLimit [⟨.identifier, "A", 1⟩, ⟨.whitespace, " ", 1⟩,
    ⟨.binding none, "←", 1⟩, ⟨.whitespace, " ", 1⟩, ⟨.character, "'a'", 1⟩, ⟨.newline, "\n", 1⟩,
    ⟨.comment, "# bound", 2⟩] [.binding "A" none (.character 'a' 1) 1] := by rfl
  have isRead : readProgram defaultLimit "A\nB" = .ok [.reference "A" 1, .reference "B" 2] := by rfl
  have succeeds : submit "A ← 'a'\n# bound" .empty = (.ok (some (.character 'a')), after) := by
    rw [submit_of_readProgram (readProgram_eq_ok.mpr ⟨_, scanned, whole.parse⟩)]
    rfl
  have fails : submit "A\nB" after = (.error (.running ⟨.unknownVariable "B", 2⟩), after) := by
    rw [submit_of_readProgram isRead]
    rfl
  have joined := submit_joined scanned whole isRead succeeds
  rw [fails] at joined
  exact ⟨succeeds, fails, joined⟩

end Tacit
