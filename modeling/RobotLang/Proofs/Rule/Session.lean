/-
  RobotLang.Proofs.Rule.Session
  ─────────────────────────────
  **OPERATIONS ONE AFTER THE OTHER, AS A READER OF TOKENS CALLS THEM.**

  A session goes through the operations in any order, and goes on where the
  last one stopped, also when that one gave up.  Its state are the tokens that
  are left and the complaints so far.

      tokens   t₀ t₁ ⋯ tₖ ⋯ tₙ stop
                       ↑ cursor: as many tokens as are no longer left

  Whatever the operations and whatever they ask for, the cursor stands at a
  token, does not go back and does not pass the end of input; complaints are
  appended and never taken back; who gives up has complained, and without
  repairs nobody else has (`session_keeps_order`).

  An operation takes a `Course`, and one step of the session is read off it.
  The run is then an induction on the operations.
-/
import RobotLang.Proofs.Rule.Course

namespace RobotLang

open Rule

/-! ## §1. Operations. -/

/-- What can be asked of the tokens at hand. -/
inductive Operation where
  | advance
  | eat (kind : Kind)
  | expect (kind : Kind)
  | expectTerminator (follow : List Kind)
  | resume (first : List Kind) (closer : Kind) (resync : List Kind)
  | noViable (kinds : List Kind)
  | finish
  | parameter
  | term
  | integer

/-- What an operation hands over if it does not give up. -/
inductive Answer where
  | token (t : Token)
  /-- The token, if it was the wanted one. -/
  | found (t : Option Token)
  /-- Whether a list goes on. -/
  | goesOn (b : Bool)
  | finished
  | parameter (p : Parameter)
  | term (c : Condition .term)
  | integer (n : Integer)

namespace Operation

/-- The rule that the operation runs. -/
def rule : Operation → Rule Answer
  | advance => .token <$> Rule.advance
  | eat kind => .found <$> Rule.eat kind
  | expect kind => .token <$> Rule.expect kind
  | expectTerminator follow => .token <$> Rule.expectTerminator follow
  | resume first closer resync => .goesOn <$> Rule.resume first closer resync
  | noViable kinds => Rule.noViable kinds
  | finish => (fun _ => .finished) <$> Rule.finish
  | parameter => .parameter <$> Rule.parameter
  | term => .term <$> Rule.term
  | integer => .integer <$> Rule.integer

theorem courses_rule (op : Operation) (s : Setting) : Courses op.rule s := by
  cases op with
  | advance => exact courses_advance.map
  | eat kind => exact (courses_eat kind).map
  | expect kind => exact (courses_expect kind).map
  | expectTerminator follow => exact (courses_expectTerminator follow).map
  | resume first closer resync => exact (courses_resume first closer resync).map
  | noViable kinds => exact courses_noViable kinds
  | finish => exact courses_finish.map
  | parameter => exact composes_courses.parameter.map
  | term => exact composes_courses.term.map
  | integer => exact composes_courses.integer.map

end Operation

/-! ## §2. Sessions. -/

/-- Where a reader of tokens has come to. -/
structure Session where
  /-- The tokens from the one at hand on, without the end of input. -/
  rest : List Token
  /-- All complaints so far, in order. -/
  complaints : List Diagnostic

namespace Session

/-- Before the first operation. -/
def start (tokens : List Token) : Session :=
  ⟨beforeEnd tokens, []⟩

/-- What the operation hands over; `none` when it gives up. -/
def answer (s : Setting) (x : Session) (op : Operation) : Option Answer :=
  (op.rule s x.rest).result

/-- The session after the operation. -/
def perform (s : Setting) (x : Session) (op : Operation) : Session :=
  let o := op.rule s x.rest
  ⟨o.rest, x.complaints ++ o.complaints⟩

/-- The session after all of the operations. -/
def performAll (s : Setting) (x : Session) (ops : List Operation) : Session :=
  ops.foldl (perform s) x

/-- The index, in the whole list, of the token at hand. -/
def cursor (tokens : List Token) (x : Session) : Nat :=
  tokens.length - (x.rest.length + 1)

/-- The cursor is at one of the tokens, and what is left are the tokens from
there on, with the end of input behind them. -/
structure Stands (s : Setting) (tokens : List Token) (x : Session) : Prop where
  inside : x.cursor tokens < tokens.length
  left : tokens.drop (x.cursor tokens) = x.rest ++ [s.stop]
  at_hand : tokens[x.cursor tokens]? = some (front s x.rest)

/-- From session `x` the operation leads on to session `y`. -/
structure LeadsOn (s : Setting) (tokens : List Token) (x : Session) (op : Operation)
    (y : Session) : Prop where
  forward : x.cursor tokens ≤ y.cursor tokens
  appends : ∃ more, y.complaints = x.complaints ++ more
    ∧ (x.answer s op = none → more ≠ [])
    ∧ (s.recovery = false → x.answer s op ≠ none → more = [])

/-! ## §3. One operation. -/

variable {s : Setting} {body : List Token} {x : Session}

/-- While some of the tokens are left, the cursor is where they start. -/
theorem stands_of_suffix (h : x.rest <:+ body) : x.Stands s (body ++ [s.stop]) := by
  obtain ⟨passed, rfl⟩ := h
  have hcursor : x.cursor (passed ++ x.rest ++ [s.stop]) = passed.length := by
    unfold cursor
    simp only [List.length_append, List.length_singleton]
    omega
  have hleft : (passed ++ x.rest ++ [s.stop]).drop passed.length = x.rest ++ [s.stop] := by
    rw [List.append_assoc, List.drop_left]
  refine ⟨?_, ?_, ?_⟩
  · rw [hcursor]
    simp only [List.length_append, List.length_singleton]
    omega
  · rw [hcursor, hleft]
  · rw [hcursor, ← List.head?_drop, hleft]
    cases x.rest with
    | nil => rfl
    | cons t ts => rfl

/-- What is left after an operation are the last of the tokens that were left. -/
theorem rest_perform_suffix (s : Setting) (x : Session) (op : Operation) :
    (x.perform s op).rest <:+ x.rest :=
  (op.courses_rule s x.rest).suffix

theorem leadsOn_perform (s : Setting) (tokens : List Token) (x : Session) (op : Operation) :
    x.LeadsOn s tokens op (x.perform s op) := by
  have hcourse := op.courses_rule s x.rest
  constructor
  case forward =>
    have hlength := (rest_perform_suffix s x op).length_le
    unfold cursor
    omega
  case appends =>
    refine ⟨(op.rule s x.rest).complaints, rfl, ?_, ?_⟩
    · intro hnone
      have hended : (op.rule s x.rest).result.isSome = false := Option.isSome_eq_false_iff.mpr
        (Option.isNone_iff_eq_none.mpr hnone)
      rw [hended] at hcourse
      exact hcourse.complaints_ne_nil
    · intro hr hsome
      have hended : (op.rule s x.rest).result.isSome = true := Option.isSome_iff_ne_none.mpr hsome
      rw [hended] at hcourse
      exact hcourse.complaints_eq_nil hr

/-! ## §4. Whole sessions. -/

/-- After any operations, some of the tokens are left. -/
theorem rest_performAll_suffix (s : Setting) (x : Session) (ops : List Operation) :
    (x.performAll s ops).rest <:+ x.rest := by
  induction ops generalizing x with
  | nil => exact List.suffix_rfl
  | cons op ops ih => exact (ih (x.perform s op)).trans (rest_perform_suffix s x op)

end Session

/-- **A session keeps its place and its complaints.**  On tokens that end with their only end of
input, in any setting, after any operations, and for any next one: the cursor stands at a token
before and after it and does not go back; the complaints before it are kept and new ones are
appended, at least one if it gives up, and none if it does not and nothing is repaired. -/
theorem session_keeps_order {body : List Token} {stop : Token} (hstop : stop.kind = .eof)
    (hbody : ∀ t ∈ body, t.kind ≠ .eof) (label : Kind → String) (recovery sensorParens : Bool)
    (ops : List Operation) (op : Operation) :
    let tokens := body ++ [stop]
    let s := Setting.forTokens label recovery sensorParens tokens
    let x := (Session.start tokens).performAll s ops
    x.Stands s tokens ∧ (x.perform s op).Stands s tokens
      ∧ x.LeadsOn s tokens op (x.perform s op) := by
  intro tokens s x
  have hend : s.stop = stop := endToken_append_stop hstop hbody
  have hstart : (Session.start tokens).rest = body := beforeEnd_append_stop hstop hbody
  have hx : x.rest <:+ body := hstart ▸ Session.rest_performAll_suffix s (.start tokens) ops
  have hy : (x.perform s op).rest <:+ body := (Session.rest_perform_suffix s x op).trans hx
  have htokens : tokens = body ++ [s.stop] := by rw [hend]
  refine ⟨?_, ?_, Session.leadsOn_perform s tokens x op⟩
  · rw [htokens]
    exact Session.stands_of_suffix hx
  · rw [htokens]
    exact Session.stands_of_suffix hy

/-- `5 6 ; fin` -/
def strayNumbers : List Token :=
  [(.integerLiteral, "5"), (.integerLiteral, "6"), (.semicolon, ";"), (.end_, "fin")].mapIdx
    fun i (kind, image) => ⟨kind, image, 1, 2 * i + 1, 1, 2 * i, 2 * i, false⟩

/-- A list finds nothing to go on with before the `;` and goes back to the `5`, where a name is
refused; the `5` is taken, and the `6` is read as a number. -/
def strayOperations : List Operation :=
  [.resume [.identifier] .end_ [.semicolon], .expect .identifier, .advance, .integer]

/-- The last token is dropped for the end of input, and the cursor does not pass the end. -/
theorem session_strayNumbers :
    (∀ t ∈ strayNumbers, t.kind ≠ .eof)
      ∧ let tokens := strayNumbers ++ [.endOfInput 1 8 7]
        let s := Setting.forTokens Kind.name true false tokens
        let x := (Session.start tokens).performAll s (strayOperations ++ [.advance])
        x.cursor tokens = 3 ∧ x.complaints.length = 1
          ∧ (x.perform s (.expect .eof)).cursor tokens = 4
          ∧ (x.perform s (.expect .eof)).complaints.length = 2
          ∧ x.Stands s tokens ∧ (x.perform s (.expect .eof)).Stands s tokens
          ∧ x.LeadsOn s tokens (.expect .eof) (x.perform s (.expect .eof)) := by
  have hbody : ∀ t ∈ strayNumbers, t.kind ≠ .eof := by decide
  obtain ⟨hx, hy, hon⟩ := session_keeps_order (Token.endOfInput_kind 1 8 7) hbody Kind.name true
    false (strayOperations ++ [.advance]) (.expect .eof)
  exact ⟨hbody, by decide +kernel, by decide +kernel, by decide +kernel, by decide +kernel, hx, hy,
    hon⟩

end RobotLang
