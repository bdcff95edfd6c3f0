/-
  RobotLang.Proofs.Termination
  ────────────────────────────
  **EVERY TOKEN LIST IS READ IN FINITELY MANY STEPS.**

  Take the bounds out of both grammars, so that every turn of a loop and every
  nested rule is one more call.  On any tokens in any order, with repairs or
  without, the calls nest only so deep: with that much depth or more the
  reading returns, and returns what the grammar says.  On its way

      a statement that a list starts leaves fewer tokens than it found,
      a list that goes on behind garbage starts a statement next, and
      a statement that takes nothing is the body of a definition, right behind
      `como`: a lone `;` that a repair put in.

  Of a program that was read this is said of every statement in its tree, since
  the reading notes each of them (`Worded.noted_statements`,
  `Braced.noted_statements`).
-/
import RobotLang.Proofs.Unbounded.Milestones

namespace RobotLang

open Rule Unbounded

/-- A statement that takes nothing is not one of a list. -/
theorem Worded.empty_body_of_wellPlaced {x : Input} (hx : x.starts = statementFirst)
    {ms : List Milestone} (h : WellPlaced x ms) {ts : List Token}
    (hmem : .listed ts ∈ ms ∨ .body ts ∈ ms) {follow : List Kind} {c : Statement}
    {ds : List Diagnostic} (hends : Ends (statement follow) x.setting ts c ts ds) :
    (∃ read as_, x.tokens = read ++ as_ :: ts ∧ as_.kind = .as_)
      ∧ c = .empty ((front x.setting ts).insertedBefore .semicolon
          (x.setting.label .semicolon)) := by
  refine ⟨?_, (eq_empty_of_rest_eq x.stop_kind hends).1⟩
  rcases hmem with hlisted | hbody
  · have hlt := advances_statement x.stop_kind follow (Nat.lt_succ_self _)
      (hx ▸ (h.of_listed hlisted).2)
    rw [show statement follow x.setting ts = ⟨some c, ts, ds⟩ from hends] at hlt
    exact absurd hlt (Nat.lt_irrefl _)
  · exact h.of_body hbody

/-- **Both grammars come to an end on any tokens, whether repairs are made or not.**  Where only the
depth of the calls bounds their loops and their nesting, there is a depth from which on they
return, always with what the rules say and over the same milestones.  Every statement that a list
starts leaves fewer tokens than it found; every list that goes on behind garbage starts a statement
next, at the token where it goes on; and a statement that takes nothing stands right behind `como`,
and is a `;` that was put in. -/
theorem unbounded_reading_returns (label : Kind → String) (recovery sensorParens : Bool)
    (tokens : List Token) :
    let s := Setting.forTokens label recovery sensorParens tokens
    let body := beforeEnd tokens
    (∃ ms enough,
        (∀ depth, enough ≤ depth →
          (Braced.Unbounded.program depth).run label recovery sensorParens tokens
            = some (Braced.program.run label recovery sensorParens tokens, ms))
        ∧ ∀ ts, .listed ts ∈ ms → ts <:+ body ∧ (Braced.statement s ts).rest.length < ts.length)
      ∧ ∃ ms enough,
        (∀ depth, enough ≤ depth →
          (Worded.Unbounded.program depth).run label recovery sensorParens tokens
            = some (Worded.program.run label recovery sensorParens tokens, ms))
        ∧ (∀ ts follow, .listed ts ∈ ms →
            ts <:+ body ∧ (Worded.statement follow s ts).rest.length < ts.length)
        ∧ (∀ before ts after, ms = before ++ .resumed ts :: after →
            ∃ more, after = .listed ts :: more)
        ∧ ∀ ts follow c ds, .listed ts ∈ ms ∨ .body ts ∈ ms →
            Ends (Worded.statement follow) s ts c ts ds →
            (∃ read as_, body = read ++ as_ :: ts ∧ as_.kind = .as_)
              ∧ c = .empty ((front s ts).insertedBefore .semicolon (label .semicolon)) := by
  intro s body
  have hs : s.stop.kind = .eof := endToken_kind tokens
  constructor
  · have heof : .eof ∉ Braced.statementFirst := by decide
    obtain ⟨ms, enough, hrun, hms⟩ :=
      exists_run_eq heof fun _ => Braced.Unbounded.agrees_program rfl
    refine ⟨ms, enough, hrun, fun ts hmem => ?_⟩
    obtain ⟨hts, hin⟩ := hms.of_listed hmem
    exact ⟨hts, Braced.advances_statement hs (Nat.lt_succ_self _) hin⟩
  · have heof : .eof ∉ Worded.statementFirst := by decide
    obtain ⟨ms, enough, hrun, hms⟩ :=
      exists_run_eq heof fun _ => Worded.Unbounded.agrees_program rfl
    refine ⟨ms, enough, hrun, fun ts follow hmem => ?_, ?_, ?_⟩
    · obtain ⟨hts, hin⟩ := hms.of_listed hmem
      exact ⟨hts, Worded.advances_statement hs follow (Nat.lt_succ_self _) hin⟩
    · rintro before ts after rfl
      exact hms.of_resumed
    · exact fun ts follow c ds hmem hends => Worded.empty_body_of_wellPlaced rfl hms hmem hends

section Trees

variable {label : Kind → String} {recovery sensorParens : Bool} {tokens : List Token}

/-- Every statement of a braced program was read at tokens of the input, and took some of them. -/
theorem Braced.statement_takes {p : Program} {c : Statement}
    (h : (program.run label recovery sensorParens tokens).result = some p)
    (hc : c ∈ p.statements) :
    let s := Setting.forTokens label recovery sensorParens tokens
    ∃ ts, ts <:+ beforeEnd tokens ∧ (statement s ts).result = some c
      ∧ (statement s ts).rest.length < ts.length := by
  have heof : .eof ∉ statementFirst := by decide
  obtain ⟨ms, enough, hrun, hms⟩ := exists_run_eq heof fun _ => Unbounded.agrees_program rfl
  have hread := hrun enough (Nat.le_refl _)
  rw [show program.run label recovery sensorParens tokens = ⟨some p, _, _⟩ from ends_of_result h]
    at hread
  obtain ⟨_, hmem, ts, rfl, hresult⟩ := Marks.exists_of_mem (noted_statements hread) hc
  obtain ⟨hts, hin⟩ := hms.of_listed hmem
  exact ⟨ts, hts, hresult, advances_statement (endToken_kind tokens) (Nat.lt_succ_self _) hin⟩

/-- Every statement of a worded program was read at tokens of the input, and took some of them or
is a `;` that was put in right behind `como`. -/
theorem Worded.statement_takes_or_inserted {p : Program} {c : Statement}
    (h : (program.run label recovery sensorParens tokens).result = some p)
    (hc : c ∈ p.statements) :
    let s := Setting.forTokens label recovery sensorParens tokens
    let body := beforeEnd tokens
    ∃ ts follow, ts <:+ body ∧ (statement follow s ts).result = some c
      ∧ ((statement follow s ts).rest.length < ts.length
        ∨ (∃ read as_, body = read ++ as_ :: ts ∧ as_.kind = .as_)
          ∧ c = .empty ((front s ts).insertedBefore .semicolon (label .semicolon))) := by
  have heof : .eof ∉ statementFirst := by decide
  obtain ⟨ms, enough, hrun, hms⟩ := exists_run_eq heof fun _ => Unbounded.agrees_program rfl
  have hread := hrun enough (Nat.le_refl _)
  rw [show program.run label recovery sensorParens tokens = ⟨some p, _, _⟩ from ends_of_result h]
    at hread
  obtain ⟨m, hmem, ts, follow, hstart, hresult⟩ := Marks.exists_of_mem (noted_statements hread) hc
  have hmem : .listed ts ∈ ms ∨ .body ts ∈ ms := by
    rcases hstart with rfl | rfl
    · exact .inl hmem
    · exact .inr hmem
  refine ⟨ts, follow, hms.suffix_of_start hmem, hresult, ?_⟩
  rcases Nat.lt_or_ge (statement follow _ ts).rest.length ts.length with hlt | hge
  · exact .inl hlt
  · -- it leaves all it found
    have hcourses : Courses (statement follow) (.forTokens label recovery sensorParens tokens) :=
      composes_statement composesRepairs_courses follow
    have hends := ends_of_result hresult
    rw [(hcourses ts).suffix.eq_of_length_le hge] at hends
    exact .inr (empty_body_of_wellPlaced rfl hms hmem hends)

end Trees

/-- A body is missing before the main part, which goes on behind a stray `)`. -/
example :
    let kinds : List Kind := [.beginProgram, .define, .identifier, .as_, .beginExecution,
      .rightParen, .turnOff, .semicolon, .endExecution, .endProgram]
    let ts : List Token := kinds.map (⟨·, "", 1, 1, 1, 0, 0, false⟩)
    ((Worded.Unbounded.program 12).run Kind.name true false ts).map Prod.snd
      = some [.body (ts.drop 4), .resumed (ts.drop 6), .listed (ts.drop 6)] := by
  decide +kernel

end RobotLang
