/-
  RobotLang.Proofs.Braced.Acceptance
  ──────────────────────────────────
  **THE BRACED DIALECT IS READ EXACTLY AS ITS GRAMMAR SAYS.**

  Reading and writing fit together.  Without recovery, the grammar's rule ends
  with a program exactly when the tokens are those of a spelled program whose
  `else`s belong to the nearest `if`s, and then it is that program:

      Ends program s ts p rest cs
        ↔  p.Spelled true ∧ p.NearestElse ∧ p.view.tokens = ts ∧ rest = [] ∧ cs = []

  One half is reading (every token is accounted for), the other is
  completeness.  That the program read has its `else`s at the nearest `if`s
  needs no look at the rules: it can be rearranged so that it has, and read
  back from the same tokens.
-/
import RobotLang.Proofs.Braced.Completeness
import RobotLang.Proofs.Braced.Derivation

namespace RobotLang.Braced

open Rule

/-! ## §1. Reading and writing. -/

section Strict

variable {s : Setting} {ts rest : List Token} {cs : List Diagnostic} {p : Program}

/-- Without recovery, a program is read from exactly its tokens. -/
theorem spelled_of_ends (hs : s.stop.kind = .eof) (hr : s.recovery = false)
    (hparens : s.sensorParens = true) (hts : ∀ t ∈ ts, t.kind ≠ .eof)
    (h : Ends program s ts p rest cs) :
    p.Spelled true ∧ p.view.tokens = ts ∧ rest = [] ∧ cs = [] := by
  obtain ⟨hspelled, hreads, heof⟩ := makes_program hs h
  obtain ⟨rfl, rfl⟩ := hreads.strict hr
  rw [hparens] at hspelled
  cases rest with
  | nil => exact ⟨hspelled, by simp, rfl, rfl⟩
  | cons t rest => exact absurd heof (hts t (by simp))

theorem ends_program_iff (hs : s.stop.kind = .eof) (hr : s.recovery = false)
    (hparens : s.sensorParens = true) (hts : ∀ t ∈ ts, t.kind ≠ .eof) :
    Ends program s ts p rest cs
      ↔ p.Spelled true ∧ p.NearestElse ∧ p.view.tokens = ts ∧ rest = [] ∧ cs = [] := by
  constructor
  · intro h
    obtain ⟨hspelled, rfl, rfl, rfl⟩ := spelled_of_ends hs hr hparens hts h
    -- the rearranged program has the same tokens, so it is the one that was read
    have hnearest : Ends program s p.view.tokens p.nearest [] [] := by
      rw [← p.tokens_nearest]
      exact ends_program hs (by rw [hparens]; exact Program.spelled_nearest hspelled)
        p.nearestElse_nearest
    obtain ⟨hp, _, _⟩ := h.unique hnearest
    exact ⟨hspelled, hp ▸ p.nearestElse_nearest, rfl, rfl, rfl⟩
  · rintro ⟨hspelled, hnearest, rfl, rfl, rfl⟩
    exact ends_program hs (by rwa [hparens]) hnearest

end Strict

/-! ## §2. Whole token lists. -/

section Run

variable (label : Kind → String) {body : List Token} {stop : Token} {p : Program}

/-- What is read from a whole token list is what its tokens spell. -/
theorem ends_run_program (hstop : stop.kind = .eof) (hbody : ∀ t ∈ body, t.kind ≠ .eof)
    (h : (program.run label false true (body ++ [stop])).result = some p) :
    p.Spelled true ∧ p.NearestElse ∧ p.view.tokens = body
      ∧ (program.run label false true (body ++ [stop])).complaints = [] := by
  unfold Rule.run at h ⊢
  rw [beforeEnd_append_stop hstop hbody] at h ⊢
  obtain ⟨hspelled, hnearest, htokens, _, hcs⟩ :=
    (ends_program_iff (endToken_kind _) rfl rfl hbody).mp (ends_of_result h)
  exact ⟨hspelled, hnearest, htokens, hcs⟩

/-- What the tokens of a whole list spell is what is read from it. -/
theorem result_run_program (hstop : stop.kind = .eof) (hbody : ∀ t ∈ body, t.kind ≠ .eof)
    (hspelled : p.Spelled true) (hnearest : p.NearestElse) (htokens : p.view.tokens = body) :
    (program.run label false true (body ++ [stop])).result = some p := by
  unfold Rule.run
  rw [beforeEnd_append_stop hstop hbody,
    (ends_program_iff (endToken_kind _) rfl rfl hbody).mpr
      ⟨hspelled, hnearest, htokens, rfl, rfl⟩]

/-- A token list that ends with its only end of input, and whose literals are
digits, is accepted exactly when the kinds before that end are derivable from the
documented grammar and every literal is at most 2^63 - 1.  Then nothing is
complained about, and the program has exactly these tokens, each literal has the
value of its digits, every `else` belongs to the nearest `if` before it that can
take it, and no other program has all this. -/
theorem run_program_iff_derives (hstop : stop.kind = .eof)
    (hbody : ∀ t ∈ body, t.kind ≠ .eof)
    (hdigits : ∀ t ∈ body, t.kind = .integerLiteral → IsDigits t.image) :
    let o := program.run label false true (body ++ [stop])
    (o.result.isSome
        ↔ Derives grammar (.symbol .programClass) (body.map (·.kind))
          ∧ ∀ t ∈ body, t.kind = .integerLiteral → decimal t.image ≤ 2 ^ 63 - 1)
      ∧ ∀ p, o.result = some p →
          o.complaints = [] ∧ p.view.tokens = body ∧ p.Spelled true ∧ p.NearestElse
            ∧ ∀ q : Program, q.Spelled true → q.view.tokens = body → q.NearestElse → q = p := by
  intro o
  have hfits : (∀ t ∈ body, t.LiteralFits)
      ↔ ∀ t ∈ body, t.kind = .integerLiteral → decimal t.image ≤ 2 ^ 63 - 1 :=
    forall₂_congr fun t ht => Token.literalFits_iff_of_isDigits (hdigits t ht)
  constructor
  · rw [Option.isSome_iff_exists, ← hfits]
    refine Iff.trans ?_ exists_spelled_iff_derives
    constructor
    · rintro ⟨p, hp⟩
      obtain ⟨hspelled, _, htokens, _⟩ := ends_run_program label hstop hbody hp
      exact ⟨p, hspelled, htokens⟩
    -- any derivation can be rearranged into the one that is read
    · rintro ⟨p, hspelled, htokens⟩
      exact ⟨p.nearest, result_run_program label hstop hbody (Program.spelled_nearest hspelled)
        p.nearestElse_nearest (p.tokens_nearest.trans htokens)⟩
  · intro p hp
    obtain ⟨hspelled, hnearest, htokens, hcs⟩ := ends_run_program label hstop hbody hp
    refine ⟨hcs, htokens, hspelled, hnearest, ?_⟩
    intro q hq hqtokens hqnearest
    have hqread := result_run_program label hstop hbody hq hqnearest hqtokens
    exact Option.some.inj (hqread.symm.trans hp)

end Run

/-- `class program { program() { if (iszero(7)) if (frontIsClear) ; else ; } }` -/
def danglingElse : List Token :=
  [(.class_, "class"), (.program, "program"), (.leftBrace, "\x7b"), (.program, "program"),
    (.leftParen, "("), (.rightParen, ")"), (.leftBrace, "\x7b"), (.if_, "if"), (.leftParen, "("),
    (.isZero, "iszero"), (.leftParen, "("), (.integerLiteral, "7"), (.rightParen, ")"),
    (.rightParen, ")"), (.if_, "if"), (.leftParen, "("), (.sensor .frontIsClear, "frontIsClear"),
    (.rightParen, ")"), (.semicolon, ";"), (.else_, "else"), (.semicolon, ";"),
    (.rightBrace, "\x7d"), (.rightBrace, "\x7d")].map fun (kind, image) =>
    ⟨kind, image, 1, 1, 1, 0, 0, false⟩

/-- It is accepted, and its `else` belongs to the second `if`. -/
theorem run_danglingElse :
    (∀ t ∈ danglingElse, t.kind ≠ .eof)
      ∧ (∀ t ∈ danglingElse, t.kind = .integerLiteral → IsDigits t.image)
      ∧ Derives grammar (.symbol .programClass) (danglingElse.map (·.kind))
      ∧ ∃ p, (program.run lexicon.label false true
            (danglingElse ++ [.endOfInput 1 1 0])).result = some p
          ∧ p.view.tokens = danglingElse ∧ p.Spelled true ∧ p.NearestElse := by
  have hbody : ∀ t ∈ danglingElse, t.kind ≠ .eof := by decide
  have hdigits : ∀ t ∈ danglingElse, t.kind = .integerLiteral → IsDigits t.image := by decide
  obtain ⟨hiff, hread⟩ := run_program_iff_derives lexicon.label
    (Token.endOfInput_kind 1 1 0) hbody hdigits
  have hsome : (program.run lexicon.label false true
      (danglingElse ++ [.endOfInput 1 1 0])).result.isSome = true := by decide +kernel
  obtain ⟨p, hp⟩ := Option.isSome_iff_exists.mp hsome
  obtain ⟨_, htokens, hspelled, hnearest, _⟩ := hread p hp
  exact ⟨hbody, hdigits, (hiff.mp hsome).1, p, hp, htokens, hspelled, hnearest⟩

end RobotLang.Braced
