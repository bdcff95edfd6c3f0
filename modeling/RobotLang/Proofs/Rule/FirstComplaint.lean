/-
  RobotLang.Proofs.Rule.FirstComplaint
  ────────────────────────────────────
  **REPAIRS NEVER CHANGE THE FIRST COMPLAINT.**

  A rule can be run twice on the same tokens, once without repairs and once
  with them.  As long as nothing is wrong the two runs go in lockstep.  At the
  first thing wrong the strict run complains and gives up; the repairing run
  makes the same complaint and may go on.  So the strict outcome is the
  repairing one, cut off at its first complaint (`Outcome.CutOff`).

  `SharesFirst` says this of a rule, and it composes (`composes_sharesFirst`).
  The one place where the runs part without a complaint of the strict one is a
  list that resumes after garbage: the strict run leaves the garbage to whoever
  wants the closer, and that one makes the complaint that the list made
  (`SharesFirst.list_bind`).
-/
import RobotLang.Proofs.Rule.Composition

namespace RobotLang

/-! ## §1. Two runs of one rule. -/

/-- The first outcome is the second one, cut off at its first complaint. -/
inductive Outcome.CutOff {α : Type} : Outcome α → Outcome α → Prop where
  /-- There is none, and the outcomes are the same. -/
  | quiet (a : α) (rest : List Token) : CutOff ⟨some a, rest, []⟩ ⟨some a, rest, []⟩
  | first (rest : List Token) {d : Diagnostic} {o : Outcome α} :
      o.complaints.head? = some d → CutOff ⟨none, rest, [d]⟩ o

/-- The setting without repairs. -/
def Setting.strict (s : Setting) : Setting :=
  { s with recovery := false }

/-- The setting with repairs. -/
def Setting.repairing (s : Setting) : Setting :=
  { s with recovery := true }

namespace Rule

variable {α β : Type} {s : Setting} {ts mid : List Token}

/-- On any tokens, the rule without repairs gives up at the first complaint that
it has with repairs. -/
def SharesFirst (rule : Rule α) (s : Setting) : Prop :=
  ∀ ts, (rule s.strict ts).CutOff (rule s.repairing ts)

theorem SharesFirst.pure (a : α) : SharesFirst (pure a) s :=
  fun ts => .quiet a ts

/-- A rule that only looks or takes does so in both runs. -/
theorem SharesFirst.of_quiet {rule : Rule α}
    (h : ∀ ts, ∃ a mid, rule s.strict ts = ⟨some a, mid, []⟩
      ∧ rule s.repairing ts = ⟨some a, mid, []⟩) : SharesFirst rule s := by
  intro ts
  obtain ⟨a, mid, hstrict, hrepairing⟩ := h ts
  rw [hstrict, hrepairing]
  exact .quiet a mid

/-- What follows a complaint does not change that it is the first. -/
theorem head?_complaints_bind {first : Rule α} {next : α → Rule β} {d : Diagnostic}
    (h : (first s ts).complaints.head? = some d) :
    ((first >>= next) s ts).complaints.head? = some d := by
  show (andThen first next s ts).complaints.head? = some d
  unfold andThen
  generalize first s ts = o at h
  obtain ⟨result, mid, cs⟩ := o
  cases result with
  | none => exact h
  | some a => simp [List.head?_append, show cs.head? = some d from h]

/-- After a rule without a complaint, the sequence is its rest. -/
theorem bind_of_quiet {first : Rule α} {next : α → Rule β} {a : α}
    (h : first s ts = ⟨some a, mid, []⟩) : (first >>= next) s ts = next a s mid := by
  show andThen first next s ts = next a s mid
  unfold andThen
  rw [h]
  rfl

/-- After a rule that gave up there is no rest to run. -/
theorem bind_of_givenUp {first : Rule α} {next : α → Rule β} {cs : List Diagnostic}
    (h : first s ts = ⟨none, mid, cs⟩) : (first >>= next) s ts = ⟨none, mid, cs⟩ := by
  show andThen first next s ts = ⟨none, mid, cs⟩
  unfold andThen
  rw [h]

/-- The rest of a sequence keeps what holds of its first rule. -/
theorem cutOff_bind {first : Rule α} {next : α → Rule β}
    (hfirst : (first s.strict ts).CutOff (first s.repairing ts))
    (hnext : ∀ a mid, (next a s.strict mid).CutOff (next a s.repairing mid)) :
    ((first >>= next) s.strict ts).CutOff ((first >>= next) s.repairing ts) := by
  generalize hs : first s.strict ts = o at hfirst
  generalize hr : first s.repairing ts = o' at hfirst
  cases hfirst with
  | quiet a mid =>
    rw [bind_of_quiet hs, bind_of_quiet hr]
    exact hnext a mid
  | first mid hd =>
    rw [bind_of_givenUp hs]
    exact .first mid (head?_complaints_bind (by rwa [hr]))

/-- Two rules in a row: either the first complains in both runs, and no more is needed, or it does
in neither and they go on from the same tokens. -/
theorem SharesFirst.bind {first : Rule α} {next : α → Rule β} (hfirst : SharesFirst first s)
    (hnext : ∀ a, SharesFirst (next a) s) : SharesFirst (first >>= next) s :=
  fun ts => cutOff_bind (hfirst ts) hnext

/-- A rule that reads from the setting what is the same in both runs. -/
theorem SharesFirst.setting_bind {next : Setting → Rule β}
    (hnext : next s.strict = next s.repairing) (h : SharesFirst (next s.strict) s) :
    SharesFirst (setting >>= next) s := by
  intro ts
  rw [bind_of_quiet (s := s.strict) rfl, bind_of_quiet (s := s.repairing) rfl, ← hnext]
  exact h ts

/-! ## §2. Looking, taking and wanting. -/

/-- What stands at hand is the same in both runs. -/
@[simp] theorem front_strict : front s.strict ts = front s ts := rfl

@[simp] theorem front_repairing : front s.repairing ts = front s ts := rfl

theorem sharesFirst_peek : SharesFirst peek s :=
  .of_quiet fun _ => ⟨_, _, rfl, rfl⟩

theorem sharesFirst_advance : SharesFirst advance s :=
  .of_quiet fun _ => ⟨_, _, rfl, rfl⟩

theorem sharesFirst_isAt (kind : Kind) : SharesFirst (isAt kind) s :=
  .of_quiet fun _ => ⟨_, _, rfl, rfl⟩

/-- A token is taken or left alike, without a complaint. -/
theorem sharesFirst_eat (kind : Kind) : SharesFirst (eat kind) s := by
  refine .of_quiet fun ts => ?_
  unfold eat
  by_cases h : (front s ts).kind = kind
  · exact ⟨_, _, if_pos h, if_pos h⟩
  · exact ⟨_, _, if_neg h, if_neg h⟩

/-- Giving up complains about the token at hand in both runs. -/
theorem sharesFirst_noViable (kinds : List Kind) : SharesFirst (noViable kinds : Rule α) s :=
  fun ts => .first ts rfl

theorem sharesFirst_complain_giveUp (d : Diagnostic) :
    SharesFirst (complain d >>= fun _ => (giveUp : Rule α)) s :=
  fun ts => .first ts rfl

/-- Whether the input ends does not depend on repairs. -/
theorem sharesFirst_finish : SharesFirst finish s := by
  refine .bind (sharesFirst_isAt .eof) fun b => ?_
  cases b with
  | true => exact .pure ()
  | false => exact fun ts => .first ts rfl

/-- Without repairs nothing is dropped. -/
theorem dropBefore_strict (kind : Kind) (ts : List Token) :
    dropBefore kind s.strict ts = ⟨none, ts, []⟩ := by
  cases ts <;> rfl

/-- A complaint about what stands at hand comes before any attempt to repair it. -/
theorem mismatch_bind_strict {kinds : List Kind} {next : Unit → Rule α}
    (h : next () s.strict ts = ⟨none, ts, []⟩) :
    (mismatch kinds >>= next) s.strict ts
      = ⟨none, ts, [.mismatch (front s ts) (kinds.map s.label)]⟩ := by
  show andThen (mismatch kinds) next s.strict ts = _
  unfold andThen
  rw [show mismatch kinds s.strict ts
    = ⟨some (), ts, [.mismatch (front s ts) (kinds.map s.label)]⟩ from rfl]
  simp only [h]
  rfl

/-- A complaint about the token at hand, behind which a strict run gives up and the other one may
repair. -/
theorem sharesFirst_mismatch_bind {kinds : List Kind} {next : Unit → Rule α}
    (h : ∀ ts, next () s.strict ts = ⟨none, ts, []⟩) :
    SharesFirst (mismatch kinds >>= next) s := by
  intro ts
  rw [mismatch_bind_strict (h ts)]
  exact .first ts (head?_complaints_bind rfl)

/-- A wanted token is there in both runs, or both complain about the same one. -/
theorem sharesFirst_expect (kind : Kind) : SharesFirst (expect kind) s := by
  refine .bind (sharesFirst_eat kind) fun found => ?_
  cases found with
  | some token => exact .pure token
  | none => exact sharesFirst_mismatch_bind (dropBefore_strict kind)

/-- Without repairs, a wanted token that is not there is the one complaint. -/
theorem expect_strict_of_ne {kind : Kind} (h : (front s ts).kind ≠ kind) :
    expect kind s.strict ts = ⟨none, ts, [.mismatch (front s ts) [s.label kind]]⟩ := by
  have heat : eat kind s.strict ts = ⟨some none, ts, []⟩ := if_neg h
  unfold expect
  rw [bind_of_quiet heat]
  exact mismatch_bind_strict (dropBefore_strict kind ts)

/-- A `;` is there in both runs, or both complain about the same token, whether the repairing run
then puts one in or drops that token. -/
theorem sharesFirst_expectTerminator (follow : List Kind) :
    SharesFirst (expectTerminator follow) s := by
  refine .bind (sharesFirst_eat .semicolon) fun found => ?_
  cases found with
  | some token => exact .pure token
  | none => exact sharesFirst_mismatch_bind (dropBefore_strict .semicolon)

/-! ## §3. Lists that resume after garbage. -/

/-- Two runs of a list share their first complaint, or the strict one ends in
front of something other than the closer, and the first complaint of the
repairing one is that it is not. -/
def Outcome.ListCutOff (s : Setting) (closer : Kind) (o o' : Outcome (List α)) : Prop :=
  o.CutOff o'
    ∨ ∃ as rest, o = ⟨some as, rest, []⟩ ∧ (front s rest).kind ≠ closer
        ∧ o'.complaints.head? = some (.mismatch (front s rest) [s.label closer])

theorem resume_strict (first : List Kind) (closer : Kind) (resync : List Kind) (ts : List Token) :
    resume first closer resync s.strict ts = ⟨some false, ts, []⟩ := rfl

/-- With repairs a list stops like the strict one, or it complains that what it
stopped at is not the closer. -/
theorem resume_repairing (first : List Kind) (closer : Kind) (resync : List Kind)
    (ts : List Token) :
    resume first closer resync s.repairing ts = ⟨some false, ts, []⟩
      ∨ ((front s ts).kind ≠ closer
          ∧ (resume first closer resync s.repairing ts).complaints.head?
            = some (.mismatch (front s ts) [s.label closer])) := by
  unfold resume
  by_cases hstop : (!s.repairing.recovery || (front s.repairing ts).kind == closer
      || (front s.repairing ts.tail).kind == closer) = true
  · exact .inl (if_pos hstop)
  · have hcloser : (front s ts).kind ≠ closer := by
      intro h
      simp [h] at hstop
    rw [if_neg hstop]
    -- every way on complains first, except the one that finds nothing to go on with
    dsimp only
    split
    · exact .inr ⟨hcloser, rfl⟩
    · split
      · exact .inr ⟨hcloser, rfl⟩
      · exact .inl rfl

theorem isAtAny_eq (kinds : List Kind) (s : Setting) (ts : List Token) :
    isAtAny kinds s ts = ⟨some (kinds.contains (front s ts).kind), ts, []⟩ := rfl

/-- As long as no statement complains both lists read the same.  The strict one then stops; the
other one may skip to where it goes on, and has complained about the garbage. -/
theorem listCutOff_listUpTo {first resync : List Kind} {closer : Kind} {item : Rule α}
    (h : SharesFirst item s) (bound : Nat) (ts : List Token) :
    Outcome.ListCutOff s closer (listUpTo first closer resync item bound s.strict ts)
      (listUpTo first closer resync item bound s.repairing ts) := by
  induction bound generalizing ts with
  | zero => exact .inl (.quiet [] ts)
  | succ bound ih =>
    rw [listUpTo, bind_of_quiet (isAtAny_eq first s.strict ts),
      bind_of_quiet (isAtAny_eq first s.repairing ts), front_strict, front_repairing]
    by_cases hitem : first.contains (front s ts).kind = true
    · rw [if_pos hitem]
      have hcut := h ts
      generalize hs : item s.strict ts = o at hcut
      generalize hr : item s.repairing ts = o' at hcut
      cases hcut with
      | quiet a mid =>
        -- the runs are still in lockstep, and the rest of the list decides
        rw [bind_of_quiet hs, bind_of_quiet hr]
        rcases ih mid with htail | ⟨as, rest, htail, hcloser, hd⟩
        · exact .inl (cutOff_bind htail fun as => SharesFirst.pure (a :: as))
        · refine .inr ⟨a :: as, rest, ?_, hcloser, head?_complaints_bind hd⟩
          rw [bind_of_quiet htail]
          rfl
      | first mid hd =>
        rw [bind_of_givenUp hs]
        exact .inl (.first mid (head?_complaints_bind (by rwa [hr])))
    · rw [if_neg hitem, bind_of_quiet (resume_strict first closer resync ts)]
      rcases resume_repairing first closer resync ts with hquiet | ⟨hcloser, hd⟩
      · rw [bind_of_quiet hquiet]
        exact .inl (.quiet [] ts)
      · exact .inr ⟨[], ts, rfl, hcloser, head?_complaints_bind hd⟩

/-- A list and its closer: the complaint about garbage in the list is the one
that the closer is not there. -/
theorem SharesFirst.list_bind {first resync : List Kind} {closer : Kind} {item : Rule α}
    {next : List α → Token → Rule β} (h : SharesFirst item s)
    (hnext : ∀ as token, SharesFirst (next as token) s) :
    SharesFirst (list first closer resync item >>= fun as => expect closer >>= next as) s := by
  intro ts
  have hlist : Outcome.ListCutOff s closer (list first closer resync item s.strict ts)
      (list first closer resync item s.repairing ts) := listCutOff_listUpTo h ts.length ts
  rcases hlist with hcut | ⟨as, rest, hs, hcloser, hd⟩
  · exact cutOff_bind hcut fun as => (sharesFirst_expect closer).bind (hnext as)
  · -- the strict list is quiet, and the closer is missed where the other list complained
    rw [bind_of_quiet hs, bind_of_givenUp (expect_strict_of_ne hcloser)]
    exact .first rest (head?_complaints_bind hd)

/-! ## §4. All rules together. -/

/-- A literal that cannot be held ends both runs. -/
theorem sharesFirst_literal : SharesFirst literal s := by
  refine .bind sharesFirst_advance fun token => ?_
  cases literalValue? token.image with
  | some value => exact .pure _
  | none => exact sharesFirst_complain_giveUp _

/-- What shares its first complaint composes. -/
theorem composes_sharesFirst : Composes (fun {_} rule => SharesFirst rule s) where
  pure := .pure
  bind := .bind
  setting hsame hnext := .setting_bind (hsame _ _ rfl) (hnext _)
  peek := sharesFirst_peek
  advance := sharesFirst_advance
  eat := sharesFirst_eat
  expect := sharesFirst_expect
  noViable := sharesFirst_noViable
  literal := sharesFirst_literal
  finish := sharesFirst_finish
  bounded _ h ts := h ts.length ts

/-- Repairs of statements share their first complaint, too. -/
theorem composesRepairs_sharesFirst : ComposesRepairs (fun {_} rule => SharesFirst rule s) where
  toComposes := composes_sharesFirst
  expectTerminator := sharesFirst_expectTerminator
  list_bind := .list_bind

end Rule
end RobotLang
