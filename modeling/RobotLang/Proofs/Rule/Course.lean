/-
  RobotLang.Proofs.Rule.Course
  ────────────────────────────
  **THE STEPS OF A RULE, WHETHER IT ENDS OR GIVES UP.**

  Whatever a rule does is one of a few steps, and a complaint is always about
  the token that the step is taken at:

      take       the token at hand is read
      put        a token is put in before the one at hand
      lose       the token at hand and perhaps more behind it are passed over
      refuse     the rule gives up at the token at hand
      tooLarge   the rule gives up at a literal it has just read

  `Course` is the relation that these steps generate.  Every shared rule takes
  such a course, in any setting and on any tokens.  So what is left are the
  last of the tokens (`Course.suffix`), who gives up says why and who does not
  repair goes on in silence (`Course.complaints_ne_nil`,
  `Course.complaints_eq_nil`), and all blame falls on tokens that were there or
  on the end of input (`Course.blames`).
-/
import RobotLang.Proofs.Rule.Composition
import RobotLang.Proofs.Rule.Lockstep

namespace RobotLang

/-- The diagnostic names the token and where it stands. -/
def Diagnostic.PointsAt (d : Diagnostic) (t : Token) : Prop :=
  d.text = some t.image ∧ d.line = some t.line ∧ d.column = some t.column

namespace Rule

/-! ## §1. Courses. -/

/-- From the tokens to what is left of them, with the complaints on the way; the flag says whether
the rule ended. -/
inductive Course (s : Setting) : List Token → List Token → List Diagnostic → Bool → Prop where
  | done (ts : List Token) : Course s ts ts [] true
  | take (t : Token) {ts rest : List Token} {ds : List Diagnostic} {ended : Bool} :
      Course s ts rest ds ended → Course s (t :: ts) rest ds ended
  | put (expected : List String) {ts rest : List Token} {ds : List Diagnostic} {ended : Bool} :
      s.recovery = true → Course s ts rest ds ended →
      Course s ts rest (.mismatch (front s ts) expected :: ds) ended
  | lose (stray : Token) (run : List Token) (expected : List String) {ts rest : List Token}
      {ds : List Diagnostic} {ended : Bool} :
      s.recovery = true → Course s ts rest ds ended →
      Course s (stray :: run ++ ts) rest (.mismatch stray expected :: ds) ended
  | refuse (issue : Issue) (ts : List Token) (expected : Option (List String)) :
      Course s ts ts [.atToken issue (front s ts) expected] false
  | tooLarge (t : Token) (ts : List Token) :
      Course s (t :: ts) ts [.atToken .parseError t none] false

namespace Course

variable {s : Setting} {ts mid rest : List Token} {ds ds' : List Diagnostic} {ended : Bool}

/-- A course that ended is taken up by another one. -/
theorem trans (h : Course s ts mid ds true) (h' : Course s mid rest ds' ended) :
    Course s ts rest (ds ++ ds') ended := by
  generalize hended : true = first at h
  induction h with
  | done ts => exact h'
  | take t _ ih => exact .take t (ih h' hended)
  | put expected hr _ ih => exact .put expected hr (ih h' hended)
  | lose stray run expected hr _ ih => exact .lose stray run expected hr (ih h' hended)
  | refuse | tooLarge => cases hended

/-- No step goes back. -/
theorem suffix (h : Course s ts rest ds ended) : rest <:+ ts := by
  induction h with
  | done ts => exact List.suffix_rfl
  | take t _ ih => exact ih.trans (List.suffix_cons t _)
  | put _ _ _ ih => exact ih
  | lose stray run _ _ _ ih => exact ih.trans (List.suffix_append (stray :: run) _)
  | refuse => exact List.suffix_rfl
  | tooLarge t ts => exact List.suffix_cons t ts

/-- Giving up is said why. -/
theorem complaints_ne_nil (h : Course s ts rest ds false) : ds ≠ [] := by
  generalize hended : false = ended at h
  induction h with
  | done => cases hended
  | take _ _ ih => exact ih hended
  | put | lose | refuse | tooLarge => exact List.cons_ne_nil _ _

/-- Without repairs a rule that ends has nothing to complain about. -/
theorem complaints_eq_nil (hr : s.recovery = false) (h : Course s ts rest ds true) : ds = [] := by
  generalize hended : true = ended at h
  induction h with
  | done => rfl
  | take _ _ ih => exact ih hended
  | put _ hrecovery | lose _ _ _ hrecovery => simp [hr] at hrecovery
  | refuse | tooLarge => cases hended

/-- What is at hand is one of the tokens, or the end of input behind them. -/
theorem front_mem (s : Setting) (ts : List Token) : front s ts ∈ ts ++ [s.stop] := by
  cases ts with
  | nil => exact List.mem_singleton_self s.stop
  | cons t ts => exact List.mem_cons_self

/-- Every complaint is about one of the tokens, or about the end of input.  By induction on the
course, event by event. -/
theorem blames (h : Course s ts rest ds ended) {d : Diagnostic} (hd : d ∈ ds) :
    ∃ issue t expected, t ∈ ts ++ [s.stop] ∧ d = .atToken issue t expected := by
  induction h with
  | done => cases hd
  | take t _ ih =>
    obtain ⟨issue, u, expected, hu, rfl⟩ := ih hd
    exact ⟨issue, u, expected, List.mem_cons_of_mem t hu, rfl⟩
  | @put expected ts _ _ _ _ _ ih =>
    rcases List.mem_cons.mp hd with rfl | hd
    · exact ⟨_, front s ts, some expected, front_mem s ts, rfl⟩
    · exact ih hd
  | lose stray run expected _ _ ih =>
    rcases List.mem_cons.mp hd with rfl | hd
    · exact ⟨_, stray, some expected, List.mem_cons_self, rfl⟩
    · obtain ⟨issue, u, expected', hu, rfl⟩ := ih hd
      rw [List.append_assoc]
      exact ⟨issue, u, expected', List.mem_append_right (stray :: run) hu, rfl⟩
  | refuse issue ts expected =>
    rw [List.mem_singleton.mp hd]
    exact ⟨issue, front s ts, expected, front_mem s ts, rfl⟩
  | tooLarge t ts =>
    rw [List.mem_singleton.mp hd]
    exact ⟨_, t, none, List.mem_cons_self, rfl⟩

end Course

/-- On any tokens the rule takes a course. -/
def Courses {α : Type} (rule : Rule α) (s : Setting) : Prop :=
  ∀ ts, Course s ts (rule s ts).rest (rule s ts).complaints (rule s ts).result.isSome

variable {α β : Type} {s : Setting}

/-! ## §2. Sequences. -/

namespace Courses

theorem pure (a : α) : Courses (pure a) s :=
  fun ts => .done ts

/-- A rule that gives up has no rest to take; one that ended hands its course on. -/
theorem bind {first : Rule α} {next : α → Rule β} (hfirst : Courses first s)
    (hnext : ∀ a, Courses (next a) s) : Courses (first >>= next) s := by
  intro ts
  have h := hfirst ts
  generalize ho : first s ts = o at h
  obtain ⟨result, mid, cs⟩ := o
  cases result with
  | none =>
    rw [bind_of_givenUp ho]
    exact h
  | some a =>
    rw [bind_of_some ho]
    exact h.trans (hnext a mid)

theorem map {f : α → β} {rule : Rule α} (h : Courses rule s) : Courses (f <$> rule) s :=
  h.bind fun a => .pure (f a)

/-- A rule that only looks. -/
theorem of_look {rule : Rule α} (h : ∀ ts, ∃ a, rule s ts = ⟨some a, ts, []⟩) :
    Courses rule s := by
  intro ts
  obtain ⟨a, ha⟩ := h ts
  rw [ha]
  exact .done ts

end Courses

/-! ## §3. Looking, taking and wanting. -/

/-- Taking the token at hand leaves those behind it. -/
theorem course_tail (ts : List Token) : Course s ts ts.tail [] true := by
  cases ts with
  | nil => exact .done []
  | cons t ts => exact .take t (.done ts)

theorem courses_peek : Courses peek s :=
  .of_look fun _ => ⟨_, rfl⟩

theorem courses_isAt (kind : Kind) : Courses (isAt kind) s :=
  .of_look fun _ => ⟨_, rfl⟩

theorem courses_isAtAny (kinds : List Kind) : Courses (isAtAny kinds) s :=
  .of_look fun _ => ⟨_, rfl⟩

theorem courses_setting : Courses setting s :=
  .of_look fun _ => ⟨_, rfl⟩

/-- Taking the token at hand is one step, and taking none at the end of input is none. -/
theorem courses_advance : Courses advance s :=
  course_tail

/-- A token is taken if it is there, and otherwise nothing happens. -/
theorem courses_eat (kind : Kind) : Courses (eat kind) s := by
  intro ts
  unfold eat
  split
  · exact course_tail ts
  · exact .done ts

/-- Giving up ends a course with one complaint, about the token at hand. -/
theorem courses_noViable (kinds : List Kind) : Courses (noViable kinds : Rule α) s :=
  fun ts => .refuse .mismatchedToken ts (some (kinds.map s.label))

/-- Where the input ends nothing happens; anywhere else the rule gives up and says so. -/
theorem courses_finish : Courses finish s := by
  refine (courses_isAt .eof).bind fun b => ?_
  cases b with
  | true => exact .pure ()
  | false => exact fun ts => .refuse .expectedEof ts (some [])

/-- What is not the wanted token is passed over, or the rule gives up at it. -/
theorem courses_mismatch_dropBefore (kind : Kind) :
    Courses (mismatch [kind] >>= fun _ => dropBefore kind) s := by
  intro ts
  rw [bind_of_some (show mismatch [kind] s ts
    = ⟨some (), ts, [.mismatch (front s ts) [s.label kind]]⟩ from rfl)]
  cases ts with
  | nil => exact .refuse .mismatchedToken [] (some [s.label kind])
  | cons stray ts =>
    unfold dropBefore
    dsimp only
    split
    · next hdrop =>
      have hr : s.recovery = true := (Bool.and_eq_true_iff.mp hdrop).1
      exact .lose stray [] [s.label kind] hr (course_tail ts)
    · exact .refuse .mismatchedToken (stray :: ts) (some [s.label kind])

/-- A wanted token is taken, perhaps behind one that is passed over; otherwise the rule gives up. -/
theorem courses_expect (kind : Kind) : Courses (expect kind) s := by
  refine (courses_eat kind).bind fun found => ?_
  cases found with
  | some token => exact .pure token
  | none => exact courses_mismatch_dropBefore kind

/-- Where there is no `;`, the kind at hand decides whether one is put in. -/
theorem expectTerminator_of_ne {ts : List Token} {follow : List Kind}
    (hk : (front s ts).kind ≠ .semicolon) :
    expectTerminator follow s ts =
      if s.recovery && follow.contains (front s ts).kind then
        ⟨some ((front s ts).insertedBefore .semicolon (s.label .semicolon)), ts,
          [.mismatch (front s ts) [s.label .semicolon]]⟩
      else (mismatch [.semicolon] >>= fun _ => dropBefore .semicolon) s ts := by
  have heat : eat .semicolon s ts = ⟨some none, ts, []⟩ := if_neg hk
  have hmismatch : mismatch [.semicolon] s ts
      = ⟨some (), ts, [.mismatch (front s ts) [s.label .semicolon]]⟩ := rfl
  unfold expectTerminator
  rw [bind_of_quiet heat, bind_of_some hmismatch]
  show (mismatch [.semicolon] >>= fun _ => setting >>= fun s' => isAtAny follow >>= fun b =>
    if s'.recovery && b then
      current >>= fun t => pure (t.insertedBefore .semicolon (s'.label .semicolon))
    else dropBefore .semicolon) s ts = _
  rw [bind_of_some hmismatch, bind_of_quiet (show setting s ts = ⟨some s, ts, []⟩ from rfl),
    bind_of_quiet (isAtAny_eq follow s ts)]
  split <;> rfl

/-- A `;` is taken or put in, or the token at hand is passed over for the one behind it. -/
theorem courses_expectTerminator (follow : List Kind) : Courses (expectTerminator follow) s := by
  intro ts
  by_cases hk : (front s ts).kind = .semicolon
  · unfold expectTerminator
    rw [bind_of_quiet (show eat .semicolon s ts = ⟨some (some (front s ts)), ts.tail, []⟩ from
      if_pos hk)]
    exact course_tail ts
  · rw [expectTerminator_of_ne hk]
    split
    · next hput =>
      exact .put [s.label .semicolon] (Bool.and_eq_true_iff.mp hput).1 (.done ts)
    · exact courses_mismatch_dropBefore .semicolon ts

/-! ## §4. Lists that resume after garbage. -/

/-- Skipping passes over the tokens before the one that it stops at, if there are any. -/
theorem course_skipTo (hr : s.recovery = true) (kinds : List Kind) (expected : List String)
    (ts : List Token) :
    Course s ts (skipTo kinds ts) [.mismatch (front s ts) expected] true := by
  have hsplit : ts.takeWhile (fun t => !kinds.contains t.kind) ++ skipTo kinds ts = ts :=
    List.takeWhile_append_dropWhile
  generalize ts.takeWhile (fun t => !kinds.contains t.kind) = run at hsplit
  generalize skipTo kinds ts = ahead at hsplit
  subst hsplit
  cases run with
  | nil => exact .put expected hr (.done ahead)
  | cons stray run => exact .lose stray run expected hr (.done ahead)

/-- A list that goes on has passed over what it skipped; one that does not has done nothing. -/
theorem courses_resume (first : List Kind) (closer : Kind) (resync : List Kind) :
    Courses (resume first closer resync) s := by
  intro ts
  unfold resume
  dsimp only
  split
  · exact .done ts
  · next hskip =>
    have hr : s.recovery = true := by
      simp only [Bool.or_eq_true, Bool.not_eq_true', not_or, Bool.not_eq_false] at hskip
      exact hskip.1.1
    split
    · exact course_skipTo hr _ _ ts
    · split
      · exact course_skipTo hr _ _ ts
      · exact .done ts

/-- Statements and skips, one after the other.  By induction on the bound of the list. -/
theorem Courses.list {first resync : List Kind} {closer : Kind} {item : Rule α}
    (h : Courses item s) : Courses (list first closer resync item) s := by
  have hbound : ∀ bound, Courses (listUpTo first closer resync item bound) s := by
    intro bound
    induction bound with
    | zero => exact .pure []
    | succ bound ih =>
      refine (courses_isAtAny first).bind fun b => ?_
      cases b with
      | true => exact h.bind fun a => ih.bind fun as => .pure (a :: as)
      | false =>
        refine (courses_resume first closer resync).bind fun b => ?_
        cases b with
        | true => exact ih
        | false => exact .pure []
  exact fun ts => hbound ts.length ts

/-! ## §5. All rules together. -/

/-- A literal that cannot be held has been read when the rule gives up. -/
theorem courses_literal : Courses literal s := by
  intro ts
  unfold literal
  rw [bind_of_quiet (show advance s ts = ⟨some (front s ts), ts.tail, []⟩ from rfl)]
  cases literalValue? (front s ts).image with
  | some value => exact course_tail ts
  | none =>
    cases ts with
    | nil => exact .refuse .parseError [] none
    | cons t ts => exact .tooLarge t ts

/-- What takes a course composes. -/
theorem composes_courses : Composes (fun {_} rule => Courses rule s) where
  pure := .pure
  bind := .bind
  setting _ hnext := courses_setting.bind hnext
  peek := courses_peek
  advance := courses_advance
  eat := courses_eat
  expect := courses_expect
  noViable := courses_noViable
  literal := courses_literal
  finish := courses_finish
  bounded _ h ts := h ts.length ts

/-- Repairs of statements are steps of a course. -/
theorem composesRepairs_courses : ComposesRepairs (fun {_} rule => Courses rule s) where
  toComposes := composes_courses
  expectTerminator := courses_expectTerminator
  list_bind hitem hnext := hitem.list.bind fun as => (courses_expect _).bind (hnext as)

end Rule
end RobotLang
