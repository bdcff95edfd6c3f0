/-
  RobotLang.Proofs.Worded.History
  ───────────────────────────────
  **WHAT A PARSE DID, ALSO WHEN IT GAVE UP.**

  A run of the grammar takes tokens, puts in a `;` or loses tokens for one
  that is wanted; each repair leaves its complaint behind.  `History` is the
  list of these events with the lists of statements that are open while they
  happen.  The innermost open list decides how a missing `;` is repaired:
  one is put in before what may follow a statement of that list, and anything
  else is lost if the `;` comes right after it.

      took `inicio`      the block is open
      took `avanza`
      put `;` before `fin`
      took `fin`         the block is closed

  Every run has a history: its complaints are those of the events, and one
  more at the end if the run gave up (`traceable_program`).
-/
import RobotLang.Proofs.Rule.Course
import RobotLang.Proofs.Worded.Acceptance

namespace RobotLang.Worded

open Rule

/-! ## §1. Events. -/

/-- What happens to the tokens at hand. -/
inductive Event where
  /-- A token is taken. -/
  | took (t : Token)
  /-- A `;` is put in before a token, which stays. -/
  | put (before : Token)
  /-- A token and those right after it are lost for one that is wanted. -/
  | lost (stray : Token) (run : List Token) (wanted : Kind)

namespace Event

/-- The complaint that a repair leaves behind. -/
def complaint? (label : Kind → String) : Event → Option Diagnostic
  | took _ => none
  | put t => some (.mismatch t [label .semicolon])
  | lost stray _ wanted => some (.mismatch stray [label wanted])

/-- The closing word that a `;` was put in before. -/
def omission? : Event → Option Token
  | put t => if closesList t then some t else none
  | _ => none

end Event

/-- The complaints that the events leave behind, in order. -/
def complaintsOf (s : Setting) (events : List Event) : List Diagnostic :=
  events.filterMap (Event.complaint? s.label)

/-- Complaints of events that follow each other follow each other too. -/
theorem complaintsOf_append (s : Setting) (events events' : List Event) :
    complaintsOf s (events ++ events') = complaintsOf s events ++ complaintsOf s events' :=
  List.filterMap_append

/-- The closing words that a `;` was put in before, in order. -/
def omissions (events : List Event) : List Token :=
  events.filterMap Event.omission?

/-! ## §2. Histories. -/

/-- The kinds that open and close lists of statements. -/
def brackets : List Kind :=
  [.begin_, .end_, .beginExecution, .endExecution]

/-- What taking a token of that kind does to the open lists; each is named by what closes it. -/
inductive Turns : Kind → List Kind → List Kind → Prop where
  | openBlock (lists : List Kind) : Turns .begin_ lists (.end_ :: lists)
  | openMain (lists : List Kind) : Turns .beginExecution lists (.endExecution :: lists)
  | closeBlock (lists : List Kind) : Turns .end_ (.end_ :: lists) lists
  | closeMain (lists : List Kind) : Turns .endExecution (.endExecution :: lists) lists
  | plain {kind : Kind} (lists : List Kind) : kind ∉ brackets → Turns kind lists lists

/-- What may follow a `;` while these lists are open. -/
def followIn : List Kind → List Kind
  | .end_ :: _ => blockFollow
  | .endExecution :: _ => mainFollow
  | _ => definitionFollow

/-- From the tokens with the first lists open, the events lead to what is left of the tokens with
the other lists open. -/
inductive History (s : Setting) :
    List Kind → List Token → List Event → List Kind → List Token → Prop where
  | done (lists : List Kind) (ts : List Token) : History s lists ts [] lists ts
  | took (t : Token) {lists mid lists' : List Kind} {ts rest : List Token} {events : List Event} :
      Turns t.kind lists mid → History s mid ts events lists' rest →
      History s lists (t :: ts) (.took t :: events) lists' rest
  | put {lists lists' : List Kind} {ts rest : List Token} {events : List Event} :
      (front s ts).kind ∈ followIn lists → (front s ts).kind ≠ .semicolon →
      History s lists ts events lists' rest →
      History s lists ts (.put (front s ts) :: events) lists' rest
  | lost (stray : Token) (run : List Token) (wanted : Kind) {lists lists' : List Kind}
      {ts rest : List Token} {events : List Event} :
      (wanted = .semicolon → run = [] ∧ stray.kind ∉ followIn lists) →
      ((front s ts).kind = wanted ∨ (front s ts).kind ∈ statementFirst) →
      History s lists ts events lists' rest →
      History s lists (stray :: run ++ ts) (.lost stray run wanted :: events) lists' rest

namespace History

variable {s : Setting} {lists mid lists' : List Kind} {ts ts' rest : List Token}
  {events events' : List Event}

/-- Histories that meet, at the same tokens and with the same lists open, are one history with the
events of both. -/
theorem trans (h : History s lists ts events mid ts')
    (h' : History s mid ts' events' lists' rest) :
    History s lists ts (events ++ events') lists' rest := by
  induction h with
  | done lists ts => exact h'
  | took t hturns _ ih => exact .took t hturns (ih h')
  | put hfollow hsemicolon _ ih => exact .put hfollow hsemicolon (ih h')
  | lost stray run wanted hlost hnext _ ih => exact .lost stray run wanted hlost hnext (ih h')

end History

theorem followIn_block (lists : List Kind) : followIn (.end_ :: lists) = blockFollow := rfl

theorem followIn_main (lists : List Kind) : followIn (.endExecution :: lists) = mainFollow := rfl

theorem followIn_nil : followIn [] = definitionFollow := rfl

/-- No list takes the end of input for what may follow a statement, so no `;` is put in before
it. -/
theorem eof_not_mem_followIn (lists : List Kind) : Kind.eof ∉ followIn lists := by
  unfold followIn
  split <;> decide

/-- A `;` is put in before a token of the source.  The end of input does not follow a statement, so
a token is at hand where one is put in. -/
theorem History.mem_of_put {s : Setting} {lists lists' : List Kind} {ts rest : List Token}
    {events : List Event} (hs : s.stop.kind = .eof) (h : History s lists ts events lists' rest)
    {t : Token} (ht : .put t ∈ events) : t ∈ ts := by
  induction h with
  | done => cases ht
  | took u _ _ ih =>
    simp only [List.mem_cons, reduceCtorEq, false_or] at ht
    exact .tail u (ih ht)
  | @put lists lists' ts rest events hfollow _ _ ih =>
    simp only [List.mem_cons, Event.put.injEq] at ht
    rcases ht with rfl | ht
    · -- the end of input follows nothing, so there is a token at hand
      cases ts with
      | cons u ts => exact .head ts
      | nil =>
        rw [front_nil, hs] at hfollow
        exact absurd hfollow (eof_not_mem_followIn lists)
    · exact ih ht
  | lost stray run _ _ _ _ ih =>
    simp only [List.mem_cons, reduceCtorEq, false_or] at ht
    exact List.mem_append_right _ (ih ht)

/-- What is counted as an omission is a `;` put in before a word that closes a list. -/
theorem put_of_mem_omissions {events : List Event} {t : Token} (h : t ∈ omissions events) :
    .put t ∈ events ∧ closesList t = true := by
  obtain ⟨event, hevent, ht⟩ := List.mem_filterMap.mp h
  cases event with
  | took | lost => cases ht
  | put u =>
    simp only [Event.omission?] at ht
    split at ht
    · next hcloses =>
      cases ht
      exact ⟨hevent, hcloses⟩
    · cases ht

/-! ## §3. Outcomes with a history. -/

/-- The outcome comes about by these events; a run that gave up has one more complaint. -/
inductive HasHistory {α : Type} (s : Setting) (lists : List Kind) (ts : List Token)
    (lists' : List Kind) : Outcome α → List Event → Prop where
  | ended (a : α) {rest : List Token} {events : List Event} :
      History s lists ts events lists' rest →
      HasHistory s lists ts lists' ⟨some a, rest, complaintsOf s events⟩ events
  | gaveUp (why : Diagnostic) {rest : List Token} {events : List Event} {inner : List Kind} :
      History s lists ts events inner rest →
      HasHistory s lists ts lists' ⟨none, rest, complaintsOf s events ++ [why]⟩ events

/-- Every run of the rule that starts with the first lists open has a history, and if it does not
give up then the other lists are open at its end. -/
def Traceable {α : Type} (rule : Rule α) (s : Setting) (lists lists' : List Kind) : Prop :=
  ∀ ts, ∃ events, HasHistory s lists ts lists' (rule s ts) events

/-- The same of the runs that start at a token of that kind. -/
def TraceableAt {α : Type} (kind : Kind) (rule : Rule α) (s : Setting)
    (lists lists' : List Kind) : Prop :=
  ∀ ts, (front s ts).kind = kind → ∃ events, HasHistory s lists ts lists' (rule s ts) events

section

variable {α β : Type} {s : Setting} {lists mid lists' : List Kind} {ts : List Token}

/-- A run of a sequence has the history of the first rule and then of what follows it.  If the first
one gives up then its history is that of the whole. -/
theorem hasHistory_bind {first : Rule α} {next : α → Rule β} {events : List Event}
    (hfirst : HasHistory s lists ts mid (first s ts) events)
    (hnext : ∀ a, Traceable (next a) s mid lists') :
    ∃ events, HasHistory s lists ts lists' ((first >>= next) s ts) events := by
  generalize ho : first s ts = o at hfirst
  cases hfirst with
  | gaveUp why h =>
    rw [bind_of_givenUp ho]
    exact ⟨events, .gaveUp why h⟩
  | @ended a rest _ h =>
    obtain ⟨events', h'⟩ := hnext a rest
    generalize ho' : next a s rest = o' at h'
    rw [bind_of_some ho, ho']
    refine ⟨events ++ events', ?_⟩
    cases h' with
    | ended b h' =>
      show HasHistory s lists ts lists' ⟨some b, _, complaintsOf s events ++ _⟩ _
      rw [← complaintsOf_append]
      exact .ended b (h.trans h')
    | gaveUp why h' =>
      show HasHistory s lists ts lists' ⟨none, _, complaintsOf s events ++ (_ ++ [why])⟩ _
      rw [← List.append_assoc, ← complaintsOf_append]
      exact .gaveUp why (h.trans h')

namespace Traceable

theorem pure (a : α) : Traceable (pure a) s lists lists :=
  fun ts => ⟨[], .ended a (.done lists ts)⟩

/-- The second rule starts with the lists open that the first has left open. -/
theorem bind {first : Rule α} {next : α → Rule β} (hfirst : Traceable first s lists mid)
    (hnext : ∀ a, Traceable (next a) s mid lists') :
    Traceable (first >>= next) s lists lists' := by
  intro ts
  obtain ⟨events, h⟩ := hfirst ts
  exact hasHistory_bind h hnext

theorem map {f : α → β} {rule : Rule α} (h : Traceable rule s lists lists') :
    Traceable (f <$> rule) s lists lists' :=
  h.bind fun a => .pure (f a)

/-- Looking at what stands at hand is no event. -/
theorem of_look {rule : Rule α} (h : ∀ ts, ∃ a, rule s ts = ⟨some a, ts, []⟩) :
    Traceable rule s lists lists := by
  intro ts
  obtain ⟨a, ha⟩ := h ts
  rw [ha]
  exact ⟨[], .ended a (.done lists ts)⟩

/-- A choice by the kind at hand. -/
theorem peek_bind {next : Kind → Rule β} (h : ∀ kind, TraceableAt kind (next kind) s lists lists') :
    Traceable (peek >>= next) s lists lists' := by
  intro ts
  rw [bind_of_quiet (show peek s ts = ⟨some (front s ts).kind, ts, []⟩ from rfl)]
  exact h _ ts rfl

/-- What has a history wherever it starts has one where that kind is at hand. -/
theorem traceableAt {rule : Rule α} (h : Traceable rule s lists lists') (kind : Kind) :
    TraceableAt kind rule s lists lists' :=
  fun ts _ => h ts

end Traceable

/-! ## §4. Looking, taking and wanting. -/

theorem traceable_isAt (kind : Kind) : Traceable (isAt kind) s lists lists :=
  .of_look fun _ => ⟨_, rfl⟩

theorem traceable_isAtAny (kinds : List Kind) : Traceable (isAtAny kinds) s lists lists :=
  .of_look fun _ => ⟨_, rfl⟩

theorem traceable_setting : Traceable setting s lists lists :=
  .of_look fun _ => ⟨_, rfl⟩

/-- Giving up with a complaint has no events.  The complaint is the one that a run which gave up has
more than its events, and the lists behind it do not matter. -/
theorem traceable_noViable (kinds : List Kind) :
    Traceable (noViable kinds : Rule α) s lists lists' :=
  fun ts => ⟨[], .gaveUp _ (.done lists ts)⟩

/-- A complaint that is fixed beforehand, with which a rule gives up, has no events either. -/
theorem traceable_complain_giveUp (d : Diagnostic) :
    Traceable (complain d >>= fun _ => (giveUp : Rule α)) s lists lists' :=
  fun ts => ⟨[], .gaveUp d (.done lists ts)⟩

/-- Reading on at the end of input, or giving up before it, takes nothing. -/
theorem traceable_finish : Traceable finish s lists lists := by
  refine (traceable_isAt .eof).bind fun b => ?_
  cases b with
  | true => exact .pure ()
  | false => exact fun ts => ⟨[], .gaveUp _ (.done lists ts)⟩

/-- Taking a token that opens and closes nothing; the end of input is no token. -/
theorem traceableAt_advance_bind {kind : Kind} {next : Token → Rule β} (hplain : kind ∉ brackets)
    (hnext : ∀ t, Traceable (next t) s lists lists') :
    TraceableAt kind (advance >>= next) s lists lists' := by
  intro ts hk
  cases ts with
  | nil =>
    have hstop : HasHistory s lists [] lists (advance s []) [] := .ended _ (.done lists [])
    exact hasHistory_bind hstop hnext
  | cons t ts =>
    have htook : HasHistory s lists (t :: ts) lists (advance s (t :: ts)) [.took t] :=
      .ended t (.took t (.plain lists (hk ▸ hplain)) (.done lists ts))
    exact hasHistory_bind htook hnext

/-- A token that may be there is taken or left, and opens and closes no list if its kind is no
bracket. -/
theorem traceable_eat {kind : Kind} (hplain : kind ∉ brackets) :
    Traceable (eat kind) s lists lists := by
  intro ts
  unfold eat
  by_cases hk : (front s ts).kind = kind
  · rw [if_pos hk]
    cases ts with
    | nil => exact ⟨[], .ended _ (.done lists [])⟩
    | cons t ts =>
      exact ⟨[.took t], .ended (some t) (.took t (.plain lists (hk ▸ hplain)) (.done lists ts))⟩
  · rw [if_neg hk]
    exact ⟨[], .ended none (.done lists ts)⟩

/-- What is not the wanted token is lost if that one comes next; otherwise the run gives up.  A `;`
is never looked for in this way where a statement may end, since there one is put in. -/
theorem hasHistory_mismatch_dropBefore (hs : s.stop.kind = .eof) {kind : Kind}
    (hturns : Turns kind lists lists') (heof : kind ≠ .eof)
    (hstray : kind = .semicolon → (front s ts).kind ∉ followIn lists) :
    ∃ events, HasHistory s lists ts lists'
      ((mismatch [kind] >>= fun _ => dropBefore kind) s ts) events := by
  rw [bind_of_some (show mismatch [kind] s ts
    = ⟨some (), ts, [.mismatch (front s ts) [s.label kind]]⟩ from rfl)]
  cases ts with
  | nil => exact ⟨[], .gaveUp _ (.done lists [])⟩
  | cons stray ts =>
    unfold dropBefore
    by_cases hdrop : (s.recovery && (front s ts).kind == kind) = true
    · have hkind : (front s ts).kind = kind := by simp_all
      obtain ⟨t, ts, rfl, ht⟩ := exists_cons_of_front_kind hs heof hkind
      simp only [if_pos hdrop]
      refine ⟨[.lost stray [] kind, .took t], ?_⟩
      show HasHistory s lists _ lists' ⟨some t, ts, complaintsOf s [.lost stray [] kind, .took t]⟩ _
      apply HasHistory.ended
      refine .lost stray [] kind (fun h => ⟨rfl, hstray h⟩) (.inl hkind) ?_
      exact .took t (ht ▸ hturns) (.done lists' ts)
    -- nothing is dropped, and the complaint is the reason for giving up
    · simp only [if_neg hdrop]
      exact ⟨[], .gaveUp _ (.done lists (stray :: ts))⟩

/-- A wanted token is taken, perhaps after one that is lost; otherwise the run gives up. -/
theorem traceable_expect (hs : s.stop.kind = .eof) {kind : Kind} (hturns : Turns kind lists lists')
    (heof : kind ≠ .eof) (hsemicolon : kind ≠ .semicolon) :
    Traceable (expect kind) s lists lists' := by
  intro ts
  unfold expect
  by_cases hk : (front s ts).kind = kind
  · obtain ⟨t, ts, rfl, ht⟩ := exists_cons_of_front_kind hs heof hk
    rw [bind_of_quiet (show eat kind s (t :: ts) = ⟨some (some t), ts, []⟩ from if_pos hk)]
    exact ⟨[.took t], .ended t (.took t (ht ▸ hturns) (.done lists' ts))⟩
  · rw [bind_of_quiet (show eat kind s ts = ⟨some none, ts, []⟩ from if_neg hk)]
    exact hasHistory_mismatch_dropBefore hs hturns heof fun h => absurd h hsemicolon

/-- A wanted token that is neither a `;` nor a bracket leaves the open lists as they are, also when
a stray token before it was lost. -/
theorem traceable_expect_plain (hs : s.stop.kind = .eof) {kind : Kind}
    (h : kind ∉ .eof :: .semicolon :: brackets) : Traceable (expect kind) s lists lists := by
  simp only [List.mem_cons, not_or] at h
  exact traceable_expect hs (.plain lists h.2.2) h.1 h.2.1

/-- A missing `;` is put in before what may follow it in the innermost list, and only there. -/
theorem traceable_expectTerminator (hs : s.stop.kind = .eof) (hr : s.recovery = true)
    {follow : List Kind} (hfollow : followIn lists = follow) :
    Traceable (expectTerminator follow) s lists lists := by
  intro ts
  subst hfollow
  have hplain : Turns .semicolon lists lists := .plain lists (by decide)
  by_cases hk : (front s ts).kind = .semicolon
  · obtain ⟨t, ts, rfl, ht⟩ := exists_cons_of_front_kind hs (by decide) hk
    unfold expectTerminator
    rw [bind_of_quiet (show eat .semicolon s (t :: ts) = ⟨some (some t), ts, []⟩ from if_pos hk)]
    exact ⟨[.took t], .ended t (.took t (ht ▸ hplain) (.done lists ts))⟩
  · rw [expectTerminator_of_ne hk, hr, Bool.true_and]
    by_cases hput : (front s ts).kind ∈ followIn lists
    · rw [if_pos (by simpa using hput)]
      exact ⟨[.put (front s ts)], .ended _ (.put hput hk (.done lists ts))⟩
    · rw [if_neg (by simpa using hput)]
      exact hasHistory_mismatch_dropBefore hs hplain (by decide) fun _ => hput

/-! ## §5. Repetition and nesting. -/

/-- Items in a row have the histories of the items, one after the other.  By induction on the bound
of the repetition. -/
theorem Traceable.many {starts : List Kind} {item : Rule α} (h : Traceable item s lists lists) :
    Traceable (many starts item) s lists lists := by
  have hbound : ∀ bound, Traceable (manyUpTo starts item bound) s lists lists := by
    intro bound
    induction bound with
    | zero => exact .pure []
    | succ bound ih =>
      refine (traceable_isAtAny starts).bind fun b => ?_
      cases b with
      | true => exact h.bind fun a => ih.bind fun as => .pure (a :: as)
      | false => exact .pure []
  exact fun ts => hbound ts.length ts

/-- A chain takes an operator and has the history of an item, over and over. -/
theorem Traceable.chain {operator : Kind} {item : Rule β} {join : α → Token → β → α}
    (hplain : operator ∉ brackets) (h : Traceable item s lists lists) (a : α) :
    Traceable (chain operator item join a) s lists lists := by
  have hbound : ∀ bound a, Traceable (chainUpTo operator item join bound a) s lists lists := by
    intro bound
    induction bound with
    | zero => exact fun a => .pure a
    | succ bound ih =>
      intro a
      refine (traceable_eat hplain).bind fun found => ?_
      cases found with
      | none => exact .pure a
      | some token => exact h.bind fun b => ih (join a token b)
  exact fun ts => hbound ts.length a ts

/-- A rule nested in itself has histories if each layer has, given that what is nested in it has. -/
theorem Traceable.nested {step : Rule α → Rule α} {starts : List Kind}
    (h : ∀ inner, Traceable inner s lists lists' → Traceable (step inner) s lists lists') :
    Traceable (nested step starts) s lists lists' :=
  fun ts => nestedUpTo_induction (P := (Traceable · s lists lists')) (traceable_noViable starts) h
    (ts.length + 1) ts

/-- A list that resumes has lost what it skipped. -/
theorem hasHistory_resume (lists : List Kind) {closer : Kind} (resync : List Kind)
    (hcloser : closer ≠ .semicolon) (hfirst : (front s ts).kind ∉ statementFirst) :
    ∃ events, HasHistory s lists ts lists (resume statementFirst closer resync s ts) events := by
  obtain ⟨b, rest, cs, h⟩ := exists_ends_resume statementFirst closer resync s ts
  rw [show resume statementFirst closer resync s ts = ⟨some b, rest, cs⟩ from h]
  rcases ends_resume hfirst h with ⟨rfl, rfl, rfl⟩ | ⟨stray, run, _, rfl, rfl, hnext⟩
  · exact ⟨[], .ended false (.done lists rest)⟩
  · have hfound : (front s rest).kind = closer ∨ (front s rest).kind ∈ statementFirst := by
      rcases hnext with ⟨_, hk⟩ | ⟨_, hk⟩
      · exact .inr hk
      · exact .inl hk
    refine ⟨[.lost stray run closer], ?_⟩
    show HasHistory s lists _ lists ⟨some b, rest, complaintsOf s [.lost stray run closer]⟩ _
    apply HasHistory.ended
    exact .lost stray run closer (fun h => absurd h hcloser) hfound (.done lists rest)

/-- A list has the histories of its statements, and loses what it skips between them.  The open
lists are those it was read in, since it is what stands around it that opens and closes. -/
theorem Traceable.list {closer : Kind} {resync : List Kind} {item : Rule α}
    (hcloser : closer ≠ .semicolon) (h : Traceable item s lists lists) :
    Traceable (list statementFirst closer resync item) s lists lists := by
  have hbound : ∀ bound,
      Traceable (listUpTo statementFirst closer resync item bound) s lists lists := by
    intro bound
    induction bound with
    | zero => exact .pure []
    | succ bound ih =>
      intro ts
      rw [listUpTo, bind_of_quiet (isAtAny_eq statementFirst s ts)]
      by_cases hfirst : (front s ts).kind ∈ statementFirst
      · rw [if_pos (by simpa using hfirst)]
        exact (h.bind fun a => ih.bind fun as => .pure (a :: as)) ts
      · rw [if_neg (by simpa using hfirst)]
        obtain ⟨events, hresume⟩ := hasHistory_resume lists resync hcloser hfirst
        refine hasHistory_bind hresume fun b => ?_
        cases b with
        | true => exact ih
        | false => exact .pure []
  exact fun ts => hbound ts.length ts

end

/-! ## §6. The rules both dialects share. -/

section Expressions

variable {s : Setting} (hs : s.stop.kind = .eof) {lists : List Kind}

theorem traceableAt_literal : TraceableAt .integerLiteral literal s lists lists := by
  refine traceableAt_advance_bind (by decide) fun token => ?_
  cases literalValue? token.image with
  | some value => exact .pure _
  | none => exact traceable_complain_giveUp _

include hs

/-- Numbers take tokens and open no list; only the parentheses in them may be repaired. -/
theorem traceable_integer : Traceable integer s lists lists := by
  refine .nested fun inner hinner => .peek_bind fun kind => ?_
  split
  · exact traceableAt_advance_bind (by decide) fun _ => .pure _
  · exact traceableAt_literal
  · exact traceableAt_advance_bind (by decide) fun _ =>
      .bind (traceable_expect_plain hs (by decide)) fun _ => hinner.bind fun _ =>
      .bind (traceable_expect_plain hs (by decide)) fun _ => .pure _
  · exact traceableAt_advance_bind (by decide) fun _ =>
      .bind (traceable_expect_plain hs (by decide)) fun _ => hinner.bind fun _ =>
      .bind (traceable_expect_plain hs (by decide)) fun _ => .pure _
  · exact (traceable_noViable _).traceableAt _

/-- A sensor with or without its parentheses, as the setting has it. -/
theorem traceableAt_sensorClause (sensor : Sensor) :
    TraceableAt (.sensor sensor) (sensorClause sensor) s lists lists := by
  refine traceableAt_advance_bind (by simp [brackets]) fun keyword => ?_
  refine traceable_setting.bind fun setting => ?_
  split
  · refine .bind (traceable_eat (by decide)) fun found => ?_
    cases found with
    | some left => exact .bind (traceable_expect_plain hs (by decide)) fun _ => .pure _
    | none => exact .pure _
  · exact .pure _

section Conditions

variable {term : Rule (Condition .term)} (hterm : Traceable term s lists lists)

include hterm

theorem traceable_clause : Traceable (clause term) s lists lists := by
  refine .peek_bind fun kind => ?_
  split
  · exact traceableAt_advance_bind (by decide) fun _ =>
      .bind (traceable_expect_plain hs (by decide)) fun _ => .bind (traceable_integer hs) fun _ =>
      .bind (traceable_expect_plain hs (by decide)) fun _ => .pure _
  · exact traceableAt_sensorClause hs _
  · exact traceableAt_advance_bind (by decide) fun _ => hterm.bind fun _ =>
      .bind (traceable_expect_plain hs (by decide)) fun _ => .pure _
  · exact (traceable_noViable _).traceableAt _

theorem traceable_negation : Traceable (negation term) s lists lists := by
  refine .bind (traceable_eat (by decide)) fun found => ?_
  cases found with
  | some operator => exact .bind (traceable_clause hs hterm) fun _ => .pure _
  | none => exact .bind (traceable_clause hs hterm) fun _ => .pure _

theorem traceable_conjunction : Traceable (conjunction term) s lists lists :=
  .bind (traceable_negation hs hterm) fun _ =>
    .chain (by decide) (traceable_negation hs hterm) _

end Conditions

/-- Conditions nest behind parentheses, and open no list. -/
theorem traceable_term : Traceable term s lists lists :=
  .nested fun _ hinner => .bind (traceable_conjunction hs hinner) fun _ =>
    .chain (by decide) (traceable_conjunction hs hinner) _

theorem traceable_parameter : Traceable parameter s lists lists :=
  .bind (traceable_expect_plain hs (by decide)) fun _ => .bind (traceable_eat (by decide)) fun _ =>
    .bind (traceable_expect_plain hs (by decide)) fun _ => .pure _

end Expressions

/-! ## §7. The rules of the dialect. -/

section Commands

variable {s : Setting} (hs : s.stop.kind = .eof) (hr : s.recovery = true)

section Nested

variable {command : Rule Command} (hcommand : ∀ lists, Traceable command s lists lists)
  {lists : List Kind}

include hs hcommand

include hr in
/-- A statement ends with its `;`, which is repaired as the innermost open list says. -/
theorem traceable_statementOf {follow : List Kind} (hfollow : followIn lists = follow) :
    Traceable (statementOf command follow) s lists lists := by
  have hterminator := traceable_expectTerminator hs hr hfollow
  refine .bind (traceable_isAtAny _) fun b => ?_
  cases b with
  | true => exact (hcommand lists).bind fun _ => hterminator.bind fun _ => .pure _
  | false => exact hterminator.bind fun _ => .pure _

/-- Both branches are commands without a `;`, and are read with the same lists open. -/
theorem traceable_cond : Traceable (cond command) s lists lists := by
  refine .bind (traceable_expect_plain hs (by decide)) fun _ => .bind (traceable_term hs) fun _ =>
    .bind (traceable_expect_plain hs (by decide)) fun _ => (hcommand lists).bind fun _ =>
    .bind (traceable_eat (by decide)) fun found => ?_
  cases found with
  | some otherwise => exact (hcommand lists).bind fun _ => .pure _
  | none => exact .pure _

theorem traceable_whileDo : Traceable (whileDo command) s lists lists :=
  .bind (traceable_expect_plain hs (by decide)) fun _ => .bind (traceable_term hs) fun _ =>
    .bind (traceable_expect_plain hs (by decide)) fun _ => (hcommand lists).bind fun _ => .pure _

theorem traceable_times : Traceable (times command) s lists lists :=
  .bind (traceable_expect_plain hs (by decide)) fun _ => .bind (traceable_integer hs) fun _ =>
    .bind (traceable_expect_plain hs (by decide)) fun _ => (hcommand lists).bind fun _ => .pure _

include hr in
/-- Inside a block its own list is the innermost one. -/
theorem traceable_block : Traceable (block command) s lists lists := by
  refine .bind (traceable_expect hs (.openBlock lists) (by decide) (by decide)) fun _ => ?_
  have hstatement := traceable_statementOf hs hr hcommand (followIn_block lists)
  exact (Traceable.list (by decide) hstatement).bind fun _ =>
    .bind (traceable_expect hs (.closeBlock lists) (by decide) (by decide)) fun _ => .pure _

end Nested

include hs

/-- A call opens no list, with an argument or without. -/
theorem traceable_call {lists : List Kind} : Traceable call s lists lists := by
  refine .bind (traceable_expect_plain hs (by decide)) fun _ =>
    .bind (traceable_eat (by decide)) fun found => ?_
  cases found with
  | some left =>
    exact .bind (traceable_integer hs) fun _ => .bind (traceable_expect_plain hs (by decide))
      fun _ => .pure _
  | none => exact .pure _

omit hs in
theorem traceableAt_builtin {lists : List Kind} {kind : Kind} {action : Builtin}
    (h : Builtin.ofKind? kind = some action) :
    TraceableAt kind (advance >>= fun t => pure (Code.builtin action t)) s lists lists := by
  have hmem : kind ∈ Builtin.kinds := (Builtin.ofKind?_isSome_iff kind).mp (by rw [h]; rfl)
  have hplain : ∀ kind ∈ Builtin.kinds, kind ∉ brackets := by decide
  exact traceableAt_advance_bind (hplain kind hmem) fun _ => .pure _

include hr

/-- Whatever lists are open around a command, they are open behind it. -/
theorem traceable_command (lists : List Kind) : Traceable command s lists lists := by
  -- the lists that are open vary with the nesting, so the induction is over all of them
  have hdepth : ∀ depth lists,
      Traceable (nestedUpTo commandStep commandFirst depth) s lists lists := by
    intro depth
    refine nestedUpTo_induction (P := fun rule => ∀ lists, Traceable rule s lists lists)
      (fun _ => traceable_noViable _) (fun inner hinner lists => ?_) depth
    refine .peek_bind fun kind => ?_
    split
    · exact (traceable_call hs).traceableAt _
    · exact (traceable_cond hs hinner).traceableAt _
    · exact (traceable_whileDo hs hinner).traceableAt _
    · exact (traceable_times hs hinner).traceableAt _
    · exact (traceable_block hs hr hinner).traceableAt _
    · cases haction : Builtin.ofKind? kind with
      | some action => exact traceableAt_builtin haction
      | none => exact (traceable_noViable _).traceableAt _
  exact fun ts => hdepth (ts.length + 1) lists ts

/-- A whole statement, in a list that says what may follow it. -/
theorem traceable_statement {lists follow : List Kind} (hfollow : followIn lists = follow) :
    Traceable (statement follow) s lists lists :=
  traceable_statementOf hs hr (traceable_command hs hr) hfollow

end Commands

section Programs

variable {s : Setting} (hs : s.stop.kind = .eof) (hr : s.recovery = true)

include hs

theorem traceable_optionalParameter {lists : List Kind} :
    Traceable optionalParameter s lists lists := by
  refine .bind (traceable_isAt _) fun b => ?_
  cases b with
  | true => exact (traceable_parameter hs).map
  | false => exact .pure none

include hr

/-- No list is open around definitions.  A missing `;` behind a body is therefore repaired by what
may follow a definition. -/
theorem traceable_definition : Traceable definition s [] [] := by
  refine .peek_bind fun kind => Traceable.traceableAt ?_ kind
  split
  · exact .bind (traceable_expect_plain hs (by decide)) fun _ =>
      .bind (traceable_expect_plain hs (by decide)) fun _ =>
      .bind (traceable_optionalParameter hs) fun _ =>
      .bind (traceable_expect_plain hs (by decide)) fun _ =>
      .bind (traceable_statement hs hr followIn_nil) fun _ => .pure _
  · exact .bind (traceable_expect_plain hs (by decide)) fun _ =>
      .bind (traceable_expect_plain hs (by decide)) fun _ =>
      .bind (traceable_optionalParameter hs) fun _ =>
      .bind (traceable_expectTerminator hs hr followIn_nil) fun _ => .pure _
  · exact traceable_noViable _

/-- The main part opens its list and closes it. -/
theorem traceable_mainPart : Traceable mainPart s [] [] := by
  refine .bind (traceable_expect hs (.openMain []) (by decide) (by decide)) fun _ => ?_
  have hstatement := traceable_statement hs hr (followIn_main [])
  exact (Traceable.list (by decide) hstatement).bind fun _ =>
    .bind (traceable_expect hs (.closeMain []) (by decide) (by decide)) fun _ => .pure _

/-- Every run of the grammar has a history, whether it ends with a program or gives up. -/
theorem traceable_program : Traceable program s [] [] :=
  .bind (traceable_expect_plain hs (by decide)) fun _ =>
    .bind (traceable_definition hs hr).many fun _ => .bind (traceable_mainPart hs hr) fun _ =>
    .bind (traceable_expect_plain hs (by decide)) fun _ =>
    .bind traceable_finish fun _ => .pure _

end Programs

end RobotLang.Worded
