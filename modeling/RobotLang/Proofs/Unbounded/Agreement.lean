/-
  RobotLang.Proofs.Unbounded.Agreement
  ────────────────────────────────────
  **LOOPS THAT RETURN BECAUSE EACH ROUND TAKES A TOKEN.**

  A reading agrees with a rule if it returns what the rule says, wherever it
  starts in the input.  This is shown for few tokens first: `AgreesBelow n` is
  about the ends of the input that have fewer than `n` tokens, and behind a
  token that was taken it is enough to agree below `n` to agree below `n + 1`.

  A rule counts its rounds down from the number of tokens, a reading calls
  itself for another round.  They agree, since each round has fewer tokens:

      nesting   each layer stands behind a token (`AgreesBelow.nested`)
      many      each item takes a token (`AgreesBelow.many`)
      chain     each item stands behind its operator (`AgreesBelow.chain`)
      list      each statement takes a token, and so does each skip
                (`AgreesBelow.list`)

  On the way, what a reading notes is well placed (`WellPlaced`).
-/
import RobotLang.Proofs.Unbounded.Basic

namespace RobotLang.Unbounded

open Rule

variable {α β : Type}

/-! ## §1. Inputs, and where notes are made. -/

/-- What is to be read, and how a statement of it may start. -/
structure Input where
  setting : Setting
  tokens : List Token
  /-- The kinds that start a statement. -/
  starts : List Kind
  stop_kind : setting.stop.kind = .eof
  kind_ne : ∀ t ∈ tokens, t.kind ≠ .eof
  eof_not_mem : .eof ∉ starts

/-- Behind the last token nothing starts. -/
theorem Input.front_nil_not_mem (x : Input) {kinds : List Kind} (hend : .eof ∉ kinds) :
    (front x.setting []).kind ∉ kinds := by
  rw [front_nil, x.stop_kind]
  exact hend

/-- What is noted is well placed: a list starts statements where one can start, a definition starts
its body right behind `como`, and a list that goes on starts a statement there. -/
inductive WellPlaced (x : Input) : List Milestone → Prop where
  | nil : WellPlaced x []
  | listed {ts : List Token} {ms : List Milestone} : ts <:+ x.tokens →
      (front x.setting ts).kind ∈ x.starts → WellPlaced x ms → WellPlaced x (.listed ts :: ms)
  | body {read : List Token} {as_ : Token} {ts : List Token} {ms : List Milestone} :
      x.tokens = read ++ as_ :: ts → as_.kind = .as_ → WellPlaced x ms →
      WellPlaced x (.body ts :: ms)
  | resumed {ts : List Token} {ms : List Milestone} : WellPlaced x (.listed ts :: ms) →
      WellPlaced x (.resumed ts :: .listed ts :: ms)

theorem WellPlaced.append {x : Input} {ms ms' : List Milestone} (h : WellPlaced x ms)
    (h' : WellPlaced x ms') : WellPlaced x (ms ++ ms') := by
  induction h with
  | nil => exact h'
  | listed hts hin _ ih => exact .listed hts hin ih
  | body htokens has _ ih => exact .body htokens has ih
  | resumed _ ih => exact .resumed ih

/-- A list starts statements where the input has one that can start. -/
theorem WellPlaced.of_listed {x : Input} {ms : List Milestone} {ts : List Token}
    (h : WellPlaced x ms) (hmem : .listed ts ∈ ms) :
    ts <:+ x.tokens ∧ (front x.setting ts).kind ∈ x.starts := by
  induction h with
  | nil => cases hmem
  | listed hts hin _ ih =>
    rcases List.mem_cons.mp hmem with heq | hmem
    · cases heq
      exact ⟨hts, hin⟩
    · exact ih hmem
  | body _ _ _ ih => exact ih (by simpa using hmem)
  | resumed _ ih => exact ih (by simpa using hmem)

/-- The body of a definition starts right behind `como`. -/
theorem WellPlaced.of_body {x : Input} {ms : List Milestone} {ts : List Token} (h : WellPlaced x ms)
    (hmem : .body ts ∈ ms) : ∃ read as_, x.tokens = read ++ as_ :: ts ∧ as_.kind = .as_ := by
  induction h with
  | nil => cases hmem
  | listed _ _ _ ih => exact ih (by simpa using hmem)
  | body htokens has _ ih =>
    rcases List.mem_cons.mp hmem with heq | hmem
    · cases heq
      exact ⟨_, _, htokens, has⟩
    · exact ih hmem
  | resumed _ ih => exact ih (by simpa using hmem)

/-- A list that goes on starts a statement next, and there. -/
theorem WellPlaced.of_resumed {x : Input} {before after : List Milestone} {ts : List Token}
    (h : WellPlaced x (before ++ .resumed ts :: after)) : ∃ more, after = .listed ts :: more := by
  generalize hms : before ++ .resumed ts :: after = ms at h
  induction h generalizing before with
  | nil => exact absurd hms (by simp)
  | listed _ _ _ ih | body _ _ _ ih =>
    cases before with
    | nil => cases hms
    | cons m before => exact ih (List.cons.inj hms).2
  | resumed _ ih =>
    cases before with
    | nil =>
      cases hms
      exact ⟨_, rfl⟩
    | cons m before => exact ih (List.cons.inj hms).2

/-! ## §2. Readings that return what a rule says. -/

/-- On the last tokens of the input, if they are fewer than `n`, the reading returns what the rule
says. -/
def AgreesBelow (x : Input) (n : Nat) (u : (depth : Nat) → Unbounded α) (rule : Rule α) : Prop :=
  ∀ ⦃ts⦄, ts <:+ x.tokens → ts.length < n →
    Returns (WellPlaced x) u x.setting ts (rule x.setting ts)

variable {x : Input} {n : Nat} {ts : List Token}

/-- A wanted token that was found stands right before what is left. -/
theorem exists_eq_append_of_expect {kind : Kind} {t : Token} {rest : List Token}
    {ds : List Diagnostic} (hkind : kind ≠ .eof)
    (h : expect kind x.setting ts = ⟨some t, rest, ds⟩) :
    ∃ read, ts = read ++ t :: rest ∧ t.kind = kind := by
  rcases (ends_expect x.stop_kind hkind).mp h with ⟨hts, ht, -⟩ | ⟨stray, hts, -, ht, -⟩
  · exact ⟨[], hts, ht⟩
  · exact ⟨[stray], hts, ht⟩

theorem Returns.bind_wellPlaced {u : Nat → Unbounded α} {v : α → Nat → Unbounded β} {rule : Rule α}
    {next : α → Rule β} (h : Returns (WellPlaced x) u x.setting ts (rule x.setting ts))
    (hnext : ∀ ⦃a rest ds⦄, rule x.setting ts = ⟨some a, rest, ds⟩ → rest <:+ ts →
      Returns (WellPlaced x) (v a) x.setting rest (next a x.setting rest)) :
    Returns (WellPlaced x) (fun depth => u depth >>= fun a => v a depth) x.setting ts
      ((rule >>= next) x.setting ts) :=
  h.bind hnext (fun _ hms => hms) fun _ _ hms hms' => hms.append hms'

/-- Behind the token at hand there is room for less. -/
theorem Returns.advance_bind {v : Token → Nat → Unbounded β} {next : Token → Rule β}
    (hts : ts <:+ x.tokens) (hn : ts.length < n + 1) (hk : (front x.setting ts).kind ≠ .eof)
    (hnext : ∀ t, AgreesBelow x n (v t) (next t)) :
    Returns (WellPlaced x) (fun depth => liftM advance >>= fun t => v t depth) x.setting ts
      ((advance >>= next) x.setting ts) := by
  have hadvance : advance x.setting ts = ⟨some (front x.setting ts), ts.tail, []⟩ := rfl
  have hlt := length_tail_lt x.stop_kind hk
  rw [bind_of_quiet hadvance]
  exact .quiet hadvance (List.tail_suffix ts)
    (hnext _ ((List.tail_suffix ts).trans hts) (by omega))

namespace AgreesBelow

theorem mono {u : Nat → Unbounded α} {rule : Rule α} {m : Nat} (h : AgreesBelow x n u rule)
    (hm : m ≤ n) : AgreesBelow x m u rule :=
  fun _ hts hlt => h hts (Nat.lt_of_lt_of_le hlt hm)

theorem pure (a : α) : AgreesBelow x n (fun _ => pure a) (pure a) :=
  fun _ _ _ => .pure .nil a

theorem lift {rule : Rule α} (h : Courses rule x.setting) :
    AgreesBelow x n (fun _ => liftM rule) rule :=
  fun _ _ _ => .lift .nil h

theorem bind {u : Nat → Unbounded α} {v : α → Nat → Unbounded β} {rule : Rule α}
    {next : α → Rule β} (h : AgreesBelow x n u rule)
    (hnext : ∀ a, AgreesBelow x n (v a) (next a)) :
    AgreesBelow x n (fun depth => u depth >>= fun a => v a depth) (rule >>= next) := by
  intro ts hts hlt
  refine .bind_wellPlaced (h hts hlt) fun a rest ds _ hrest => ?_
  exact hnext a (hrest.trans hts) (Nat.lt_of_le_of_lt hrest.length_le hlt)

theorem lift_bind {rule : Rule α} {v : α → Nat → Unbounded β} {next : α → Rule β}
    (hrule : Courses rule x.setting) (hnext : ∀ a, AgreesBelow x n (v a) (next a)) :
    AgreesBelow x n (fun depth => liftM rule >>= fun a => v a depth) (rule >>= next) :=
  (lift hrule).bind hnext

/-- A call takes one level of depth. -/
theorem of_succ {u : Nat → Unbounded α} {rule : Rule α}
    (h : AgreesBelow x n (fun depth => u (depth + 1)) rule) : AgreesBelow x n u rule :=
  fun _ hts hlt => (h hts hlt).of_succ

/-- Behind a wanted token there is room for less. -/
theorem expect_bind {kind : Kind} {v : Token → Nat → Unbounded β} {next : Token → Rule β}
    (hkind : kind ≠ .eof) (hnext : ∀ t, AgreesBelow x n (v t) (next t)) :
    AgreesBelow x (n + 1) (fun depth => liftM (expect kind) >>= fun t => v t depth)
      (expect kind >>= next) := by
  intro ts hts hlt
  refine .bind_wellPlaced (.lift .nil (courses_expect kind)) fun t rest ds ht hrest => ?_
  obtain ⟨read, rfl, -⟩ := exists_eq_append_of_expect hkind ht
  rw [List.length_append, List.length_cons] at hlt
  exact hnext t (hrest.trans hts) (by omega)

/-- A choice by the token at hand. -/
theorem peek_bind {v : Kind → Nat → Unbounded α} {next : Kind → Rule α}
    (h : ∀ kind ⦃ts⦄, ts <:+ x.tokens → ts.length < n → (front x.setting ts).kind = kind →
      Returns (WellPlaced x) (v kind) x.setting ts (next kind x.setting ts)) :
    AgreesBelow x n (fun depth => liftM peek >>= fun kind => v kind depth) (peek >>= next) := by
  intro ts hts hn
  rw [bind_of_quiet (show peek x.setting ts = ⟨some (front x.setting ts).kind, ts, []⟩ from rfl)]
  exact .look rfl (h _ hts hn rfl)

/-! ## §3. Nesting and loops. -/

/-- Whatever is nested as deep as there are tokens returns if each layer leaves fewer of them to the
next. -/
theorem nested {u : Nat → Unbounded α} {step : Rule α → Rule α} {starts : List Kind}
    (hstep : ∀ depth, AgreesBelow x depth u (nestedUpTo step starts depth) →
      AgreesBelow x (depth + 1) u (step (nestedUpTo step starts depth))) :
    AgreesBelow x n u (nested step starts) := by
  have hdepth (depth : Nat) : AgreesBelow x depth u (nestedUpTo step starts depth) := by
    induction depth with
    | zero => exact fun _ _ hn => absurd hn (Nat.not_lt_zero _)
    | succ depth ih => exact hstep depth ih
  exact fun ts hts _ => hdepth (ts.length + 1) hts (Nat.lt_succ_self _)

/-- Reading items for as long as one starts, if each of them takes a token.  The rule bounds its
loop by the number of tokens, and that bound is never what ends it. -/
theorem many {starts : List Kind} {u : Nat → Unbounded (List α)} {v : Nat → Unbounded α}
    {item : Rule α}
    (hu : ∀ depth, u (depth + 1) = do
      if ← isAtAny starts then
        let a ← v depth
        let as ← u depth
        return a :: as
      else
        return [])
    (hend : .eof ∉ starts) (hadvances : Advances n starts item x.setting)
    (hitem : ∀ ⦃ts⦄, ts <:+ x.tokens → ts.length < n → (front x.setting ts).kind ∈ starts →
      Returns (WellPlaced x) v x.setting ts (item x.setting ts)) :
    AgreesBelow x n u (many starts item) := by
  -- on the bound of the rule; it is used up only when no tokens are left
  have hbound : ∀ bound ⦃ts⦄, ts <:+ x.tokens → ts.length < n → ts.length ≤ bound →
      Returns (WellPlaced x) u x.setting ts (manyUpTo starts item bound x.setting ts) := by
    intro bound
    induction bound with
    | zero =>
      intro ts _ _ hzero
      obtain rfl := List.length_eq_zero_iff.mp (Nat.le_zero.mp hzero)
      have hout := x.front_nil_not_mem hend
      refine .of_succ ?_
      simp only [hu]
      refine .look (isAtAny_eq starts x.setting []) ?_
      simp only [List.contains_iff_mem, hout, if_false]
      exact .pure .nil []
    | succ bound ih =>
      intro ts hts hn hle
      rw [manyUpTo, bind_of_quiet (isAtAny_eq starts x.setting ts)]
      refine .of_succ ?_
      simp only [hu]
      refine .look (isAtAny_eq starts x.setting ts) ?_
      by_cases hin : (front x.setting ts).kind ∈ starts
      · simp only [List.contains_iff_mem, hin, if_true]
        refine .bind_wellPlaced (hitem hts hn hin) fun a rest ds ha hrest => ?_
        -- the item took a token, so the rest is within the smaller bound
        have hlt := hadvances hn hin
        rw [ha] at hlt
        dsimp only at hlt
        have hmore := ih (hrest.trans hts) (by omega) (by omega)
        exact .bind_wellPlaced hmore fun as rest' ds' _ _ => .pure .nil (a :: as)
      · simp only [List.contains_iff_mem, hin, if_false]
        exact .pure .nil []
  exact fun ts hts hn => hbound ts.length hts hn (Nat.le_refl _)

/-- Joining items for as long as the operator is at hand; each takes at least its operator.  The
rule bounds its loop by the number of tokens, and that bound is never what ends it. -/
theorem chain {operator : Kind} {u : α → Nat → Unbounded α} {v : Nat → Unbounded β}
    {item : Rule β} {join : α → Token → β → α}
    (hu : ∀ a depth, u a (depth + 1) = do
      match ← eat operator with
      | none => return a
      | some token => u (join a token (← v depth)) depth)
    (hoperator : operator ≠ .eof) (hitem : AgreesBelow x n v item) (a : α) :
    AgreesBelow x n (u a) (chain operator item join a) := by
  -- by induction on the bound of the rule, which the tokens left never exceed
  have hbound : ∀ bound a ⦃ts⦄, ts <:+ x.tokens → ts.length < n → ts.length ≤ bound →
      Returns (WellPlaced x) (u a) x.setting ts
        (chainUpTo operator item join bound a x.setting ts) := by
    intro bound
    induction bound with
    | zero =>
      intro a ts _ _ hzero
      obtain rfl := List.length_eq_zero_iff.mp (Nat.le_zero.mp hzero)
      have hnone : eat operator x.setting [] = ⟨some none, [], []⟩ :=
        if_neg (by rw [front_nil, x.stop_kind]; exact hoperator.symm)
      refine .of_succ ?_
      simp only [hu]
      exact .look hnone (.pure .nil a)
    | succ bound ih =>
      intro a ts hts hn hle
      rw [chainUpTo]
      refine .of_succ ?_
      simp only [hu]
      by_cases hk : (front x.setting ts).kind = operator
      · have hsome : eat operator x.setting ts
            = ⟨some (some (front x.setting ts)), ts.tail, []⟩ := if_pos hk
        have hlt := length_tail_lt x.stop_kind (hk ▸ hoperator)
        have htail := List.tail_suffix ts
        rw [bind_of_quiet hsome]
        refine .quiet hsome htail ?_
        refine .bind_wellPlaced (hitem (htail.trans hts) (by omega)) fun b rest ds _ hrest => ?_
        have hle' := hrest.length_le
        exact ih _ (hrest.trans (htail.trans hts)) (by omega) (by omega)
      · have hnone : eat operator x.setting ts = ⟨some none, ts, []⟩ := if_neg hk
        rw [bind_of_quiet hnone]
        exact .look hnone (.pure .nil a)
  exact fun ts hts hn => hbound ts.length a hts hn (Nat.le_refl _)

end AgreesBelow

/-- What is noted is well placed, and where a statement can start it is noted that one does. -/
def WellPlacedFrom (x : Input) (ts : List Token) (ms : List Milestone) : Prop :=
  WellPlaced x ms ∧ ((front x.setting ts).kind ∈ x.starts → ∃ more, ms = .listed ts :: more)

theorem wellPlacedFrom_of_not_mem {ms : List Milestone} (hin : (front x.setting ts).kind ∉ x.starts)
    (h : WellPlaced x ms) : WellPlacedFrom x ts ms :=
  ⟨h, fun hstarts => absurd hstarts hin⟩

section Resuming

variable {closer : Kind} {resync : List Kind} {u : Nat → Unbounded (List α)}

/-- At the end of input a list does not go on. -/
theorem returns_resume_nil : Returns (· = []) (resume x.starts closer resync) x.setting []
    ⟨some false, [], []⟩ := by
  have hout := x.front_nil_not_mem x.eof_not_mem
  have hreturns := returns_resume x.stop_kind (List.forall_mem_nil _) x.starts closer resync
  obtain ⟨b, rest, ds, hends⟩ := exists_ends_resume x.starts closer resync x.setting []
  rw [hends] at hreturns
  rcases ends_resume hout hends with ⟨rfl, rfl, rfl⟩ | ⟨stray, run, -, hts, -⟩
  · exact hreturns
  · cases hts

/-- A list that goes on has skipped a token, and starts a statement where it goes on.  The milestone
of the place where it goes on is followed by that of the statement. -/
theorem returns_resume_bind {more : Rule (List α)} (hts : ts <:+ x.tokens)
    (hin : (front x.setting ts).kind ∉ x.starts)
    (hmore : ∀ ⦃rest⦄, rest <:+ ts → rest.length < ts.length →
      Returns (WellPlacedFrom x rest) u x.setting rest (more x.setting rest)) :
    Returns (WellPlacedFrom x ts)
      (fun depth => do
        if ← resume x.starts closer resync depth then
          note .resumed
          u depth
        else
          return [])
      x.setting ts
      ((Rule.resume x.starts closer resync >>= fun b => if b = true then more else pure [])
        x.setting ts) := by
  have hkinds : ∀ t ∈ ts, t.kind ≠ .eof := fun t ht => x.kind_ne t (hts.subset ht)
  refine Returns.bind (returns_resume x.stop_kind hkinds x.starts closer resync)
    (Q := WellPlaced x) (fun b rest ds hb hrest => ?_) ?_ ?_
  · rcases ends_resume hin hb with ⟨rfl, rfl, rfl⟩ | ⟨stray, run, -, rfl, rfl, hgoes⟩
    · exact .pure .nil []
    -- a skip passes at least the token at hand, and ends at a statement or at the closer
    · rcases hgoes with ⟨rfl, hfront⟩ | ⟨rfl, -⟩
      · have hlen : rest.length < (stray :: run ++ rest).length := by
          rw [List.length_append, List.length_cons]
          omega
        refine .note_bind (hmore hrest hlen) fun ms hms => ?_
        obtain ⟨later, rfl⟩ := hms.2 hfront
        exact .resumed hms.1
      · exact .pure .nil []
  · rintro _ rfl
    exact wellPlacedFrom_of_not_mem hin .nil
  · rintro _ ms rfl hms
    exact wellPlacedFrom_of_not_mem hin hms

end Resuming

/-- Reading statements up to the closer, going on behind garbage, if each of them takes a token.
The rule bounds its loop by the number of tokens, and both a statement and a skip take one of
them. -/
theorem AgreesBelow.list {first : List Kind} {closer : Kind} {resync : List Kind}
    {u : Nat → Unbounded (List α)} {v : Nat → Unbounded α} {item : Rule α}
    (hu : ∀ depth, u (depth + 1) = do
      if ← isAtAny first then
        note .listed
        let a ← v depth
        let as ← u depth
        return a :: as
      else if ← resume first closer resync depth then
        note .resumed
        u depth
      else
        return [])
    (hfirst : x.starts = first) (hadvances : Advances n first item x.setting)
    (hitem : AgreesBelow x n v item) :
    AgreesBelow x n u (Rule.list first closer resync item) := by
  subst hfirst
  -- `WellPlacedFrom` carries to the round after a skip that the list starts a statement there
  have hbound : ∀ bound ⦃ts⦄, ts <:+ x.tokens → ts.length < n → ts.length ≤ bound →
      Returns (WellPlacedFrom x ts) u x.setting ts
        (listUpTo x.starts closer resync item bound x.setting ts) := by
    intro bound
    induction bound with
    | zero =>
      intro ts _ _ hzero
      obtain rfl := List.length_eq_zero_iff.mp (Nat.le_zero.mp hzero)
      have hout := x.front_nil_not_mem x.eof_not_mem
      refine .of_succ ?_
      simp only [hu]
      refine .look (isAtAny_eq x.starts x.setting []) ?_
      simp only [List.contains_iff_mem, hout, if_false]
      exact .step returns_resume_nil (.pure (wellPlacedFrom_of_not_mem hout .nil) [])
    | succ bound ih =>
      intro ts hts hn hle
      rw [listUpTo, bind_of_quiet (isAtAny_eq x.starts x.setting ts)]
      refine .of_succ ?_
      simp only [hu]
      refine .look (isAtAny_eq x.starts x.setting ts) ?_
      by_cases hin : (front x.setting ts).kind ∈ x.starts
      · simp only [List.contains_iff_mem, hin, if_true]
        refine .note_bind (Q := WellPlaced x) ?_ fun ms hms =>
          ⟨.listed hts hin hms, fun _ => ⟨ms, rfl⟩⟩
        refine .bind_wellPlaced (hitem hts hn) fun a rest ds ha hrest => ?_
        have hlt := hadvances hn hin
        rw [ha] at hlt
        dsimp only at hlt
        have hmore := (ih (hrest.trans hts) (by omega) (by omega)).mono fun _ h => h.1
        exact .bind_wellPlaced hmore fun as rest' ds' _ _ => .pure .nil (a :: as)
      · -- the skip took a token too, or the list ends
        simp only [List.contains_iff_mem, hin, if_false]
        refine returns_resume_bind hts hin fun rest hrest hlt => ?_
        exact ih (hrest.trans hts) (by omega) (by omega)
  exact fun ts hts hn => (hbound ts.length hts hn (Nat.le_refl _)).mono fun _ h => h.1

/-! ## §4. Whole token lists. -/

/-- Reads a whole token list, if the reading returns. -/
def run (u : Unbounded α) (label : Kind → String) (recovery sensorParens : Bool)
    (tokens : List Token) : Option (Outcome α × List Milestone) :=
  (u (.forTokens label recovery sensorParens tokens) ⟨beforeEnd tokens, [], []⟩).map
    fun (result, p) => (⟨result, p.rest, p.complaints⟩, p.milestones)

/-- A token list as input. -/
def Input.ofTokens (label : Kind → String) (recovery sensorParens : Bool) (tokens : List Token)
    (starts : List Kind) (hstarts : .eof ∉ starts) : Input where
  setting := .forTokens label recovery sensorParens tokens
  tokens := beforeEnd tokens
  starts := starts
  stop_kind := endToken_kind tokens
  kind_ne t ht := by simpa using List.all_eq_true.mp List.all_takeWhile t ht
  eof_not_mem := hstarts

/-- A reading that agrees with a rule returns what the rule makes of the token list. -/
theorem exists_run_eq {u : Nat → Unbounded α} {rule : Rule α} {label : Kind → String}
    {recovery sensorParens : Bool} {tokens : List Token} {starts : List Kind}
    (hstarts : .eof ∉ starts)
    (h : ∀ n, AgreesBelow (.ofTokens label recovery sensorParens tokens starts hstarts) n u rule) :
    ∃ ms enough, (∀ depth, enough ≤ depth → (u depth).run label recovery sensorParens tokens
        = some (rule.run label recovery sensorParens tokens, ms))
      ∧ WellPlaced (.ofTokens label recovery sensorParens tokens starts hstarts) ms := by
  obtain ⟨-, ms, enough, hms, hu⟩ := h _ List.suffix_rfl (Nat.lt_succ_self _)
  refine ⟨ms, enough, fun depth hdepth => ?_, hms⟩
  have hrun := hu depth hdepth [] []
  rw [List.nil_append, List.nil_append] at hrun
  exact congrArg (Option.map _) hrun

end RobotLang.Unbounded
