/-
  RobotLang.Proofs.Unbounded.Basic
  ────────────────────────────────
  **READING WITH LOOPS THAT THE TOKENS DO NOT BOUND.**

  The rules count down from the number of tokens wherever they repeat, chain
  or nest, and go on with something when the count is used up.  Here is the
  other way to read: a loop calls itself for the next round, rules call each
  other as deep as they please, and looking for a place to go on behind
  garbage takes one token after the other.  Such a reading need not return:

      Unbounded α  =  Setting → Progress → Option (Option α × Progress)

  The outer `none` is a reading that does not return, the inner one a reading
  that gives up.  A reading that calls others says how deep the calls may nest;
  where they would go deeper, it does not return.  It comes to an end if it
  returns for every depth from some depth on, and always with the same
  (`Returns`): then its calls, of which each makes a few at most, go no deeper.

  On its way a reading notes where lists and definitions start a statement,
  and where a list goes on behind garbage.
-/
import RobotLang.Proofs.Advancing

namespace RobotLang

open Rule

/-! ## §1. Readings that need not return. -/

/-- What a reading notes on its way. -/
inductive Milestone where
  /-- A list starts a statement at these tokens. -/
  | listed (ts : List Token)
  /-- A definition starts its body at these tokens. -/
  | body (ts : List Token)
  /-- A list has skipped garbage and goes on at these tokens. -/
  | resumed (ts : List Token)
  deriving DecidableEq

/-- How far a reading has come. -/
structure Progress where
  /-- The tokens left. -/
  rest : List Token
  /-- The complaints so far. -/
  complaints : List Diagnostic
  /-- What was noted so far. -/
  milestones : List Milestone

/-- A reading that need not return. -/
abbrev Unbounded (α : Type) : Type :=
  ReaderT Setting (OptionT (StateT Progress Option)) α

namespace Unbounded

variable {α β : Type}

/-- Does not return. -/
def never : Unbounded α := fun _ _ => none

/-- A rule without loops, as a step of a reading. -/
def ofRule (rule : Rule α) : Unbounded α := fun s p =>
  let o := rule s p.rest
  some (o.result, ⟨o.rest, p.complaints ++ o.complaints, p.milestones⟩)

instance : MonadLift Rule Unbounded where
  monadLift := ofRule

/-- Notes where the reading stands. -/
def note (milestone : List Token → Milestone) : Unbounded Unit := fun _ p =>
  some (some (), { p with milestones := p.milestones ++ [milestone p.rest] })

/-- The tokens left. -/
def remaining : Unbounded (List Token) := fun _ p =>
  some (some p.rest, p)

/-- Goes back to where `start` was left. -/
def rewind (start : List Token) : Unbounded Unit := fun _ p =>
  some (some (), { p with rest := start })

/-- Looks for one of `first` or the `closer`, token by token; goes back to `start` where `resync` or
the end of input comes before them. -/
def lookAhead (first : List Kind) (closer : Kind) (resync : List Kind) (start : List Token) :
    (depth : Nat) → Unbounded Bool
  | 0 => never
  | depth + 1 => do
    let s ← setting
    let goesOn ← isAtAny first
    let closes ← isAt closer
    if goesOn || closes then
      complain (.mismatch (front s start) [s.label closer])
      return goesOn
    else
      let ends ← isAt .eof
      let leaves ← isAtAny resync
      if ends || leaves then
        rewind start
        return false
      else
        let _ ← advance
        lookAhead first closer resync start depth

/-- Where a list that stopped short of its `closer` goes on. -/
def resume (first : List Kind) (closer : Kind) (resync : List Kind) (depth : Nat) :
    Unbounded Bool := do
  let s ← setting
  let closes ← isAt closer
  let next ← peekNth 1
  if !s.recovery || closes || next == closer then
    return false
  else
    lookAhead first closer resync (← remaining) depth

/-! ## §2. Returning. -/

/-- From these tokens the reading returns with that outcome, however deep its calls may nest from
some depth on, and what it notes has `P`. -/
structure Returns (P : List Milestone → Prop) (u : (depth : Nat) → Unbounded α) (s : Setting)
    (ts : List Token) (o : Outcome α) : Prop where
  suffix : o.rest <:+ ts
  result : ∃ ms enough, P ms ∧ ∀ depth, enough ≤ depth → ∀ ds earlier,
    u depth s ⟨ts, ds, earlier⟩ = some (o.result, ⟨o.rest, ds ++ o.complaints, earlier ++ ms⟩)

variable {s : Setting} {ts : List Token} {P Q R : List Milestone → Prop}

theorem bind_of_some {u : Unbounded α} {next : α → Unbounded β} {p p' : Progress} {a : α}
    (h : u s p = some (some a, p')) : (u >>= next) s p = next a s p' := by
  show Option.bind (u s p) _ = _
  rw [h]
  rfl

theorem bind_of_none {u : Unbounded α} {next : α → Unbounded β} {p p' : Progress}
    (h : u s p = some (none, p')) : (u >>= next) s p = some (none, p') := by
  show Option.bind (u s p) _ = _
  rw [h]
  rfl

/-- A rule that complains about nothing only moves on. -/
theorem lift_bind_of_quiet {rule : Rule α} {next : α → Unbounded β} {a : α} {mid : List Token}
    {ds : List Diagnostic} {ms : List Milestone} (h : rule s ts = ⟨some a, mid, []⟩) :
    ((liftM rule : Unbounded α) >>= next) s ⟨ts, ds, ms⟩ = next a s ⟨mid, ds, ms⟩ := by
  refine bind_of_some ?_
  show ofRule rule s ⟨ts, ds, ms⟩ = _
  simp only [ofRule, h, List.append_nil]

namespace Returns

theorem mono {u : Nat → Unbounded α} {o : Outcome α} (h : Returns P u s ts o)
    (hPQ : ∀ ms, P ms → Q ms) : Returns Q u s ts o := by
  obtain ⟨hsuffix, ms, enough, hms, hu⟩ := h
  exact ⟨hsuffix, ms, enough, hPQ ms hms, hu⟩

/-- A call takes one level of depth. -/
theorem of_succ {u : Nat → Unbounded α} {o : Outcome α}
    (h : Returns P (fun depth => u (depth + 1)) s ts o) : Returns P u s ts o := by
  obtain ⟨hsuffix, ms, enough, hms, hu⟩ := h
  refine ⟨hsuffix, ms, enough + 1, hms, fun depth hdepth => ?_⟩
  obtain ⟨below, rfl⟩ := Nat.exists_eq_add_of_le' (Nat.le_of_add_left_le hdepth)
  exact hu below (Nat.le_of_add_le_add_right hdepth)

theorem pure (hP : P []) (a : α) : Returns P (fun _ => pure a) s ts ⟨some a, ts, []⟩ where
  suffix := List.suffix_rfl
  result := ⟨[], 0, hP, fun _ _ ds earlier => by rw [List.append_nil, List.append_nil]; rfl⟩

/-- A rule without loops returns. -/
theorem lift (hP : P []) {rule : Rule α} (h : Courses rule s) :
    Returns P (fun _ => liftM rule) s ts (rule s ts) where
  suffix := (h ts).suffix
  result := ⟨[], 0, hP, fun _ _ ds earlier => by rw [List.append_nil]; rfl⟩

/-- A sequence returns if its parts do.  The greater of the two depths is enough for both, and the
milestones of the second follow those of the first. -/
theorem bind {u : Nat → Unbounded α} {v : α → Nat → Unbounded β} {rule : Rule α}
    {next : α → Rule β} (h : Returns P u s ts (rule s ts))
    (hnext : ∀ ⦃a rest ds⦄, rule s ts = ⟨some a, rest, ds⟩ → rest <:+ ts →
      Returns Q (v a) s rest (next a s rest))
    (hgaveUp : ∀ ms, P ms → R ms) (happend : ∀ ms ms', P ms → Q ms' → R (ms ++ ms')) :
    Returns R (fun depth => u depth >>= fun a => v a depth) s ts ((rule >>= next) s ts) := by
  obtain ⟨hsuffix, ms, enough, hms, hu⟩ := h
  rcases ho : rule s ts with ⟨result, rest, ds⟩
  rw [ho] at hsuffix hu
  cases result with
  | none =>
    rw [bind_of_givenUp ho]
    refine ⟨hsuffix, ms, enough, hgaveUp ms hms, fun depth hdepth ds' earlier => ?_⟩
    exact bind_of_none (hu depth hdepth ds' earlier)
  | some a =>
    obtain ⟨hsuffix', ms', enough', hms', hv⟩ := hnext ho hsuffix
    rw [Rule.bind_of_some ho]
    refine ⟨hsuffix'.trans hsuffix, ms ++ ms', max enough enough', happend ms ms' hms hms',
      fun depth hdepth ds' earlier => ?_⟩
    rw [bind_of_some (hu depth (by omega) ds' earlier), hv depth (by omega)]
    simp only [List.append_assoc]

/-- A step that notes nothing and complains about nothing only moves on. -/
theorem step {u : Nat → Unbounded α} {v : α → Nat → Unbounded β} {a : α} {mid : List Token}
    {o : Outcome β} (h : Returns (· = []) u s ts ⟨some a, mid, []⟩)
    (hnext : Returns P (v a) s mid o) :
    Returns P (fun depth => u depth >>= fun a => v a depth) s ts o := by
  obtain ⟨hmid, _, enough, rfl, hu⟩ := h
  obtain ⟨hsuffix, ms, enough', hms, hv⟩ := hnext
  refine ⟨hsuffix.trans hmid, ms, max enough enough', hms, fun depth hdepth ds earlier => ?_⟩
  rw [bind_of_some (hu depth (by omega) ds earlier), List.append_nil, List.append_nil]
  exact hv depth (by omega) ds earlier

/-- A rule that takes tokens in silence. -/
theorem quiet {rule : Rule α} {v : α → Nat → Unbounded β} {a : α} {mid : List Token}
    {o : Outcome β} (hrule : rule s ts = ⟨some a, mid, []⟩) (hmid : mid <:+ ts)
    (hnext : Returns P (v a) s mid o) :
    Returns P (fun depth => liftM rule >>= fun a => v a depth) s ts o := by
  refine step ⟨hmid, [], 0, rfl, fun _ _ ds earlier => ?_⟩ hnext
  show ofRule rule s ⟨ts, ds, earlier⟩ = _
  simp only [ofRule, hrule, List.append_nil]

/-- A rule that only looks. -/
theorem look {rule : Rule α} {v : α → Nat → Unbounded β} {a : α} {o : Outcome β}
    (hrule : rule s ts = ⟨some a, ts, []⟩) (hnext : Returns P (v a) s ts o) :
    Returns P (fun depth => liftM rule >>= fun a => v a depth) s ts o :=
  quiet hrule List.suffix_rfl hnext

/-- What is noted comes before what is read after it. -/
theorem note_bind {milestone : List Token → Milestone} {u : Nat → Unbounded α} {o : Outcome α}
    (h : Returns Q u s ts o) (hnote : ∀ ms, Q ms → R (milestone ts :: ms)) :
    Returns R (fun depth => note milestone >>= fun _ => u depth) s ts o := by
  obtain ⟨hsuffix, ms, enough, hms, hu⟩ := h
  refine ⟨hsuffix, milestone ts :: ms, enough, hnote ms hms, fun depth hdepth ds earlier => ?_⟩
  have hnoted : note milestone s ⟨ts, ds, earlier⟩
      = some (some (), ⟨ts, ds, earlier ++ [milestone ts]⟩) := rfl
  rw [bind_of_some hnoted, hu depth hdepth, List.append_assoc, List.singleton_append]

end Returns

/-! ## §3. Going on behind garbage. -/

/-- The search stops at the token at hand or passes it.  One turn of it, as an equation on what is
left of the tokens. -/
theorem lookAhead_succ (first : List Kind) (closer : Kind) (resync : List Kind)
    (start : List Token) (depth : Nat) (ds : List Diagnostic) (ms : List Milestone) :
    lookAhead first closer resync start (depth + 1) s ⟨ts, ds, ms⟩ =
      let kind := (front s ts).kind
      if first.contains kind || kind == closer then
        some (some (first.contains kind),
          ⟨ts, ds ++ [.mismatch (front s start) [s.label closer]], ms⟩)
      else if kind == .eof || resync.contains kind then some (some false, ⟨start, ds, ms⟩)
      else lookAhead first closer resync start depth s ⟨ts.tail, ds, ms⟩ := by
  have hat (kind : Kind) : isAt kind s ts = ⟨some ((front s ts).kind == kind), ts, []⟩ := rfl
  have hadvance : advance s ts = ⟨some (front s ts), ts.tail, []⟩ := rfl
  rw [lookAhead, lift_bind_of_quiet (show setting s ts = ⟨some s, ts, []⟩ from rfl),
    lift_bind_of_quiet (isAtAny_eq first s ts), lift_bind_of_quiet (hat closer)]
  dsimp only
  split
  · rfl
  · rw [lift_bind_of_quiet (hat .eof), lift_bind_of_quiet (isAtAny_eq resync s ts)]
    split
    · rfl
    · rw [lift_bind_of_quiet hadvance]

/-- The search ends where the skip does, or goes back.  It needs a round for each token it passes,
and one more. -/
theorem lookAhead_eq (hs : s.stop.kind = .eof) (first : List Kind) (closer : Kind)
    (resync : List Kind) (start : List Token) (hts : ∀ t ∈ ts, t.kind ≠ .eof) {depth : Nat}
    (hdepth : ts.length < depth) (ds : List Diagnostic) (ms : List Milestone) :
    lookAhead first closer resync start depth s ⟨ts, ds, ms⟩ =
      let ahead := skipTo (closer :: first ++ resync) ts
      let complaint := Diagnostic.mismatch (front s start) [s.label closer]
      if first.contains (front s ahead).kind then
        some (some true, ⟨ahead, ds ++ [complaint], ms⟩)
      else if (front s ahead).kind == closer then
        some (some false, ⟨ahead, ds ++ [complaint], ms⟩)
      else some (some false, ⟨start, ds, ms⟩) := by
  induction ts generalizing depth with
  | nil =>
    obtain ⟨below, rfl⟩ := Nat.exists_eq_add_of_lt hdepth
    rw [lookAhead_succ]
    simp only [skipTo, List.dropWhile_nil, front_nil, hs]
    cases hgoes : first.contains .eof <;> cases hcloses : Kind.eof == closer <;> simp
  | cons t ts ih =>
    obtain ⟨below, rfl⟩ := Nat.exists_eq_add_of_lt hdepth
    have hstop (h : t.kind ∈ closer :: first ++ resync) :
        skipTo (closer :: first ++ resync) (t :: ts) = t :: ts := by
      have hin : (closer :: first ++ resync).contains t.kind = true := List.contains_iff_mem.mpr h
      exact List.dropWhile_cons_of_neg (by rw [hin]; decide)
    rw [lookAhead_succ]
    by_cases hfirst : t.kind ∈ first
    · rw [hstop (by simp [hfirst])]
      simp [hfirst]
    · by_cases hcloser : t.kind = closer
      · subst hcloser
        rw [hstop (by simp)]
        simp [hfirst]
      · by_cases hresync : t.kind ∈ resync
        · rw [hstop (by simp [hresync])]
          simp [hfirst, hcloser, hresync]
        · -- the token is passed, by the search and by the skip
          obtain ⟨hend, hrest⟩ := List.forall_mem_cons.mp hts
          have hout : (closer :: first ++ resync).contains t.kind = false := by
            simp [hfirst, hcloser, hresync]
          have hskip : skipTo (closer :: first ++ resync) (t :: ts)
              = skipTo (closer :: first ++ resync) ts :=
            List.dropWhile_cons_of_pos (by rw [hout]; rfl)
          have hbelow : ts.length < (t :: ts).length + below := by
            rw [List.length_cons]
            omega
          rw [hskip, ← ih hrest hbelow]
          simp [hfirst, hcloser, hresync, hend]

/-- Going on behind garbage, token by token, is what the rule does at once.  There is an end to what
can be passed, so a depth of one more than the tokens is enough for the search. -/
theorem returns_resume (hs : s.stop.kind = .eof) (hts : ∀ t ∈ ts, t.kind ≠ .eof) (first : List Kind)
    (closer : Kind) (resync : List Kind) :
    Returns (· = []) (resume first closer resync) s ts (Rule.resume first closer resync s ts) := by
  have hat : isAt closer s ts = ⟨some ((front s ts).kind == closer), ts, []⟩ := rfl
  have hnext : peekNth 1 s ts = ⟨some (front s ts.tail).kind, ts, []⟩ := by
    rw [← List.drop_one]
    rfl
  refine ⟨(courses_resume first closer resync ts).suffix, [], ts.length + 1, rfl,
    fun depth hdepth ds earlier => ?_⟩
  unfold resume
  rw [lift_bind_of_quiet (show setting s ts = ⟨some s, ts, []⟩ from rfl), lift_bind_of_quiet hat,
    lift_bind_of_quiet hnext]
  unfold Rule.resume
  dsimp only
  split
  · simp only [List.append_nil]
    rfl
  -- the search is bounded by what remains, and the depth is enough for it
  · have hremaining : remaining s ⟨ts, ds, earlier⟩ = some (some ts, ⟨ts, ds, earlier⟩) := rfl
    rw [bind_of_some hremaining, lookAhead_eq hs first closer resync ts hts hdepth]
    dsimp only
    split
    · rw [List.append_nil]
    · split
      · rw [List.append_nil]
      · rw [List.append_nil, List.append_nil]

end Unbounded
end RobotLang
