/-
  RobotLang.Proofs.Unbounded.Milestones
  ─────────────────────────────────────
  **EVERY STATEMENT OF A TREE WAS NOTED WHERE IT WAS READ.**

  A reading notes where lists and definitions start a statement.  No statement
  comes from elsewhere: of a program that was read, the notes and the statements
  of its tree correspond one by one, from the outside in, and each statement is
  what the grammar reads at the tokens of its note:

      notes         ts₁   ts₂   ts₃   ⋯
                     │     │     │
      statements    c₁    c₂    c₃    ⋯

  So whatever is said of the notes is said of all statements of the program.

  The proof follows the readings.  `Steady u depth s Q` is about a reading that
  succeeds within that depth: it does the same within any greater depth, and what
  it made and noted has `Q`.  Numbers and conditions note nothing
  (`silent_integer`, `silent_term`); each rule of a grammar notes what its parts
  do, and lists and definitions one more for each statement they start.

  Main results:

    • `Worded.noted_statements` — the statements of a worded program,
    • `Braced.noted_statements` — the statements of a braced program.
-/
import RobotLang.Proofs.Unbounded.Braced
import RobotLang.Proofs.Unbounded.Worded

namespace RobotLang

open Rule

/-- Whether it was noted that a statement starts. -/
def Milestone.isStart : Milestone → Bool
  | .listed _ => true
  | .body _ => true
  | .resumed _ => false

namespace Unbounded

variable {α β σ : Type} {s : Setting} {depth : Nat}

/-! ## §1. What was noted when a reading succeeds. -/

/-- Where the reading succeeds within this depth, it does so in the same way within any greater
depth, and its result and what it noted on the way have `Q`. -/
def Steady (u : (depth : Nat) → Unbounded α) (depth : Nat) (s : Setting)
    (Q : α → List Milestone → Prop) : Prop :=
  ∀ ⦃p a p'⦄, u depth s p = some (some a, p') →
    (∀ deeper, depth ≤ deeper → u deeper s p = some (some a, p'))
      ∧ ∃ ms, p'.milestones = p.milestones ++ ms ∧ Q a ms

/-- A reading that succeeds has noted nothing. -/
abbrev Silent (u : (depth : Nat) → Unbounded α) (depth : Nat) (s : Setting) : Prop :=
  Steady u depth s fun _ ms => ms = []

/-- At these tokens the reading makes that result, however deep it may go from some depth on. -/
def Gives (u : (depth : Nat) → Unbounded α) (s : Setting) (ts : List Token) (a : α) : Prop :=
  ∃ p p' enough, p.rest = ts ∧ ∀ depth, enough ≤ depth → u depth s p = some (some a, p')

/-- A sequence that succeeds has parts that do. -/
theorem exists_of_bind_eq_some {u : Unbounded α} {v : α → Unbounded β} {p p'' : Progress} {b : β}
    (h : (u >>= v) s p = some (some b, p'')) :
    ∃ a p', u s p = some (some a, p') ∧ v a s p' = some (some b, p'') := by
  change Option.bind (u s p) _ = _ at h
  obtain ⟨⟨result, p'⟩, hu, hv⟩ := Option.bind_eq_some_iff.mp h
  cases result with
  | none => cases hv
  | some a => exact ⟨a, p', hu, hv⟩

namespace Steady

variable {P : α → List Milestone → Prop} {Q : β → List Milestone → Prop}

/-- Within no depth at all nothing succeeds. -/
theorem zero {u : Nat → Unbounded α} (h : u 0 = never) : Steady u 0 s P := by
  intro p a p' hu
  rw [h] at hu
  cases hu

/-- A call takes one level of depth. -/
theorem of_succ {u : Nat → Unbounded α} (h : Steady (fun depth => u (depth + 1)) depth s P) :
    Steady u (depth + 1) s P := by
  intro p a p' hu
  obtain ⟨hdeeper, hms⟩ := h hu
  refine ⟨fun deeper hle => ?_, hms⟩
  obtain ⟨below, rfl⟩ := Nat.exists_eq_add_of_le' (Nat.le_of_add_left_le hle)
  exact hdeeper below (Nat.le_of_add_le_add_right hle)

theorem pure {a : α} (h : P a []) : Steady (fun _ => pure a) depth s P := by
  intro p a' p' hpure
  cases hpure
  exact ⟨fun _ _ => rfl, [], (List.append_nil _).symm, h⟩

/-- A step that calls nothing. -/
theorem step {u : Unbounded α} (h : ∀ p a p', u s p = some (some a, p') →
    p'.milestones = p.milestones) : Silent (fun _ => u) depth s :=
  fun p a p' hu => ⟨fun _ _ => hu, [], by rw [h p a p' hu, List.append_nil], rfl⟩

/-- A rule without loops notes nothing. -/
theorem lift (rule : Rule α) : Silent (fun _ => liftM rule) depth s := by
  refine step fun p a p' h => ?_
  exact congrArg (fun r => r.2.milestones) (Option.some.inj h).symm

/-- A rule without loops, of which it is known how it ends. -/
theorem lift_of_ends {rule : Rule α} (h : ∀ ⦃ts a rest ds⦄, Ends rule s ts a rest ds → P a []) :
    Steady (fun _ => liftM rule) depth s P := by
  intro p a p' hu
  obtain ⟨hdeeper, _, hms, rfl⟩ := lift rule hu
  have hresult : (rule s p.rest).result = some a := congrArg Prod.fst (Option.some.inj hu)
  exact ⟨hdeeper, [], hms, h (ends_of_result hresult)⟩

/-- A rule that gives up never succeeds, so anything may be said of its result. -/
theorem noViable (kinds : List Kind) : Steady (fun _ => liftM (noViable kinds)) depth s P :=
  lift_of_ends fun _ _ _ _ h => absurd h ends_noViable

/-- What the second part notes comes behind what the first has noted. -/
theorem bind {u : Nat → Unbounded α} {v : α → Nat → Unbounded β} (h : Steady u depth s P)
    (hnext : ∀ a ms, P a ms → Steady (v a) depth s fun b ms' => Q b (ms ++ ms')) :
    Steady (fun depth => u depth >>= fun a => v a depth) depth s Q := by
  intro p b p'' hbind
  obtain ⟨a, p', hu, hv⟩ := exists_of_bind_eq_some hbind
  obtain ⟨hdeeper, ms, hms, hP⟩ := h hu
  obtain ⟨hdeeper', ms', hms', hQ⟩ := hnext a ms hP hv
  refine ⟨fun deeper hle => ?_, ms ++ ms', ?_, hQ⟩
  · exact (bind_of_some (hdeeper deeper hle)).trans (hdeeper' deeper hle)
  · rw [hms', hms, List.append_assoc]

/-- Behind a silent part all is noted by the second. -/
theorem silent_bind {u : Nat → Unbounded α} {v : α → Nat → Unbounded β} (h : Silent u depth s)
    (hnext : ∀ a, Steady (v a) depth s Q) :
    Steady (fun depth => u depth >>= fun a => v a depth) depth s Q :=
  h.bind fun a _ hms => hms ▸ hnext a

/-- Steps of a rule go by unnoticed. -/
theorem lift_bind {rule : Rule α} {v : α → Nat → Unbounded β}
    (hnext : ∀ a, Steady (v a) depth s Q) :
    Steady (fun depth => liftM rule >>= fun a => v a depth) depth s Q :=
  silent_bind (lift rule) hnext

/-- A part that notes, with nothing but steps behind it. -/
theorem bind_pure {u : Nat → Unbounded α} {make : α → β} (h : Steady u depth s P)
    (hmake : ∀ a ms, P a ms → Q (make a) ms) :
    Steady (fun depth => u depth >>= fun a => Pure.pure (make a)) depth s Q :=
  h.bind fun a ms hP => .pure (by rw [List.append_nil]; exact hmake a ms hP)

/-- A part that notes, with one more step before the result is put together. -/
theorem bind_lift_pure {γ : Type} {u : Nat → Unbounded α} {rule : Rule γ} {make : α → γ → β}
    (h : Steady u depth s P) (hmake : ∀ a ms, P a ms → ∀ c, Q (make a c) ms) :
    Steady (fun depth => do
      let a ← u depth
      let c ← liftM rule
      Pure.pure (make a c)) depth s Q :=
  h.bind fun a ms hP => .lift_bind fun c => .pure (by rw [List.append_nil]; exact hmake a ms hP c)

/-- Which branch is taken does not depend on the depth. -/
theorem ite {c : Prop} [Decidable c] {u v : Nat → Unbounded α} (hu : Steady u depth s P)
    (hv : Steady v depth s P) : Steady (fun depth => if c then u depth else v depth) depth s P := by
  by_cases hc : c
  · simpa only [if_pos hc] using hu
  · simpa only [if_neg hc] using hv

/-- A note is made of the tokens at which the reading behind it starts. -/
theorem note {milestone : List Token → Milestone} {P' : α → List Milestone → Prop}
    {u : Nat → Unbounded α} (h : Steady u depth s P)
    (hnote : ∀ ts a ms, Gives u s ts a → P a ms → P' a (milestone ts :: ms)) :
    Steady (fun depth => note milestone >>= fun _ => u depth) depth s P' := by
  intro p a p' hbind
  obtain ⟨_, noted, hnoted, hu⟩ := exists_of_bind_eq_some hbind
  cases hnoted
  obtain ⟨hdeeper, ms, hms, hP⟩ := h hu
  have hgives : Gives u s p.rest a :=
    ⟨{ p with milestones := p.milestones ++ [milestone p.rest] }, p', depth, rfl, hdeeper⟩
  refine ⟨fun deeper hle => hdeeper deeper hle, milestone p.rest :: ms, ?_, ?_⟩
  · rw [hms, List.append_assoc, List.singleton_append]
  · exact hnote p.rest a ms hgives hP

end Steady

/-! ## §2. Notes and statements. -/

/-- The notes of where statements start correspond to these statements, one by one. -/
def Marks (made : Milestone → σ → Prop) (ms : List Milestone) (cs : List σ) : Prop :=
  List.Forall₂ made (ms.filter Milestone.isStart) cs

namespace Marks

variable {made made' : Milestone → σ → Prop} {ms ms' : List Milestone} {cs cs' : List σ}

theorem nil : Marks made [] [] :=
  List.Forall₂.nil

/-- Notes of two readings, one after the other, mark the statements of both. -/
theorem append (h : Marks made ms cs) (h' : Marks made ms' cs') :
    Marks made (ms ++ ms') (cs ++ cs') := by
  unfold Marks
  rw [List.filter_append]
  exact List.rel_append h h'

/-- Only what was noted matters. -/
theorem imp_of_mem (h : Marks made ms cs) (himp : ∀ m ∈ ms, ∀ c, made m c → made' m c) :
    Marks made' ms cs := by
  have hmem : ∀ m ∈ ms.filter Milestone.isStart, m ∈ ms := fun m hm => (List.mem_filter.mp hm).1
  exact ((List.forall₂_and_left _ _).mpr ⟨hmem, h⟩).imp fun m c hmc => himp m hmc.1 c hmc.2

/-- Every statement that is marked has its note. -/
theorem exists_of_mem (h : Marks made ms cs) {c : σ} (hc : c ∈ cs) : ∃ m ∈ ms, made m c := by
  obtain ⟨i, hi, rfl⟩ := List.getElem_of_mem hc
  have hi' : i < (ms.filter Milestone.isStart).length := h.length_eq ▸ hi
  exact ⟨_, (List.mem_filter.mp (List.getElem_mem hi')).1, h.get hi' hi⟩

end Marks

/-- Where statements start is noted of the input. -/
theorem WellPlaced.suffix_of_start {x : Input} {ms : List Milestone} (h : WellPlaced x ms)
    {ts : List Token} (hmem : .listed ts ∈ ms ∨ .body ts ∈ ms) : ts <:+ x.tokens := by
  rcases hmem with hlisted | hbody
  · exact (h.of_listed hlisted).1
  · obtain ⟨read, as_, htokens, -⟩ := h.of_body hbody
    exact ⟨read ++ [as_], by rw [htokens, List.append_assoc, List.singleton_append]⟩

/-- What a reading that agrees with a rule makes is what the rule says. -/
theorem Gives.result_eq {x : Input} {u : Nat → Unbounded α} {rule : Rule α} {ts : List Token}
    {a : α} (h : Gives u x.setting ts a) (hagrees : ∀ n, AgreesBelow x n u rule)
    (hts : ts <:+ x.tokens) :
    (rule x.setting ts).result = some a := by
  obtain ⟨p, p', enough, rfl, hu⟩ := h
  obtain ⟨-, ms, enough', -, hu'⟩ := hagrees _ hts (Nat.lt_succ_self _)
  -- within a depth that is enough for both, both say what is returned
  have hboth := hu (max enough enough') (Nat.le_max_left _ _)
  rw [show p = ⟨p.rest, p.complaints, p.milestones⟩ from rfl,
    hu' (max enough enough') (Nat.le_max_right _ _)] at hboth
  exact congrArg Prod.fst (Option.some.inj hboth)

/-- A reading that agrees with a rule, and returned on a whole token list, has noted what is well
placed. -/
theorem Steady.of_run {u : Nat → Unbounded α} {rule : Rule α} {Q : α → List Milestone → Prop}
    {label : Kind → String} {recovery sensorParens : Bool} {tokens : List Token}
    {starts : List Kind} {a : α} {rest : List Token} {ds : List Diagnostic} {ms : List Milestone}
    (h : Steady u depth (.forTokens label recovery sensorParens tokens) Q) (hstarts : .eof ∉ starts)
    (hagrees : ∀ n, AgreesBelow (.ofTokens label recovery sensorParens tokens starts hstarts) n u
      rule)
    (hrun : (u depth).run label recovery sensorParens tokens = some (⟨some a, rest, ds⟩, ms)) :
    WellPlaced (.ofTokens label recovery sensorParens tokens starts hstarts) ms ∧ Q a ms := by
  obtain ⟨placed, enough, hreturns, hplaced⟩ := exists_run_eq hstarts hagrees
  obtain ⟨⟨result, p'⟩, hu, heq⟩ := Option.map_eq_some_iff.mp hrun
  cases heq
  obtain ⟨hdeeper, ms, hms, hQ⟩ := h hu
  -- what it noted is what it notes within a depth that is enough for agreement
  have hsame := hreturns (max depth enough) (Nat.le_max_right _ _)
  rw [run, hdeeper (max depth enough) (Nat.le_max_left _ _)] at hsame
  have hnoted : p'.milestones = placed := congrArg Prod.snd (Option.some.inj hsame)
  rw [List.nil_append] at hms
  exact ⟨hnoted ▸ hplaced, hms ▸ hQ⟩

/-! ## §3. Going on behind garbage, numbers and conditions. -/

/-- Looking for a place to go on notes nothing, however far it looks.  By induction on the depth,
which is one less for each token passed. -/
theorem silent_lookAhead (first : List Kind) (closer : Kind) (resync : List Kind)
    (start : List Token) (depth : Nat) :
    Silent (lookAhead first closer resync start) depth s := by
  induction depth with
  | zero => exact .zero rfl
  | succ depth ih =>
    have hrewind : Silent (fun _ => rewind start) depth s :=
      .step fun p _ p' h => by cases h; rfl
    exact .of_succ (.lift_bind fun _ => .lift_bind fun _ => .lift_bind fun _ =>
      .ite (.lift_bind fun _ => .pure rfl) (.lift_bind fun _ => .lift_bind fun _ =>
        .ite (.silent_bind hrewind fun _ => .pure rfl) (.lift_bind fun _ => ih)))

/-- Finding the place notes nothing: the list that goes on does. -/
theorem silent_resume (first : List Kind) (closer : Kind) (resync : List Kind) :
    Silent (resume first closer resync) depth s := by
  have hremaining : Silent (fun _ => remaining) depth s :=
    .step fun p _ p' h => by cases h; rfl
  exact .lift_bind fun _ => .lift_bind fun _ => .lift_bind fun _ =>
    .ite (.pure rfl) (.silent_bind hremaining fun start => silent_lookAhead _ _ _ start depth)

/-- What is nested in a number is read one level down, and notes nothing either. -/
theorem silent_integer (depth : Nat) : Silent integer depth s := by
  induction depth with
  | zero => exact .zero rfl
  | succ depth ih =>
    refine .of_succ (.lift_bind fun kind => ?_)
    cases kind with
    | identifier => exact .lift_bind fun _ => .pure rfl
    | succ | pred =>
      exact .lift_bind fun _ => .lift_bind fun _ => .silent_bind ih fun _ =>
        .lift_bind fun _ => .pure rfl
    | _ => exact .lift _

/-- All parts of a condition are silent. -/
structure SilentConditions (depth : Nat) (s : Setting) : Prop where
  term : Silent term depth s
  disjuncts : ∀ a, Silent (disjuncts a) depth s
  conjunction : Silent conjunction depth s
  conjuncts : ∀ a, Silent (conjuncts a) depth s
  negation : Silent negation depth s
  clause : Silent clause depth s

/-- The parts of a condition call each other one level down.  None of them notes anything itself. -/
theorem SilentConditions.succ (h : SilentConditions depth s) : SilentConditions (depth + 1) s where
  term := .of_succ (h.conjunction.silent_bind fun _ => h.disjuncts _)
  disjuncts a := by
    refine .of_succ (.lift_bind fun found => ?_)
    cases found with
    | none => exact .pure rfl
    | some token => exact h.conjunction.silent_bind fun _ => h.disjuncts _
  conjunction := .of_succ (h.negation.silent_bind fun _ => h.conjuncts _)
  conjuncts a := by
    refine .of_succ (.lift_bind fun found => ?_)
    cases found with
    | none => exact .pure rfl
    | some token => exact h.negation.silent_bind fun _ => h.conjuncts _
  negation := by
    refine .of_succ (.lift_bind fun found => ?_)
    cases found with
    | none | some operator => exact h.clause.silent_bind fun _ => .pure rfl
  clause := by
    refine .of_succ (.lift_bind fun kind => ?_)
    cases kind with
    | isZero =>
      exact .lift_bind fun _ => .lift_bind fun _ => (silent_integer depth).silent_bind fun _ =>
        .lift_bind fun _ => .pure rfl
    | leftParen =>
      exact .lift_bind fun _ => h.term.silent_bind fun _ => .lift_bind fun _ => .pure rfl
    | _ => exact .lift _

/-- By induction on the depth, all parts at once, since each calls others. -/
theorem silentConditions (depth : Nat) : SilentConditions depth s := by
  induction depth with
  | zero =>
    exact ⟨.zero rfl, fun _ => .zero rfl, .zero rfl, fun _ => .zero rfl, .zero rfl, .zero rfl⟩
  | succ depth ih => exact ih.succ

theorem silent_term (depth : Nat) : Silent term depth s :=
  (silentConditions depth).term

end Unbounded

namespace Worded

/-! ## §4. Statements of worded programs. -/

/-- The statements in the lists of a piece of code, from the outside in. -/
def Code.listed {part : Part} : Code part → List Statement
  | .nil => []
  | .cons head tail => head :: (head.listed ++ tail.listed)
  | .empty _ => []
  | .ended command _ => command.listed
  | .builtin _ _ => []
  | .call _ => []
  | .callWith _ _ _ _ => []
  | .cond _ _ _ yes => yes.listed
  | .condElse _ _ _ yes _ no => yes.listed ++ no.listed
  | .whileDo _ _ _ body => body.listed
  | .times _ _ _ body => body.listed
  | .block _ body _ => body.listed

/-- The statements of a definition. -/
def Definition.statements : Definition → List Statement
  | .full _ _ _ _ body => body :: body.listed
  | .prototype _ _ _ _ => []

/-- The statements of a program, in the order of their first tokens. -/
def Program.statements (p : Program) : List Statement :=
  p.definitions.flatMap Definition.statements ++ p.main.body.listed

namespace Unbounded

open RobotLang.Unbounded

variable {s : Setting} {depth : Nat}

/-- A list or a definition starts a statement at the tokens noted, and this is the statement. -/
def StatementAt (s : Setting) (m : Milestone) (c : Statement) : Prop :=
  ∃ ts follow, (m = .listed ts ∨ m = .body ts) ∧ Gives (statement follow) s ts c

/-- A reading of code notes the statements in the lists of what it makes. -/
abbrev MarksListed {part : Part} (u : (depth : Nat) → Unbounded (Code part)) (depth : Nat)
    (s : Setting) : Prop :=
  Steady u depth s fun c ms => Marks (StatementAt s) ms c.listed

/-- All readings of code do. -/
structure MarkedCode (depth : Nat) (s : Setting) : Prop where
  command : MarksListed command depth s
  cond : MarksListed cond depth s
  whileDo : MarksListed whileDo depth s
  times : MarksListed times depth s
  block : MarksListed block depth s
  statement : ∀ follow, MarksListed (statement follow) depth s
  statements : ∀ closer resync follow, Steady (statements closer resync follow) depth s
    fun cs ms => Marks (StatementAt s) ms (Code.ofList cs).listed

/-- A call has no list in it. -/
theorem marksListed_call : MarksListed call depth s := by
  refine .lift_bind fun name => .lift_bind fun found => ?_
  cases found with
  | some left =>
    exact (silent_integer depth).silent_bind fun _ => .lift_bind fun _ => .pure .nil
  | none => exact .pure .nil

section Commands

variable (h : MarkedCode depth s)

include h

/-- A command notes what the reading does that its first token chooses. -/
theorem marksListed_command_succ : MarksListed command (depth + 1) s := by
  refine .of_succ (.lift_bind fun kind => ?_)
  cases kind with
  | identifier => exact marksListed_call
  | if_ => exact h.cond
  | while_ => exact h.whileDo
  | repeat_ => exact h.times
  | begin_ => exact h.block
  | move | turnLeft | pickBeeper | putBeeper | turnOff | return_ =>
    exact .lift_bind fun _ => .pure .nil
  | _ => exact .noViable commandFirst

/-- The statements of the first branch come before those of the second. -/
theorem marksListed_cond_succ : MarksListed cond (depth + 1) s := by
  refine .of_succ (.lift_bind fun _ => (silent_term depth).silent_bind fun _ => .lift_bind fun _ =>
    h.command.bind fun yes ms hyes => .lift_bind fun found => ?_)
  cases found with
  | some otherwise => exact h.command.bind_pure fun no ms' hno => hyes.append hno
  | none => exact .pure (by rw [List.append_nil]; exact hyes)

theorem marksListed_whileDo_succ : MarksListed whileDo (depth + 1) s :=
  .of_succ (.lift_bind fun _ => (silent_term depth).silent_bind fun _ => .lift_bind fun _ =>
    h.command.bind_pure fun _ _ hbody => hbody)

theorem marksListed_times_succ : MarksListed times (depth + 1) s :=
  .of_succ (.lift_bind fun _ => (silent_integer depth).silent_bind fun _ => .lift_bind fun _ =>
    h.command.bind_pure fun _ _ hbody => hbody)

/-- A block notes what its list does. -/
theorem marksListed_block_succ : MarksListed block (depth + 1) s :=
  .of_succ (.lift_bind fun _ => (h.statements _ _ _).bind_lift_pure fun _ _ hbody _ => hbody)

/-- A statement does not note itself: that is for who starts it. -/
theorem marksListed_statement_succ (follow : List Kind) :
    MarksListed (statement follow) (depth + 1) s :=
  .of_succ (.lift_bind fun _ => .ite
    (h.command.bind_lift_pure fun _ _ hcommand _ => hcommand)
    (.lift_bind fun _ => .pure .nil))

/-- A list notes a statement, then what the statement notes, then what the others do. -/
theorem marks_statements_succ (closer : Kind) (resync follow : List Kind) :
    Steady (statements closer resync follow) (depth + 1) s
      fun cs ms => Marks (StatementAt s) ms (Code.ofList cs).listed := by
  have hmore := h.statements closer resync follow
  have hhead : Steady (fun depth => note .listed >>= fun _ => statement follow depth) depth s
      fun c ms => Marks (StatementAt s) ms (c :: c.listed) :=
    (h.statement follow).note fun ts c ms hc hms => .cons ⟨ts, follow, .inl rfl, hc⟩ hms
  refine .of_succ (.lift_bind fun _ => .ite ?_ ?_)
  · exact hhead.bind fun c ms hc => hmore.bind_pure fun cs ms' hcs => hc.append hcs
  · refine .silent_bind (silent_resume _ _ _) fun _ => .ite ?_ (.pure .nil)
    exact hmore.note fun ts cs ms _ hms => hms

theorem MarkedCode.succ : MarkedCode (depth + 1) s where
  command := marksListed_command_succ h
  cond := marksListed_cond_succ h
  whileDo := marksListed_whileDo_succ h
  times := marksListed_times_succ h
  block := marksListed_block_succ h
  statement := marksListed_statement_succ h
  statements := marks_statements_succ h

end Commands

/-- By induction on the depth, all readings at once, since each calls others one level down. -/
theorem markedCode (depth : Nat) : MarkedCode depth s := by
  induction depth with
  | zero =>
    exact ⟨.zero rfl, .zero rfl, .zero rfl, .zero rfl, .zero rfl, fun _ => .zero rfl,
      fun _ _ _ => .zero rfl⟩
  | succ depth ih => exact ih.succ

/-- A definition notes its body, then what the body notes. -/
theorem marks_fullDefinition :
    Steady fullDefinition depth s fun d ms => Marks (StatementAt s) ms d.statements := by
  have hstatement := (markedCode (s := s) depth).statement definitionFollow
  have hbody : Steady (fun depth => note .body >>= fun _ => statement definitionFollow depth) depth
      s fun c ms => Marks (StatementAt s) ms (c :: c.listed) :=
    hstatement.note fun ts c ms hc hms => .cons ⟨ts, _, .inr rfl, hc⟩ hms
  exact .lift_bind fun _ => .lift_bind fun _ => .lift_bind fun _ => .lift_bind fun _ =>
    hbody.bind_pure fun _ _ hms => hms

/-- A prototype has no statements, and reading it notes none. -/
theorem marks_definition :
    Steady definition depth s fun d ms => Marks (StatementAt s) ms d.statements := by
  refine .lift_bind fun kind => ?_
  cases kind with
  | define => exact marks_fullDefinition
  | prototype =>
    refine .lift_of_ends fun ts d rest ds h => ?_
    iterate 4 obtain ⟨_, _, _, _, -, h, -⟩ := ends_bind.mp h
    obtain ⟨rfl, -⟩ := ends_pure.mp h
    exact .nil
  | _ => exact .noViable _

/-- Definitions note their statements one after the other. -/
theorem marks_definitions (depth : Nat) : Steady definitions depth s
    fun ds ms => Marks (StatementAt s) ms (ds.flatMap Definition.statements) := by
  induction depth with
  | zero => exact .zero rfl
  | succ depth ih =>
    exact .of_succ (.lift_bind fun _ => .ite
      (marks_definition.bind fun d ms hd => ih.bind_pure fun ds ms' hds => hd.append hds)
      (.pure .nil))

/-- A program notes the statements of its definitions, then those of its main part. -/
theorem marks_program :
    Steady program depth s fun p ms => Marks (StatementAt s) ms p.statements := by
  have hmain : Steady mainPart depth s fun m ms => Marks (StatementAt s) ms m.body.listed :=
    .lift_bind fun _ => ((markedCode depth).statements _ _ _).bind_lift_pure fun _ _ hms _ => hms
  exact .lift_bind fun _ => (marks_definitions depth).bind fun ds ms hds =>
    hmain.bind fun m ms' hm => .lift_bind fun _ => .lift_bind fun _ =>
    .pure (by rw [List.append_nil]; exact hds.append hm)

end Unbounded

/-- **The notes of a reading are the statements of the worded program it made**, one by one and
from the outside in, each at the tokens where the grammar reads it. -/
theorem noted_statements {label : Kind → String} {recovery sensorParens : Bool}
    {tokens : List Token} {depth : Nat} {p : Program} {rest : List Token} {ds : List Diagnostic}
    {ms : List Milestone}
    (h : (Unbounded.program depth).run label recovery sensorParens tokens
      = some (⟨some p, rest, ds⟩, ms)) :
    let s := Setting.forTokens label recovery sensorParens tokens
    List.Forall₂ (fun m c => ∃ ts follow, (m = .listed ts ∨ m = .body ts)
        ∧ (statement follow s ts).result = some c)
      (ms.filter Milestone.isStart) p.statements := by
  have heof : .eof ∉ statementFirst := by decide
  obtain ⟨hplaced, hmarks⟩ := Unbounded.marks_program.of_run heof
    (fun _ => Unbounded.agrees_program rfl) h
  refine hmarks.imp_of_mem ?_
  rintro m hm c ⟨ts, follow, hstart, hgives⟩
  have hts := hplaced.suffix_of_start (hstart.imp (· ▸ hm) (· ▸ hm))
  exact ⟨ts, follow, hstart,
    hgives.result_eq (fun _ => Unbounded.agrees_statement rfl follow) hts⟩

end Worded

namespace Braced

/-! ## §5. Statements of braced programs. -/

/-- The statements in the blocks of a piece of code, from the outside in. -/
def Code.listed {part : Part} : Code part → List Statement
  | .nil => []
  | .cons head tail => head :: (head.listed ++ tail.listed)
  | .empty _ => []
  | .builtin _ _ _ _ _ => []
  | .call _ _ _ _ _ => []
  | .cond _ _ _ _ yes => yes.listed
  | .condElse _ _ _ _ yes _ no => yes.listed ++ no.listed
  | .whileDo _ _ _ _ body => body.listed
  | .times _ _ _ _ body => body.listed
  | .block _ body _ => body.listed

/-- The statements of a program, in the order of their first tokens. -/
def Program.statements (p : Program) : List Statement :=
  p.definitions.flatMap (·.block.body.listed) ++ p.main.block.body.listed

namespace Unbounded

open RobotLang.Unbounded

variable {s : Setting} {depth : Nat}

/-- A block starts a statement at the tokens noted, and this is the statement. -/
def StatementAt (s : Setting) (m : Milestone) (c : Statement) : Prop :=
  ∃ ts, m = .listed ts ∧ Gives statement s ts c

/-- A reading notes the statements in the blocks of what it makes. -/
abbrev MarksListed (u : (depth : Nat) → Unbounded Statement) (depth : Nat) (s : Setting) : Prop :=
  Steady u depth s fun c ms => Marks (StatementAt s) ms c.listed

/-- All readings of statements do. -/
structure MarkedCode (depth : Nat) (s : Setting) : Prop where
  statement : MarksListed statement depth s
  cond : MarksListed cond depth s
  whileDo : MarksListed whileDo depth s
  times : MarksListed times depth s
  block : Steady block depth s fun b ms => Marks (StatementAt s) ms b.body.listed
  member : Steady member depth s fun c ms => Marks (StatementAt s) ms (c :: c.listed)
  statements : Steady statements depth s
    fun cs ms => Marks (StatementAt s) ms (Code.ofList cs).listed

theorem marksListed_call : MarksListed call depth s := by
  have hrest {name left : Token} (argument : Option Integer) : MarksListed
      (fun _ => do
        let right ← expect .rightParen
        return Code.call name left argument right (← expect .semicolon)) depth s :=
    .lift_bind fun _ => .lift_bind fun _ => .pure .nil
  refine .lift_bind fun name => .lift_bind fun left => .lift_bind fun b => ?_
  cases b with
  | true => exact .silent_bind (.pure rfl) hrest
  | false => exact .silent_bind ((silent_integer depth).silent_bind fun _ => .pure rfl) hrest

/-- An action has no block in it. -/
theorem marksListed_builtin (action : Builtin) :
    MarksListed (fun _ => liftM (builtin action)) depth s := by
  refine .lift_of_ends fun ts c rest ds h => ?_
  iterate 4 obtain ⟨_, _, _, _, -, h, -⟩ := ends_bind.mp h
  obtain ⟨rfl, -⟩ := ends_pure.mp h
  exact .nil

section Statements

variable (h : MarkedCode depth s)

include h

/-- A statement notes what the reading does that its first token chooses.  In braces these are the
statements of its block. -/
theorem marksListed_statement_succ : MarksListed statement (depth + 1) s := by
  refine .of_succ (.lift_bind fun kind => ?_)
  cases kind with
  | if_ => exact h.cond
  | while_ => exact h.whileDo
  | repeat_ => exact h.times
  | leftBrace => exact h.block.bind_pure fun _ _ hbody => hbody
  | identifier => exact marksListed_call
  | semicolon => exact .lift_bind fun _ => .pure .nil
  | move | turnLeft | pickBeeper | putBeeper | turnOff | return_ => exact marksListed_builtin _
  | _ => exact .noViable statementFirst

/-- The statements of the first branch come before those of the second. -/
theorem marksListed_cond_succ : MarksListed cond (depth + 1) s := by
  refine .of_succ (.lift_bind fun _ => .lift_bind fun _ => (silent_term depth).silent_bind fun _ =>
    .lift_bind fun _ => h.statement.bind fun yes ms hyes => .lift_bind fun found => ?_)
  cases found with
  | some otherwise => exact h.statement.bind_pure fun no ms' hno => hyes.append hno
  | none => exact .pure (by rw [List.append_nil]; exact hyes)

/-- A block notes a statement, then what the statement notes, then what the others do. -/
theorem MarkedCode.succ : MarkedCode (depth + 1) s where
  statement := marksListed_statement_succ h
  cond := marksListed_cond_succ h
  whileDo := .of_succ (.lift_bind fun _ => .lift_bind fun _ =>
    (silent_term depth).silent_bind fun _ => .lift_bind fun _ =>
    h.statement.bind_pure fun _ _ hbody => hbody)
  times := .of_succ (.lift_bind fun _ => .lift_bind fun _ =>
    (silent_integer depth).silent_bind fun _ => .lift_bind fun _ =>
    h.statement.bind_pure fun _ _ hbody => hbody)
  block := .of_succ (.lift_bind fun _ => h.statements.bind_lift_pure fun _ _ hbody _ => hbody)
  member := .of_succ (h.statement.note fun ts _ _ hc hms => .cons ⟨ts, rfl, hc⟩ hms)
  statements := .of_succ (.lift_bind fun _ => .ite
    (h.member.bind fun _ _ hc => h.statements.bind_pure fun _ _ hcs => hc.append hcs)
    (.pure .nil))

end Statements

theorem markedCode (depth : Nat) : MarkedCode depth s := by
  induction depth with
  | zero => exact ⟨.zero rfl, .zero rfl, .zero rfl, .zero rfl, .zero rfl, .zero rfl, .zero rfl⟩
  | succ depth ih => exact ih.succ

theorem marks_definitions (depth : Nat) : Steady definitions depth s
    fun ds ms => Marks (StatementAt s) ms (ds.flatMap (·.block.body.listed)) := by
  induction depth with
  | zero => exact .zero rfl
  | succ depth ih =>
    have hdefinition : Steady definition depth s
        fun d ms => Marks (StatementAt s) ms d.block.body.listed :=
      .lift_bind fun _ => .lift_bind fun _ => .lift_bind fun _ =>
        (markedCode depth).block.bind_pure fun _ _ hms => hms
    exact .of_succ (.lift_bind fun _ => .ite
      (hdefinition.bind fun d ms hd => ih.bind_pure fun ds ms' hds => hd.append hds)
      (.pure .nil))

theorem marks_program :
    Steady program depth s fun p ms => Marks (StatementAt s) ms p.statements := by
  have hmain : Steady mainPart depth s fun m ms => Marks (StatementAt s) ms m.block.body.listed :=
    .lift_bind fun _ => .lift_bind fun _ => .lift_bind fun _ =>
      (markedCode depth).block.bind_pure fun _ _ hms => hms
  exact .lift_bind fun _ => .lift_bind fun _ => .lift_bind fun _ =>
    (marks_definitions depth).bind fun ds ms hds => hmain.bind fun m ms' hm =>
    .lift_bind fun _ => .lift_bind fun _ => .pure (by rw [List.append_nil]; exact hds.append hm)

end Unbounded

/-- **The notes of a reading are the statements of the braced program it made**, one by one and
from the outside in, each at the tokens where the grammar reads it. -/
theorem noted_statements {label : Kind → String} {recovery sensorParens : Bool}
    {tokens : List Token} {depth : Nat} {p : Program} {rest : List Token} {ds : List Diagnostic}
    {ms : List Milestone}
    (h : (Unbounded.program depth).run label recovery sensorParens tokens
      = some (⟨some p, rest, ds⟩, ms)) :
    let s := Setting.forTokens label recovery sensorParens tokens
    List.Forall₂ (fun m c => ∃ ts, m = .listed ts ∧ (statement s ts).result = some c)
      (ms.filter Milestone.isStart) p.statements := by
  have heof : .eof ∉ statementFirst := by decide
  obtain ⟨hplaced, hmarks⟩ := Unbounded.marks_program.of_run heof
    (fun _ => Unbounded.agrees_program rfl) h
  refine hmarks.imp_of_mem ?_
  rintro m hm c ⟨ts, rfl, hgives⟩
  exact ⟨ts, rfl, hgives.result_eq (fun _ => Unbounded.agrees_statement rfl)
    (hplaced.of_listed hm).1⟩

end Braced

end RobotLang
