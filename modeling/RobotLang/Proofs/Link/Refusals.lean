/-
  RobotLang.Proofs.Link.Refusals
  ──────────────────────────────
  **A REFUSED DECLARATION LEAVES NO TRACE.**

  A declaration that contradicts an earlier one is reported and refused.  The
  program without the refused declarations is linked as the whole program is,
  those reports apart (`refused_leaves_no_trace`):

      all declarations   d₁  d₂  d₃  d₄  …      conflict about d₂, report on d₃
      those taken        d₁      d₃  d₄  …                         report on d₃

  What carries this is that the two first passes go along with each other: they
  have the same table and the same code after every declaration, and differ in
  the conflicts reported (`Placement.Mirrors`).
-/
import RobotLang.Proofs.Link.Acceptance

namespace RobotLang

/-! ## §1. Declarations that are taken. -/

/-- The issue is that a declaration contradicts an earlier one. -/
def Issue.isConflict : Issue → Bool
  | .functionRedefinition | .prototypeRedefinition | .prototypeParameterMismatch => true
  | _ => false

namespace Placement

variable (declareFirst : Bool)

/-- What the first pass reports when it comes to a declaration. -/
def reportsOn (p : Placement) (d : Declaration) : List Diagnostic :=
  (p.add declareFirst d).diagnostics.drop p.diagnostics.length

/-- No conflict is reported about the declaration. -/
def takes (p : Placement) (d : Declaration) : Bool :=
  !(p.reportsOn declareFirst d).any (·.issue.isConflict)

/-- The declarations about which no conflict is reported. -/
def taken (p : Placement) : List Declaration → List Declaration
  | [] => []
  | d :: ds =>
    if p.takes declareFirst d then d :: (p.add declareFirst d).taken ds
    else (p.add declareFirst d).taken ds

end Placement

/-- The program without the declarations about which a conflict is reported. -/
def Unlinked.accepted (u : Unlinked) (declareFirst : Bool) : Unlinked :=
  { u with declarations := Placement.taken declareFirst ⟨[], u.entry, []⟩ u.declarations }

/-- What linking reports. -/
def recorded : Except Failure Executable → List Diagnostic
  | .ok _ => []
  | .error failure => failure.diagnostics

/-! ## §2. One declaration. -/

/-- A declaration is refused for a conflict with an earlier one, and for nothing else. -/
theorem FunctionTable.isConflict_of_declare {table : FunctionTable} {d : Declaration} {index : Nat}
    {issue : Issue} (h : table.declare d index = .error issue) : issue.isConflict = true := by
  unfold FunctionTable.declare at h
  split at h
  · cases h
  · cases h
    rfl
  · cases h
  · split at h
    · cases h
      rfl
    · split at h
      · cases h
        rfl
      · cases h

/-- A call to what is not declared is no conflict. -/
theorem isConflict_of_mem_undeclaredCalls {table : FunctionTable} {line : Nat} {f : Fragment}
    {d : Diagnostic} (h : d ∈ undeclaredCalls table line f) : d.issue.isConflict = false := by
  induction f generalizing line with
  | nil => cases h
  | cons instr f ih =>
    cases instr with
    | op | param => exact ih h
    | call name arity =>
      simp only [undeclaredCalls] at h
      split at h
      · exact ih h
      · rcases List.mem_cons.mp h with rfl | h
        · rfl
        · exact ih h

namespace Placement

variable {declareFirst : Bool} {p q : Placement} {d : Declaration}

/-- A refused declaration leaves its report and nothing else. -/
theorem add_of_error {issue : Issue} (h : p.table.declare d p.code.length = .error issue) :
    p.add declareFirst d
      = { p with diagnostics := p.diagnostics ++ [.atLine issue d.name d.line] } := by
  simp only [add, h]

/-- Any other declaration changes table and code, and what is reported on it does not depend on
what was reported before. -/
theorem add_of_ok {table : FunctionTable} (h : p.table.declare d p.code.length = .ok table) :
    p.add declareFirst d = ⟨table, p.code ++ d.body.getD [], p.diagnostics
      ++ if declareFirst then undeclaredCalls table 1 (d.body.getD []) else []⟩ := by
  simp only [add, h]
  cases d.body with
  | none => cases declareFirst <;> simp [undeclaredCalls]
  | some body => cases declareFirst <;> simp

/-- A declaration is taken exactly if the table takes it. -/
theorem takes_iff : p.takes declareFirst d = true
    ↔ ∃ table, p.table.declare d p.code.length = .ok table := by
  unfold takes reportsOn
  cases hdeclare : p.table.declare d p.code.length with
  | error issue =>
    have hconflict := FunctionTable.isConflict_of_declare hdeclare
    rw [add_of_error hdeclare, List.drop_left]
    simp [Diagnostic.atLine, hconflict]
  | ok table =>
    rw [add_of_ok hdeclare, List.drop_left]
    simp only [Except.ok.injEq, exists_eq', iff_true, Bool.not_eq_true', List.any_eq_false]
    intro report hreport
    split at hreport
    · simp [isConflict_of_mem_undeclaredCalls hreport]
    · cases hreport

/-- A declaration that is not taken is refused with an issue. -/
theorem exists_error_of_not_takes (h : ¬p.takes declareFirst d = true) :
    ∃ issue, p.table.declare d p.code.length = .error issue := by
  cases hdeclare : p.table.declare d p.code.length with
  | error issue => exact ⟨issue, rfl⟩
  | ok table => exact absurd (takes_iff.mpr ⟨table, hdeclare⟩) h

/-! ## §3. The first pass with and without refused declarations. -/

/-- The second placement is the first without the reports of conflicts. -/
structure Mirrors (p q : Placement) : Prop where
  table : q.table = p.table
  code : q.code = p.code
  diagnostics : q.diagnostics = p.diagnostics.filter (!·.issue.isConflict)

/-- A declaration that is taken is taken in both passes. -/
theorem Mirrors.add (h : p.Mirrors q) (hd : p.takes declareFirst d = true) :
    (p.add declareFirst d).Mirrors (q.add declareFirst d) := by
  obtain ⟨table, hdeclare⟩ := takes_iff.mp hd
  -- the two passes stand at the same table and at the same place in the code
  have hdeclare' : q.table.declare d q.code.length = .ok table := by
    rw [h.table, h.code, hdeclare]
  rw [add_of_ok hdeclare, add_of_ok hdeclare']
  refine ⟨rfl, by rw [h.code], ?_⟩
  have hcalls : (if declareFirst then undeclaredCalls table 1 (d.body.getD []) else []).filter
      (!·.issue.isConflict)
        = if declareFirst then undeclaredCalls table 1 (d.body.getD []) else [] := by
    rw [List.filter_eq_self]
    intro report hreport
    split at hreport
    · simp [isConflict_of_mem_undeclaredCalls hreport]
    · cases hreport
  rw [List.filter_append, hcalls, h.diagnostics]

/-- A declaration that is refused is not there in the second pass. -/
theorem Mirrors.add_refused (h : p.Mirrors q) (hd : ¬p.takes declareFirst d = true) :
    (p.add declareFirst d).Mirrors q := by
  obtain ⟨issue, hdeclare⟩ := exists_error_of_not_takes hd
  have hconflict := FunctionTable.isConflict_of_declare hdeclare
  rw [add_of_error hdeclare]
  refine ⟨h.table, h.code, ?_⟩
  rw [List.filter_append, h.diagnostics]
  simp [Diagnostic.atLine, hconflict]

/-- The whole pass, by induction on the declarations: those that are refused change nothing that a
later one could see. -/
theorem Mirrors.foldl (h : p.Mirrors q) (ds : List Declaration) :
    (ds.foldl (Placement.add declareFirst) p).Mirrors
      ((p.taken declareFirst ds).foldl (Placement.add declareFirst) q) := by
  induction ds generalizing p q with
  | nil => exact h
  | cons d ds ih =>
    rw [taken]
    split
    · next hd => exact ih (h.add hd)
    · next hd => exact ih (h.add_refused hd)

/-- What the table knows of a name stays as long as every declaration of that name is refused.  By
induction on the declarations: those that are taken are of another name, and those that are refused
leave the table as it was. -/
theorem find?_foldl {name : String} {ds : List Declaration}
    (h : ∀ d ∈ p.taken declareFirst ds, d.name ≠ name) :
    (ds.foldl (Placement.add declareFirst) p).table.find? name = p.table.find? name := by
  induction ds generalizing p with
  | nil => rfl
  | cons d ds ih =>
    rw [taken] at h
    split at h
    · next hd =>
      -- it is of another name, so the entry that it makes is not the one looked up
      rw [List.forall_mem_cons] at h
      obtain ⟨table, hdeclare⟩ := takes_iff.mp hd
      have htable : (p.add declareFirst d).table.find? name = p.table.find? name := by
        rw [add_of_ok hdeclare, FunctionTable.eq_of_declare hdeclare, FunctionTable.find?_cons,
          if_neg h.1.symm]
      exact (ih h.2).trans htable
    · next hd =>
      obtain ⟨issue, hdeclare⟩ := exists_error_of_not_takes hd
      have htable : (p.add declareFirst d).table = p.table := by rw [add_of_error hdeclare]
      exact (ih h).trans (by rw [htable])

end Placement

/-! ## §4. Linking. -/

/-- What cannot be resolved is no conflict.  It is a name that is not there, or a call with the
wrong number of arguments. -/
theorem Instr.isConflict_of_resolve {table : FunctionTable} {line : Nat} {instr : Instr}
    {report : Diagnostic} (h : instr.resolve table line = .error report) :
    report.issue.isConflict = false := by
  cases instr with
  | op => cases h
  | param =>
    cases h
    rfl
  | call name arity =>
    simp only [resolve, FunctionTable.resolve] at h
    split at h
    · cases h
    · next issue hissue =>
      cases h
      split at hissue
      · split at hissue
        · cases hissue
        · cases hissue
          rfl
      · cases hissue
        rfl

/-- The second pass reports no conflicts. -/
theorem isConflict_of_mem_resolveFrom {table : FunctionTable} {line : Nat} {f : Fragment}
    {d : Diagnostic} (h : d ∈ (resolveFrom table line f).2) : d.issue.isConflict = false := by
  induction f generalizing line with
  | nil => cases h
  | cons instr f ih =>
    simp only [resolveFrom] at h
    split at h
    · exact ih h
    · next report hreport =>
      rcases List.mem_cons.mp h with rfl | h
      · exact Instr.isConflict_of_resolve hreport
      · exact ih h

/-- What linking reports is what the two passes report, one after the other. -/
theorem recorded_link (u : Unlinked) (declareFirst : Bool) :
    recorded (link u declareFirst) = (u.place declareFirst).diagnostics
      ++ (resolveFrom (u.place declareFirst).table 1 (u.place declareFirst).code).2 := by
  simp only [link]
  split
  · next hnone =>
    rw [hnone]
    rfl
  · rfl

/-- A program and what is accepted of it are placed alike. -/
theorem Unlinked.place_mirrors (u : Unlinked) (declareFirst : Bool) :
    (u.place declareFirst).Mirrors ((u.accepted declareFirst).place declareFirst) := by
  have hstart : Placement.Mirrors ⟨[], u.entry, []⟩ ⟨[], u.entry, []⟩ := ⟨rfl, rfl, rfl⟩
  exact hstart.foldl u.declarations

/-- **A refused declaration leaves no trace.**  Without the declarations about which a conflict is
reported, linking reports what it reports with them, those conflicts apart, in the same order.  If
it succeeds then the program is the entry and the bodies of the declarations that were taken, and
calls go to these.  A declaration that the table refuses leaves the state of the first pass as it
was, its report apart.  So a function that was announced can be defined as announced, behind any
declarations of its name that were refused. -/
theorem refused_leaves_no_trace (u : Unlinked) (declareFirst : Bool) :
    recorded (link (u.accepted declareFirst) declareFirst)
        = (recorded (link u declareFirst)).filter (!·.issue.isConflict)
      ∧ (∀ program, link (u.accepted declareFirst) declareFirst = .ok program →
          ∃ p, Placed u.entry (u.accepted declareFirst).declarations p
            ∧ List.Forall₂ (Resolves p.table) p.code program)
      ∧ (∀ (p : Placement) (d : Declaration) (issue : Issue),
          p.table.declare d p.code.length = .error issue →
          p.add declareFirst d
            = { p with diagnostics := p.diagnostics ++ [.atLine issue d.name d.line] })
      ∧ ∀ (p : Placement) (ds : List Declaration) (d : Declaration),
          p.table.find? d.name = some ⟨none, d.paramCount⟩ → d.body.isSome →
          (∀ e ∈ p.taken declareFirst ds, e.name ≠ d.name) →
          (ds.foldl (Placement.add declareFirst) p).takes declareFirst d = true := by
  refine ⟨?_, fun program h => placed_of_link h, fun p d issue => Placement.add_of_error, ?_⟩
  · -- the second pass starts from the same table and code, and reports no conflicts of its own
    obtain ⟨htable, hcode, hdiagnostics⟩ := u.place_mirrors declareFirst
    have hresolved {table : FunctionTable} {f : Fragment} :
        (resolveFrom table 1 f).2.filter (!·.issue.isConflict) = (resolveFrom table 1 f).2 :=
      List.filter_eq_self.mpr fun d hd => by simp [isConflict_of_mem_resolveFrom hd]
    rw [recorded_link, recorded_link, htable, hcode, hdiagnostics, List.filter_append, hresolved]
  · -- the announcement is still what the table knows of the name
    intro p ds d hannounced hbody hrefused
    refine Placement.takes_iff.mpr (FunctionTable.declare_isOk_iff.mpr fun known hknown => ?_)
    rw [Placement.find?_foldl hrefused, hannounced] at hknown
    obtain rfl := Option.some.inj hknown
    exact ⟨hbody, rfl, rfl⟩

/-- A function that is announced with a parameter, then defined without one, with one, and with one
again.  The definition that is taken calls the function of that name. -/
def contradictory (callee : String) : Unlinked where
  declarations :=
    [⟨"f", none, 1, 1⟩,
      ⟨"f", some [.call "h" 1, .op .ret], 0, 2⟩,
      ⟨"f", some [.op (.line 2), .call callee 1, .op .ret], 1, 3⟩,
      ⟨"f", none, 1, 4⟩,
      ⟨"g", some [.op (.load 7), .call "f" 2, .op .ret], 0, 5⟩,
      ⟨"f", some [.param "n", .op .ret], 1, 6⟩]
  entry := [.op (.load 0), .call "g" 1, .op .halt]

/-- The call to a function that is not there is reported with the refused declarations and without
them; once it is mended, the program without them is linked. -/
theorem contradictory_accepted :
    recorded (link (contradictory "k") true)
        = [.atLine .prototypeParameterMismatch "f" 2, .atLine .undefinedFunction "k" 3,
          .atLine .prototypeRedefinition "f" 4, .atLine .functionRedefinition "f" 6,
          .atLine .undefinedFunction "k" 3]
      ∧ ((contradictory "k").accepted true).declarations.map (·.line) = [1, 3, 5]
      ∧ recorded (link ((contradictory "k").accepted true) true)
        = [.atLine .undefinedFunction "k" 3, .atLine .undefinedFunction "k" 3]
      ∧ ∃ program p, link ((contradictory "g").accepted false) false = .ok program
        ∧ Placed (contradictory "g").entry ((contradictory "g").accepted false).declarations p
        ∧ List.Forall₂ (Resolves p.table) p.code program := by
  have hlink : recorded (link (contradictory "k") true)
      = [.atLine .prototypeParameterMismatch "f" 2, .atLine .undefinedFunction "k" 3,
        .atLine .prototypeRedefinition "f" 4, .atLine .functionRedefinition "f" 6,
        .atLine .undefinedFunction "k" 3] := by decide +kernel
  have hmended : link ((contradictory "g").accepted false) false
      = .ok [.load 0, .call 6 "g", .halt, .line 2, .call 6 "g", .ret, .load 7, .call 3 "f",
        .ret] := by decide +kernel
  obtain ⟨p, hplaced, hresolved⟩ :=
    (refused_leaves_no_trace (contradictory "g") false).2.1 _ hmended
  refine ⟨hlink, by decide +kernel, ?_, _, p, hmended, hplaced, hresolved⟩
  rw [(refused_leaves_no_trace (contradictory "k") true).1, hlink]
  decide

end RobotLang
