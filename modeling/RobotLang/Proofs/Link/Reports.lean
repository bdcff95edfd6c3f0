/-
  RobotLang.Proofs.Link.Reports
  ─────────────────────────────
  **WHAT LINKING REPORTS, TOLD WITHOUT THE TABLE.**

  Linking goes over the declarations with a table and then over the code.
  What it says depends on the declarations alone:

      conflict?   why a declaration cannot stand behind those kept so far
      keep        the declarations that stay
      ahead?      a call in a body to a name that is not declared by then
      problem?    a use that no kept definition answers

  The table of the first pass records the declarations that it kept
  (`Placement.Keeps`), so both passes can be read off these
  (`link_of_reports`).
-/
import RobotLang.Proofs.Fragment.Uses
import RobotLang.Proofs.Link.Targets

namespace RobotLang

open Declaration

/-! ## §1. Problems of declarations and of uses. -/

namespace Declaration

/-- Why the declaration cannot stand behind those kept so far. -/
def conflict? (kept : List Declaration) (d : Declaration) : Option Issue :=
  if d.body.isNone then
    if kept.any (·.name == d.name) then some .prototypeRedefinition else none
  else if kept.any (·.defines d.name) then some .functionRedefinition
  else if kept.any fun e => e.name == d.name && e.paramCount != d.paramCount then
    some .prototypeParameterMismatch
  else none

/-- A declaration is never refused for a call. -/
theorem conflict?_ne_undefinedFunction {kept : List Declaration} {d : Declaration} {issue : Issue}
    (h : d.conflict? kept = some issue) : issue ≠ .undefinedFunction := by
  rintro rfl
  unfold conflict? at h
  repeat' split at h
  all_goals cases h

/-- The declarations that stay, behind those kept so far. -/
def keep (kept : List Declaration) : List Declaration → List Declaration
  | [] => kept
  | d :: ds => keep (if (d.conflict? kept).isNone then kept ++ [d] else kept) ds

end Declaration

/-- What is wrong with a use in a body when only these functions are declared. -/
def Use.ahead? (declared : List Declaration) : Use → Option Diagnostic
  | .call name _ line =>
    if declared.any (·.name == name) then none else some (.atLine .undefinedFunction name line)
  | .param _ _ => none

/-- What is wrong with a use when these are all the declarations. -/
def Use.problem? (kept : List Declaration) : Use → Option Diagnostic
  | .call name arity line =>
    match kept.find? (·.defines name) with
    | none => some (.atLine .undefinedFunction name line)
    | some d =>
      if d.paramCount + 1 = arity then none else some (.atLine .functionParameterMismatch name line)
  | .param name line => some (.atLine .undefinedVariable name line)

/-- The reports about the declarations behind those kept so far. -/
def Declaration.reports (declareFirst : Bool) (kept : List Declaration) :
    List Declaration → List Diagnostic
  | [] => []
  | d :: ds =>
    match d.conflict? kept with
    | some issue => .atLine issue d.name d.line :: reports declareFirst kept ds
    | none =>
      (if declareFirst then
          (Fragment.uses 1 (d.body.getD [])).filterMap (Use.ahead? (kept ++ [d]))
        else [])
        ++ reports declareFirst (kept ++ [d]) ds

/-- The declarations that stay. -/
def Unlinked.kept (u : Unlinked) : List Declaration :=
  keep [] u.declarations

/-- Everything that is wrong with a program: its declarations, and then the
uses in the entry and in the bodies that stay. -/
def Unlinked.reports (u : Unlinked) (declareFirst : Bool) : List Diagnostic :=
  Declaration.reports declareFirst [] u.declarations
    ++ (Fragment.uses 1 (u.entry ++ (bodies u.kept).flatten)).filterMap (Use.problem? u.kept)

/-! ## §2. The table and the declarations. -/

namespace Records

variable {kept : List Declaration} {table : FunctionTable} {d : Declaration}

/-- Whether a name is known can be told from the declarations that stay. -/
theorem knows_eq (h : Records kept table) (name : String) :
    table.knows name = kept.any (·.name == name) := by
  rw [Bool.eq_iff_iff, h.knows_iff]
  simp

/-- Whether a name is defined, and not only announced, can be told from the declarations that
stay. -/
theorem defines_eq (h : Records kept table) (name : String) :
    kept.any (·.defines name) = (table.find? name).any (·.index.isSome) := by
  rw [Bool.eq_iff_iff, List.any_eq_true, Option.any_eq_true_iff_get]
  constructor
  · rintro ⟨d, hd, hdefines⟩
    obtain ⟨rfl, hbody⟩ : d.name = name ∧ d.body.isSome := by
      simpa [Declaration.defines] using hdefines
    obtain ⟨index, hfind, hindex⟩ := h.find d hd
    simpa [hfind] using hindex hbody
  · rintro ⟨hsome, hindex⟩
    obtain ⟨d, hd, hname, -, hbody⟩ := h.origin name _ (Option.some_get hsome).symm
    exact ⟨d, hd, by simp [Declaration.defines, hname, hbody, hindex]⟩

/-- Whether a name has another number of parameters can be told from the declarations that stay,
since all of one name agree in it. -/
theorem mismatch_eq (h : Records kept table) (name : String) (count : Nat) :
    (kept.any fun e => e.name == name && e.paramCount != count)
      = (table.find? name).any (·.paramCount != count) := by
  rw [Bool.eq_iff_iff, List.any_eq_true, Option.any_eq_true_iff_get]
  constructor
  · rintro ⟨d, hd, hmismatch⟩
    obtain ⟨rfl, hcount⟩ : d.name = name ∧ d.paramCount ≠ count := by simpa using hmismatch
    obtain ⟨index, hfind, -⟩ := h.find d hd
    simpa [hfind] using hcount
  · rintro ⟨hsome, hcount⟩
    obtain ⟨d, hd, hname, hparams, -⟩ := h.origin name _ (Option.some_get hsome).symm
    exact ⟨d, hd, by simpa [hname, hparams] using hcount⟩

/-- A declaration is refused for its conflict with those that the table records. -/
theorem declare_eq (h : Records kept table) (d : Declaration) (index : Nat) :
    table.declare d index
      = match d.conflict? kept with
        | some issue => .error issue
        | none => .ok ((d.name, ⟨d.body.map fun _ => index, d.paramCount⟩) :: table) := by
  unfold Declaration.conflict? FunctionTable.declare
  rw [← h.knows_eq, h.defines_eq, h.mismatch_eq, FunctionTable.knows]
  cases hbody : d.body with
  | none => cases table.find? d.name <;> rfl
  | some body =>
    cases table.find? d.name with
    | none => rfl
    | some known =>
      by_cases hindex : known.index.isSome
      · simp [hindex]
      · by_cases hcount : known.paramCount = d.paramCount
        · simp [hindex, hcount]
        · simp [hindex, hcount]

/-- What is wrong with a call can be told from the declarations.  The table has an index for a name
exactly if the name is defined, and then the number of its parameters. -/
theorem problem?_call (h : Records kept table) (name : String) (arity line : Nat) :
    Use.problem? kept (.call name arity line)
      = match table.resolve name arity with
        | .ok _ => none
        | .error issue => some (.atLine issue name line) := by
  rw [Use.problem?]
  cases hdefined : kept.find? (·.defines name) with
  | none =>
    -- an index in the table would come from a definition
    have hresolve : table.resolve name arity = .error .undefinedFunction := by
      unfold FunctionTable.resolve
      split
      · next index paramCount hfind =>
        obtain ⟨d, hd, hname, -, hbody⟩ := h.origin _ _ hfind
        have hdefines := List.find?_eq_none.mp hdefined d hd
        simp [Declaration.defines, hname, hbody] at hdefines
      · rfl
    rw [hresolve]
  | some d =>
    obtain ⟨index, hfind, hindex⟩ := h.find d (List.mem_of_find?_eq_some hdefined)
    obtain ⟨rfl, hbody⟩ : d.name = name ∧ d.body.isSome := by
      simpa [Declaration.defines] using List.find?_some hdefined
    obtain ⟨index, rfl⟩ := Option.isSome_iff_exists.mp (hindex hbody)
    have hresolve : table.resolve d.name arity
        = if d.paramCount + 1 = arity then .ok index else .error .functionParameterMismatch := by
      simp only [FunctionTable.resolve, hfind]
    rw [hresolve]
    by_cases harity : d.paramCount + 1 = arity
    · simp [harity]
    · simp [harity]

end Records

/-! ## §3. The two passes over a fragment. -/

section Passes

variable {kept : List Declaration} {table : FunctionTable}

/-- What the first pass says of a body is said of its uses, one by one. -/
theorem undeclaredCalls_eq (h : Records kept table) (line : Nat) (f : Fragment) :
    undeclaredCalls table line f = (f.uses line).filterMap (Use.ahead? kept) := by
  induction f generalizing line with
  | nil => rfl
  | cons instr f ih =>
    cases instr with
    | op op => exact ih _
    | param name => exact ih _
    | call name arity =>
      rw [Fragment.uses_cons_call, List.filterMap_cons, Use.ahead?, ← h.knows_eq]
      show (if table.knows name then undeclaredCalls table line f
        else .atLine .undefinedFunction name line :: undeclaredCalls table line f) = _
      rw [ih]
      split <;> rfl

/-- What the second pass says of the code is said of its uses, one by one and in order. -/
theorem resolveFrom_diagnostics (h : Records kept table) (line : Nat) (f : Fragment) :
    (resolveFrom table line f).2 = (f.uses line).filterMap (Use.problem? kept) := by
  induction f generalizing line with
  | nil => rfl
  | cons instr f ih =>
    cases instr with
    | op op => exact ih _
    | param name => exact congrArg _ (ih line)
    | call name arity =>
      rw [Fragment.uses_cons_call, List.filterMap_cons, h.problem?_call, resolveFrom, Instr.resolve]
      cases table.resolve name arity with
      | ok index => exact ih line
      | error issue => exact congrArg _ (ih line)

end Passes

/-! ## §4. The first pass over the declarations. -/

/-- The first pass has kept these declarations: its table records them, and
their bodies stand behind the entry. -/
structure Placement.Keeps (entry : Fragment) (kept : List Declaration) (p : Placement) :
    Prop where
  records : Records kept p.table
  code : p.code = entry ++ (bodies kept).flatten

namespace Placement.Keeps

variable {entry : Fragment} {kept : List Declaration} {p : Placement} {declareFirst : Bool}
  {d : Declaration}

theorem nil : Keeps entry [] ⟨[], entry, []⟩ where
  records := .nil
  code := by simp [bodies]

/-- A declaration in conflict leaves nothing but its report. -/
theorem add_of_conflict (h : p.Keeps entry kept) {issue : Issue}
    (hconflict : d.conflict? kept = some issue) :
    p.add declareFirst d
      = { p with diagnostics := p.diagnostics ++ [.atLine issue d.name d.line] } := by
  have hdeclare := h.records.declare_eq d p.code.length
  rw [hconflict] at hdeclare
  simp only [Placement.add, hdeclare]

/-- Any other is kept, and its body is looked over if that is asked for.  The table goes on
recording what is kept, so the names that it knows are those that are kept. -/
theorem add (h : p.Keeps entry kept) (hconflict : d.conflict? kept = none) :
    (p.add declareFirst d).Keeps entry (kept ++ [d])
      ∧ (p.add declareFirst d).diagnostics = p.diagnostics
        ++ if declareFirst then
            (Fragment.uses 1 (d.body.getD [])).filterMap (Use.ahead? (kept ++ [d]))
          else [] := by
  have hdeclare := h.records.declare_eq d p.code.length
  rw [hconflict] at hdeclare
  have hrecords : Records (kept ++ [d])
      ((d.name, ⟨d.body.map fun _ => p.code.length, d.paramCount⟩) :: p.table) :=
    h.records.concat (h.records.declare_iff_fits.mp ⟨_, hdeclare⟩)
  simp only [Placement.add, hdeclare]
  cases hbody : d.body with
  | none =>
    rw [hbody] at hrecords
    refine ⟨⟨hrecords, ?_⟩, by simp⟩
    simpa [bodies, hbody] using h.code
  | some body =>
    rw [hbody] at hrecords
    refine ⟨⟨hrecords, ?_⟩, ?_⟩
    · simp [bodies, hbody, h.code]
    · simp only [Option.map_some, Option.getD_some, ← undeclaredCalls_eq hrecords]
      split <;> simp

/-- The whole pass keeps what the specification keeps, and reports what it reports, by induction on
the declarations. -/
theorem foldl (h : p.Keeps entry kept) (ds : List Declaration) :
    (ds.foldl (Placement.add declareFirst) p).Keeps entry (keep kept ds)
      ∧ (ds.foldl (Placement.add declareFirst) p).diagnostics
        = p.diagnostics ++ Declaration.reports declareFirst kept ds := by
  induction ds generalizing p kept with
  | nil => exact ⟨h, by simp [Declaration.reports]⟩
  | cons d ds ih =>
    rw [List.foldl_cons, keep, Declaration.reports]
    cases hconflict : d.conflict? kept with
    | some issue =>
      rw [h.add_of_conflict hconflict]
      have hreport : Keeps entry kept
          { p with diagnostics := p.diagnostics ++ [.atLine issue d.name d.line] } :=
        ⟨h.records, h.code⟩
      refine ⟨(ih hreport).1, ?_⟩
      rw [(ih hreport).2]
      simp
    | none =>
      have hadd : (p.add declareFirst d).Keeps entry (kept ++ [d]) := (h.add hconflict).1
      refine ⟨(ih hadd).1, ?_⟩
      rw [(ih hadd).2, (h.add hconflict).2, List.append_assoc]

end Placement.Keeps

/-! ## §5. Linking. -/

/-- The uses in bodies one behind the other, each told by itself. -/
theorem uses_bodies {ds : List Declaration} {line : Nat}
    (h : ∀ d ∈ ds, Fragment.StatesLines (d.body.getD [])) :
    Fragment.uses line (bodies ds).flatten
      = ds.flatMap fun d => Fragment.uses 1 (d.body.getD []) := by
  induction ds generalizing line with
  | nil => rfl
  | cons d ds ih =>
    rw [List.forall_mem_cons] at h
    rw [List.flatMap_cons, ← h.1 line]
    cases hbody : d.body with
    | none => simpa [bodies, hbody] using ih h.2
    | some body =>
      have hflatten : (bodies (d :: ds)).flatten = body ++ (bodies ds).flatten := by
        simp [bodies, hbody]
      rw [hflatten, Fragment.uses_append, ih h.2]
      rfl

/-- The first pass keeps the declarations that are not in conflict, and reports the others. -/
theorem place_keeps (u : Unlinked) (declareFirst : Bool) :
    (u.place declareFirst).Keeps u.entry u.kept
      ∧ (u.place declareFirst).diagnostics
        = Declaration.reports declareFirst [] u.declarations := by
  have hnil : Placement.Keeps u.entry [] ⟨[], u.entry, []⟩ := .nil
  exact hnil.foldl u.declarations

/-- A program without reports is linked; any other fails with all of them.  Both passes report in
turn, and what the second one reports can be told from what the first one kept. -/
theorem link_of_reports (u : Unlinked) (declareFirst : Bool) :
    (u.reports declareFirst = [] → ∃ code, link u declareFirst = .ok code)
      ∧ (u.reports declareFirst ≠ [] →
          link u declareFirst = .error ⟨.linking, u.reports declareFirst⟩) := by
  obtain ⟨hkeeps, hdiagnostics⟩ := place_keeps u declareFirst
  have hreports : (u.place declareFirst).diagnostics
      ++ (resolveFrom (u.place declareFirst).table 1 (u.place declareFirst).code).2
        = u.reports declareFirst := by
    rw [hdiagnostics, resolveFrom_diagnostics hkeeps.records, hkeeps.code]
    rfl
  simp only [link]
  rw [hreports]
  constructor
  · intro hnone
    rw [hnone]
    exact ⟨_, rfl⟩
  · intro hsome
    split
    · next hnone => exact absurd hnone hsome
    · rfl

end RobotLang
