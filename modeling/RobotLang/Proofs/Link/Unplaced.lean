/-
  RobotLang.Proofs.Link.Unplaced
  ──────────────────────────────
  **LINKING DOES NOT LOOK AT LINES.**

  The lines in the code and those of the declarations end up in the `LINE`s of
  the program and in reports, and decide nothing.  Two programs to link that
  are the same once their lines are forgotten are both linked, to code that
  differs in the operands of `LINE` only, or they are both refused, with the
  same reports of other lines (`alike_link`).

  Forgetting lines goes through both passes: it changes no table, since the
  bodies keep their lengths, and what it changes in the code it changes in the
  opcodes of the second pass.
-/
import Mathlib.Data.List.Forall2
import RobotLang.Link

namespace RobotLang

/-! ## §1. Forgetting places. -/

/-- Forgets the operand of a `LINE`. -/
def Opcode.unplaced : Opcode → Opcode
  | .line _ => .line 0
  | opcode => opcode

/-- Forgets the operand of a `LINE`. -/
def Instr.unplaced : Instr → Instr
  | .op opcode => .op opcode.unplaced
  | instr => instr

@[simp] theorem Instr.unplaced_op (opcode : Opcode) :
    (op opcode).unplaced = .op opcode.unplaced := rfl

@[simp] theorem Instr.unplaced_call (name : String) (arity : Nat) :
    (call name arity).unplaced = call name arity := rfl

@[simp] theorem Instr.unplaced_param (name : String) : (param name).unplaced = param name := rfl

/-- Forgets the lines of a declaration and of its code. -/
def Declaration.unplaced (d : Declaration) : Declaration :=
  { d with body := d.body.map (·.map Instr.unplaced), line := 0 }

/-- Forgets all lines. -/
def Unlinked.unplaced (u : Unlinked) : Unlinked :=
  ⟨u.declarations.map Declaration.unplaced, u.entry.map Instr.unplaced⟩

/-- Forgets which line and column are reported, not whether they are. -/
def Diagnostic.unplaced (d : Diagnostic) : Diagnostic :=
  { d with location := d.location.map fun l =>
      { l with line := l.line.map fun _ => 0, column := l.column.map fun _ => 0 } }

/-- A report that has forgotten its line says the same on every line. -/
theorem Diagnostic.unplaced_atLine (issue : Issue) (text : String) (line line' : Nat) :
    (atLine issue text line).unplaced = (atLine issue text line').unplaced := rfl

/-- The opcodes are the same, or both are `LINE`s. -/
def Opcode.SameButLine (op op' : Opcode) : Prop :=
  op = op' ∨ ∃ number number', op = .line number ∧ op' = .line number'

/-- Only the opcode that states a line has anything to forget. -/
theorem Opcode.isLine_or_unplaced (op : Opcode) :
    (∃ number, op = .line number) ∨ op.unplaced = op := by
  cases op with
  | line number => exact .inl ⟨number, rfl⟩
  | _ => exact .inr rfl

/-- Opcodes that are the same without their lines are the same, or both state one. -/
theorem Opcode.sameButLine_of_unplaced {op op' : Opcode} (h : op.unplaced = op'.unplaced) :
    op.SameButLine op' := by
  rcases op.isLine_or_unplaced with ⟨number, rfl⟩ | hop <;>
    rcases op'.isLine_or_unplaced with ⟨number', rfl⟩ | hop'
  · exact .inr ⟨number, number', rfl, rfl⟩
  · exact .inr ⟨number, 0, rfl, hop'.symm.trans h.symm⟩
  · exact .inr ⟨0, number', hop.symm.trans h, rfl⟩
  · exact .inl (hop.symm.trans (h.trans hop'))

/-- Programs that are the same without their lines are so opcode by opcode. -/
theorem Opcode.forall₂_sameButLine {code code' : Executable}
    (h : code.map Opcode.unplaced = code'.map Opcode.unplaced) :
    List.Forall₂ Opcode.SameButLine code code' := by
  rw [← List.forall₂_eq_eq_eq, List.forall₂_map_left_iff, List.forall₂_map_right_iff] at h
  exact h.imp fun _ _ => Opcode.sameButLine_of_unplaced

/-- Both results are there, and are the `same`; or both are failures with one message, and report
the same of other places. -/
inductive Alike {α : Type} (same : α → α → Prop) :
    Except Failure α → Except Failure α → Prop where
  | ok {a a' : α} (h : same a a') : Alike same (.ok a) (.ok a')
  | error {f f' : Failure} (hmessage : f.message = f'.message)
      (hdiagnostics : f.diagnostics.map Diagnostic.unplaced
        = f'.diagnostics.map Diagnostic.unplaced) :
      Alike same (.error f) (.error f')

namespace Alike

variable {α β : Type} {same : α → α → Prop} {same' : β → β → Prop} {r r' : Except Failure α}

/-- Where both stop they stop alike, and where both go on they go on alike. -/
theorem bind {next next' : α → Except Failure β} (h : Alike same r r')
    (hnext : ∀ a a', same a a' → Alike same' (next a) (next' a')) :
    Alike same' (r >>= next) (r' >>= next') := by
  cases h with
  | ok h => exact hnext _ _ h
  | error hmessage hdiagnostics => exact .error hmessage hdiagnostics

/-- What is made of alike results is alike. -/
theorem map {f f' : α → β} (h : Alike same r r') (hf : ∀ a a', same a a' → same' (f a) (f' a')) :
    Alike same' (r.map f) (r'.map f') := by
  cases h with
  | ok h => exact .ok (hf _ _ h)
  | error hmessage hdiagnostics => exact .error hmessage hdiagnostics

end Alike

/-! ## §2. The first pass. -/

/-- The table of functions holds no lines. -/
theorem FunctionTable.declare_unplaced (table : FunctionTable) (d : Declaration) (index : Nat) :
    table.declare d.unplaced index = table.declare d index := by
  obtain ⟨name, body, paramCount, line⟩ := d
  unfold FunctionTable.declare Declaration.unplaced
  cases body <;> cases table.find? name <;> rfl

/-- The calls to what is not declared are the same, on whatever lines they are found. -/
theorem undeclaredCalls_unplaced (table : FunctionTable) (f : Fragment) (line line' : Nat) :
    (undeclaredCalls table line' (f.map Instr.unplaced)).map Diagnostic.unplaced
      = (undeclaredCalls table line f).map Diagnostic.unplaced := by
  induction f generalizing line line' with
  | nil => rfl
  | cons instr f ih =>
    cases instr with
    | op | param => exact ih _ _
    | call name arity =>
      simp only [List.map_cons, Instr.unplaced, undeclaredCalls]
      split
      · exact ih _ _
      · rw [List.map_cons, List.map_cons, ih, Diagnostic.unplaced_atLine]

/-- The second placement is the first without its lines. -/
structure Placement.Unplaces (p q : Placement) : Prop where
  table : q.table = p.table
  code : q.code = p.code.map Instr.unplaced
  diagnostics : q.diagnostics.map Diagnostic.unplaced = p.diagnostics.map Diagnostic.unplaced

/-- One declaration of the first pass: the table goes on the same, and what is reported is the same
up to lines. -/
theorem Placement.Unplaces.add {p q : Placement} (h : p.Unplaces q) (declareFirst : Bool)
    (d : Declaration) : (p.add declareFirst d).Unplaces (q.add declareFirst d.unplaced) := by
  obtain ⟨htable, hcode, hdiagnostics⟩ := h
  unfold Placement.add
  rw [htable, hcode, List.length_map, FunctionTable.declare_unplaced]
  cases p.table.declare d p.code.length with
  | error issue =>
    refine ⟨rfl, rfl, ?_⟩
    rw [List.map_append, List.map_append, hdiagnostics]
    rfl
  | ok table =>
    obtain ⟨name, body, paramCount, line⟩ := d
    cases body with
    | none => exact ⟨rfl, rfl, hdiagnostics⟩
    | some body =>
      refine ⟨rfl, List.map_append.symm, ?_⟩
      cases declareFirst with
      | false => exact hdiagnostics
      | true =>
        have hcalls := undeclaredCalls_unplaced table body 1 1
        show List.map _ (_ ++ _) = List.map _ (_ ++ _)
        rw [List.map_append, List.map_append, hdiagnostics, hcalls]

/-- The whole first pass, by induction on the declarations. -/
theorem Placement.Unplaces.foldl {p q : Placement} (h : p.Unplaces q) (declareFirst : Bool)
    (ds : List Declaration) : (ds.foldl (Placement.add declareFirst) p).Unplaces
      ((ds.map Declaration.unplaced).foldl (Placement.add declareFirst) q) := by
  induction ds generalizing p q with
  | nil => exact h
  | cons d ds ih => exact ih (h.add declareFirst d)

/-- A program without its lines is placed like the program, at the same addresses. -/
theorem Unlinked.place_unplaces (u : Unlinked) (declareFirst : Bool) :
    (u.place declareFirst).Unplaces (u.unplaced.place declareFirst) := by
  have hstart : Placement.Unplaces ⟨[], u.entry, []⟩ ⟨[], u.entry.map Instr.unplaced, []⟩ :=
    ⟨rfl, rfl, rfl⟩
  exact hstart.foldl declareFirst u.declarations

/-! ## §3. The second pass. -/

/-- The second pass resolves names to the same opcodes and reports the same names, whatever line it
starts on. -/
theorem resolveFrom_unplaced (table : FunctionTable) (f : Fragment) (line line' : Nat) :
    (resolveFrom table line' (f.map Instr.unplaced)).1
        = (resolveFrom table line f).1.map Opcode.unplaced
      ∧ (resolveFrom table line' (f.map Instr.unplaced)).2.map Diagnostic.unplaced
        = (resolveFrom table line f).2.map Diagnostic.unplaced := by
  induction f generalizing line line' with
  | nil => exact ⟨rfl, rfl⟩
  | cons instr f ih =>
    obtain ⟨hops, hdiagnostics⟩ := ih (lineAfter line instr) (lineAfter line' instr.unplaced)
    cases instr with
    | op => exact ⟨congrArg _ hops, hdiagnostics⟩
    | param => exact ⟨hops, congrArg (List.cons _) hdiagnostics⟩
    | call name arity =>
      simp only [List.map_cons, Instr.unplaced, resolveFrom, Instr.resolve]
      cases table.resolve name arity with
      | ok => exact ⟨congrArg _ hops, hdiagnostics⟩
      | error => exact ⟨hops, congrArg (List.cons _) hdiagnostics⟩

/-! ## §4. Both passes. -/

/-- Programs that are the same without their lines are linked alike.  Both are compared with the
program without lines: erasing lines commutes with each of the two passes. -/
theorem alike_link {u u' : Unlinked} (h : u.unplaced = u'.unplaced) (declareFirst : Bool) :
    Alike (List.Forall₂ Opcode.SameButLine) (link u declareFirst) (link u' declareFirst) := by
  -- both placements are compared with that of the program without lines
  have hplace := u.place_unplaces declareFirst
  have hplace' := u'.place_unplaces declareFirst
  rw [← h] at hplace'
  have htable := hplace.table.symm.trans hplace'.table
  have hcode := hplace.code.symm.trans hplace'.code
  have hplaced := hplace.diagnostics.symm.trans hplace'.diagnostics
  simp only [link]
  generalize u.place declareFirst = p at htable hcode hplaced ⊢
  generalize u'.place declareFirst = p' at htable hcode hplaced ⊢
  rw [htable]
  obtain ⟨hops, hdiagnostics⟩ := resolveFrom_unplaced p'.table p.code 1 1
  obtain ⟨hops', hdiagnostics'⟩ := resolveFrom_unplaced p'.table p'.code 1 1
  rw [hcode] at hops hdiagnostics
  have hreports : (p.diagnostics ++ (resolveFrom p'.table 1 p.code).2).map Diagnostic.unplaced
      = (p'.diagnostics ++ (resolveFrom p'.table 1 p'.code).2).map Diagnostic.unplaced := by
    rw [List.map_append, List.map_append, hplaced, ← hdiagnostics, hdiagnostics']
  split
  · next hnone =>
    rw [hnone, List.map_nil, eq_comm, List.map_eq_nil_iff] at hreports
    rw [hreports]
    exact .ok (Opcode.forall₂_sameButLine (hops.symm.trans hops'))
  · next hsome =>
    split
    · next hnone =>
      rw [hnone, List.map_nil, List.map_eq_nil_iff] at hreports
      exact absurd hreports hsome
    · exact .error rfl hreports

end RobotLang
