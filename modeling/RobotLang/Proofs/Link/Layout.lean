/-
  RobotLang.Proofs.Link.Layout
  ────────────────────────────
  **A LINKED PROGRAM IS ITS FRAGMENTS, ONE AFTER ANOTHER.**

  What the first pass keeps, as long as it reports nothing:

      code    the entry and the bodies so far, in order          (`Placed.code`)
      table   every index is where the body of that name starts  (`Placed.start`)

  The second pass turns every instruction into one opcode (`Resolves`), so the
  opcodes can be cut where the fragments were.
-/
import RobotLang.Link
import Mathlib.Data.List.Forall2
import Mathlib.Data.List.Induction

namespace RobotLang

/-! ## §1. The first pass. -/

/-- What a declaration adds to the table. -/
theorem FunctionTable.eq_of_declare {table table' : FunctionTable} {d : Declaration} {index : Nat}
    (h : table.declare d index = .ok table') :
    table' = (d.name, ⟨d.body.map fun _ => index, d.paramCount⟩) :: table := by
  unfold FunctionTable.declare at h
  split at h
  · next hbody _ =>
    rw [hbody]
    exact (Except.ok.inj h).symm
  · cases h
  · next hbody _ =>
    rw [hbody]
    exact (Except.ok.inj h).symm
  · next hbody _ =>
    rw [hbody]
    split at h
    · cases h
    · split at h
      · cases h
      · exact (Except.ok.inj h).symm

theorem FunctionTable.find?_cons (table : FunctionTable) (name name' : String) (sig : Signature) :
    FunctionTable.find? ((name', sig) :: table) name
      = if name = name' then some sig else table.find? name := by
  simp only [FunctionTable.find?, List.lookup_cons]
  by_cases h : name = name'
  · simp [h]
  · have hne : (name == name') = false := beq_eq_false_iff_ne.mpr h
    simp [h, hne]

namespace Placement

variable {declareFirst : Bool} {p : Placement} {d : Declaration}

/-- A declaration about which nothing is reported is placed.  Reports are only added, so there were
none before it. -/
theorem of_add_diagnostics (h : (p.add declareFirst d).diagnostics = []) :
    p.diagnostics = []
      ∧ (p.add declareFirst d).table
        = (d.name, ⟨d.body.map fun _ => p.code.length, d.paramCount⟩) :: p.table
      ∧ (p.add declareFirst d).code = p.code ++ d.body.getD [] := by
  unfold Placement.add at h ⊢
  split
  · next issue hdeclare => simp [hdeclare] at h
  · next table hdeclare =>
    simp only [hdeclare] at h
    have htable := FunctionTable.eq_of_declare hdeclare
    split
    · next hbody =>
      simp only [hbody] at h
      exact ⟨h, htable, by simp [hbody]⟩
    · next body hbody =>
      simp only [hbody] at h
      refine ⟨?_, htable, by simp [hbody]⟩
      split at h
      · exact (List.append_eq_nil_iff.mp h).1
      · exact h

end Placement

/-- The bodies of the declarations, in order. -/
def Declaration.bodies (ds : List Declaration) : List Fragment :=
  ds.filterMap (·.body)

/-- Where the first body behind these declarations starts. -/
def Declaration.codeSize (entry : Fragment) (ds : List Declaration) : Nat :=
  entry.length + (Declaration.bodies ds).flatten.length

open Declaration

/-- The state of the first pass after `ds` without a report. -/
structure Placed (entry : Fragment) (ds : List Declaration) (p : Placement) : Prop where
  code : p.code = entry ++ (bodies ds).flatten
  /-- An index in the table is where the body of that name starts. -/
  start : ∀ {name : String} {index paramCount : Nat},
    p.table.find? name = some ⟨some index, paramCount⟩ →
    ∃ before d after, ds = before ++ d :: after ∧ d.name = name ∧ d.body.isSome
      ∧ d.paramCount = paramCount ∧ index = codeSize entry before

namespace Placed

variable {entry : Fragment} {ds : List Declaration} {p : Placement} {declareFirst : Bool}

theorem length_code (h : Placed entry ds p) : p.code.length = codeSize entry ds := by
  rw [h.code, List.length_append, codeSize]

/-- One declaration more. -/
theorem add (h : Placed entry ds p) {d : Declaration}
    (hd : (p.add declareFirst d).diagnostics = []) :
    Placed entry (ds ++ [d]) (p.add declareFirst d) := by
  obtain ⟨_, htable, hcode⟩ := Placement.of_add_diagnostics hd
  constructor
  · rw [hcode, h.code]
    cases hbody : d.body <;> simp [bodies, hbody]
  · intro name index paramCount hfind
    rw [htable, FunctionTable.find?_cons] at hfind
    split at hfind
    · next hname =>
      -- the declaration itself
      simp only [Option.some.injEq, Signature.mk.injEq, Option.map_eq_some_iff] at hfind
      obtain ⟨⟨body, hbody, hindex⟩, hcount⟩ := hfind
      exact ⟨ds, d, [], rfl, hname.symm, by simp [hbody], hcount, by rw [← hindex, h.length_code]⟩
    · obtain ⟨before, d', after, rfl, hrest⟩ := h.start hfind
      exact ⟨before, d', after ++ [d], by simp, hrest⟩

theorem nil : Placed entry [] ⟨[], entry, []⟩ where
  code := by simp [bodies]
  start h := by simp [FunctionTable.find?] at h

end Placed

/-- A whole first pass without a report. -/
theorem placed_place {u : Unlinked} {declareFirst : Bool}
    (h : (u.place declareFirst).diagnostics = []) :
    Placed u.entry u.declarations (u.place declareFirst) := by
  obtain ⟨declarations, entry⟩ := u
  unfold Unlinked.place at *
  induction declarations using List.reverseRecOn with
  | nil => exact .nil
  | append_singleton ds d ih =>
    rw [List.foldl_concat] at h ⊢
    -- a report is never taken back, so there was none before `d`
    exact (ih (Placement.of_add_diagnostics h).1).add h

/-! ## §2. The second pass. -/

/-- The opcode that an instruction becomes. -/
inductive Resolves (table : FunctionTable) : Instr → Opcode → Prop where
  | op (opcode : Opcode) : Resolves table (.op opcode) opcode
  | call {name : String} {index paramCount : Nat} :
      table.find? name = some ⟨some index, paramCount⟩ →
      Resolves table (.call name (paramCount + 1)) (.call (UInt64.ofNat index) name)

/-- An instruction that is resolved is one of the two sorts that can be: an opcode, or a call that
the table answers with a body and the right number of arguments. -/
theorem resolves_of_resolve {table : FunctionTable} {line : Nat} {instr : Instr} {op : Opcode}
    (h : instr.resolve table line = .ok op) : Resolves table instr op := by
  cases instr with
  | op opcode =>
    obtain rfl := Except.ok.inj h
    exact .op opcode
  | param name => cases h
  | call name arity =>
    simp only [Instr.resolve, FunctionTable.resolve] at h
    split at h
    · next index hindex =>
      cases h
      split at hindex
      · next index' paramCount hfind =>
        split at hindex
        · next harity =>
          cases hindex
          exact harity ▸ .call hfind
        · cases hindex
      · cases hindex
    · cases h

/-- Without a report every instruction becomes one opcode. -/
theorem forall₂_of_resolveFrom {table : FunctionTable} {line : Nat} {f : Fragment}
    (h : (resolveFrom table line f).2 = []) :
    List.Forall₂ (Resolves table) f (resolveFrom table line f).1 := by
  induction f generalizing line with
  | nil => exact .nil
  | cons instr f ih =>
    simp only [resolveFrom] at h ⊢
    split at h
    · next op hop =>
      exact .cons (resolves_of_resolve hop) (ih h)
    · cases h

/-! ## §3. Linked programs. -/

/-- A linked program is resolved from the placed code. -/
theorem placed_of_link {u : Unlinked} {declareFirst : Bool} {code : Executable}
    (h : link u declareFirst = .ok code) :
    ∃ p, Placed u.entry u.declarations p ∧ List.Forall₂ (Resolves p.table) p.code code := by
  simp only [link] at h
  split at h
  · next hnone =>
    obtain ⟨hplace, hresolve⟩ := List.append_eq_nil_iff.mp hnone
    cases h
    exact ⟨_, placed_place hplace, forall₂_of_resolveFrom hresolve⟩
  · cases h

/-- What came from fragments one after another can be cut where they were. -/
theorem exists_segments {α β : Type} {R : α → β → Prop} {parts : List (List α)} {bs : List β}
    (h : List.Forall₂ R parts.flatten bs) :
    ∃ segments, bs = segments.flatten ∧ List.Forall₂ (List.Forall₂ R) parts segments := by
  induction parts generalizing bs with
  | nil =>
    cases h
    exact ⟨[], rfl, .nil⟩
  | cons part parts ih =>
    rw [List.flatten_cons] at h
    have hpart := List.forall₂_take part.length h
    have hrest := List.forall₂_drop part.length h
    rw [List.take_left] at hpart
    rw [List.drop_left] at hrest
    obtain ⟨segments, hbs, hsegments⟩ := ih hrest
    refine ⟨bs.take part.length :: segments, ?_, .cons hpart hsegments⟩
    rw [List.flatten_cons, ← hbs, List.take_append_drop]

end RobotLang
