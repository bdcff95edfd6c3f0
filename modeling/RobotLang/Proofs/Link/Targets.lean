/-
  RobotLang.Proofs.Link.Targets
  ─────────────────────────────
  **WHERE THE CODE STANDS AND WHERE CALLS GO.**

  Before linking, a program's code is its entry and then the bodies in the
  order of their declarations (`Unlinked.code`).  Linking moves nothing: every
  instruction becomes one opcode at the same index.  A call by name goes to
  where the body of that name starts (`Unlinked.target`), which can be told
  from the declarations alone, whether the call stands before that body or
  behind it.
-/
import RobotLang.Proofs.Link.Acceptance
import Mathlib.Algebra.Ring.Nat

namespace RobotLang

open Declaration

/-! ## §1. The layout. -/

/-- All code of the program, in the order in which it is placed. -/
def Unlinked.code (u : Unlinked) : Fragment :=
  u.entry ++ (bodies u.declarations).flatten

/-- The declaration gives the name its body. -/
def Declaration.defines (name : String) (d : Declaration) : Bool :=
  d.name == name && d.body.isSome

/-- The index of the first instruction behind the entry and the bodies in front
of the one that the name has. -/
def Unlinked.target (u : Unlinked) (name : String) : Nat :=
  codeSize u.entry (u.declarations.takeWhile fun d => !d.defines name)

theorem Declaration.codeSize_eq_sum (entry : Fragment) (ds : List Declaration) :
    codeSize entry ds = entry.length + ((bodies ds).map List.length).sum := by
  rw [codeSize, List.length_flatten]

/-- The declarations in front add no more code than all of them. -/
theorem Declaration.codeSize_takeWhile_le (entry : Fragment) (ds : List Declaration)
    (p : Declaration → Bool) : codeSize entry (ds.takeWhile p) ≤ codeSize entry ds := by
  conv_rhs => rw [← List.takeWhile_append_dropWhile (p := p) (l := ds)]
  unfold codeSize bodies
  rw [List.filterMap_append, List.flatten_append, List.length_append]
  omega

/-! ## §2. The one definition of a name. -/

/-- In a program that can be linked no other declaration gives the name a body. -/
theorem body_eq_none_of_fits {before after : List Declaration} {d e : Declaration}
    (h : (before ++ d :: after).Pairwise Fits) (hd : d.body.isSome) (he : e ∈ before ++ after)
    (hname : e.name = d.name) : e.body = none := by
  rw [List.pairwise_append, List.pairwise_cons] at h
  obtain ⟨_, ⟨hafter, _⟩, hbefore⟩ := h
  rcases List.mem_append.mp he with he | he
  · exact (hbefore e he d (by simp) hname).1
  · have hnone := (hafter e he hname.symm).1
    simp [hnone] at hd

/-- What stands in front of the definition of a name is what the target counts. -/
theorem takeWhile_defines {before after : List Declaration} {d : Declaration} {name : String}
    (hname : d.name = name) (hd : d.body.isSome)
    (hbefore : ∀ e ∈ before, e.name = name → e.body = none) :
    (before ++ d :: after).takeWhile (fun d => !d.defines name) = before := by
  rw [List.takeWhile_append_of_pos]
  · have hdefines : d.defines name = true := by simp [defines, hname, hd]
    simp [hdefines]
  · intro e he
    by_cases h : e.name = name
    · simp [defines, hbefore e he h]
    · simp [defines, h]

/-- A call that was resolved goes to the target of its name, where the one body
of that name starts. -/
theorem Placed.target_of_find {u : Unlinked} {p : Placement} {name : String}
    {index paramCount : Nat} (h : Placed u.entry u.declarations p)
    (hfits : u.declarations.Pairwise Fits)
    (hfind : p.table.find? name = some ⟨some index, paramCount⟩) :
    index = u.target name
      ∧ ∃ before d after, u.declarations = before ++ d :: after ∧ d.name = name ∧ d.body.isSome
          ∧ (∀ e ∈ before ++ after, e.name = name → e.body = none)
          ∧ u.target name = codeSize u.entry before := by
  obtain ⟨before, d, after, hds, hname, hbody, _, hindex⟩ := h.start hfind
  have honly : ∀ e ∈ before ++ after, e.name = name → e.body = none := by
    intro e he hename
    rw [hds] at hfits
    exact body_eq_none_of_fits hfits hbody he (hename.trans hname.symm)
  have htarget : u.target name = codeSize u.entry before := by
    unfold Unlinked.target
    rw [hds, takeWhile_defines hname hbody fun e he => honly e (List.mem_append_left _ he)]
  exact ⟨hindex.trans htarget.symm, before, d, after, hds, hname, hbody, honly, htarget⟩

/-! ## §3. Linked programs. -/

/-- What stands at an index of the code and of the program. -/
theorem exists_resolves_of_getElem? {table : FunctionTable} {f : Fragment} {ops : List Opcode}
    (h : List.Forall₂ (Resolves table) f ops) {i : Nat} {instr : Instr}
    (hi : f[i]? = some instr) : ∃ op, ops[i]? = some op ∧ Resolves table instr op := by
  obtain ⟨hlt, rfl⟩ := List.getElem?_eq_some_iff.mp hi
  have hlt' : i < ops.length := h.length_eq ▸ hlt
  exact ⟨ops[i], List.getElem?_eq_getElem hlt', h.get hlt hlt'⟩

/-- A linked program is its entry and its bodies in the order of declaration,
instruction by instruction: an opcode stays what it is, and a call goes to
where the one body of its name starts. -/
theorem link_keeps_layout {u : Unlinked} {declareFirst : Bool} {program : Executable}
    (h : link u declareFirst = .ok program) :
    program.length = u.entry.length + ((bodies u.declarations).map List.length).sum
      ∧ (∀ (i : Nat) op, u.code[i]? = some (.op op) → program[i]? = some op)
      ∧ (∀ (i : Nat) name, u.code[i]? ≠ some (.param name))
      ∧ ∀ (i : Nat) name arity, u.code[i]? = some (.call name arity) →
          program[i]? = some (.call (UInt64.ofNat (u.target name)) name)
            ∧ u.target name ≤ program.length
            ∧ ∃ before d after, u.declarations = before ++ d :: after ∧ d.name = name
                ∧ d.body.isSome ∧ (∀ e ∈ before ++ after, e.name = name → e.body = none)
                ∧ u.target name
                    = u.entry.length + ((bodies before).map List.length).sum := by
  obtain ⟨hplace, _⟩ := link_isOk_iff.mp ⟨program, h⟩
  -- without complaints every declaration fits, so that a name has one body
  have hfits := ((place_diagnostics_eq_nil_iff u declareFirst).1.mp hplace).1
  obtain ⟨p, hplaced, hresolved⟩ := placed_of_link h
  have hlength : program.length = codeSize u.entry u.declarations := by
    rw [← hresolved.length_eq, hplaced.length_code]
  rw [show p.code = u.code from hplaced.code] at hresolved
  refine ⟨hlength.trans (codeSize_eq_sum _ _), ?_, ?_, ?_⟩
  · intro i op hi
    obtain ⟨op', hop', hresolves⟩ := exists_resolves_of_getElem? hresolved hi
    cases hresolves
    exact hop'
  · intro i name hi
    obtain ⟨op, _, hresolves⟩ := exists_resolves_of_getElem? hresolved hi
    exact not_resolves_param hresolves
  · intro i name arity hi
    obtain ⟨op, hop, hresolves⟩ := exists_resolves_of_getElem? hresolved hi
    cases hresolves with
    | call hfind =>
      obtain ⟨rfl, before, d, after, hds, hname, hbody, honly, htarget⟩ :=
        hplaced.target_of_find hfits hfind
      refine ⟨hop, ?_, before, d, after, hds, hname, hbody, honly, ?_⟩
      · rw [hlength]
        exact codeSize_takeWhile_le _ _ _
      · rw [htarget, codeSize_eq_sum]

/-- Two functions that call each other, the first announced and called before it
is defined. -/
def mutualCalls : Unlinked where
  declarations :=
    [⟨"even", none, 1, 1⟩,
      ⟨"odd", some [.op .dup, .call "even" 2, .op .ret], 1, 2⟩,
      ⟨"even", some [.call "odd" 2, .op .ret], 1, 3⟩]
  entry := [.op (.load 7), .call "even" 2, .call "odd" 2, .op .halt]

/-- Calls ahead and back go to the starts of the two bodies. -/
theorem link_mutualCalls :
    link mutualCalls true = .ok
        [.load 7, .call 7 "even", .call 4 "odd", .halt, .dup, .call 7 "even", .ret,
          .call 4 "odd", .ret]
      ∧ mutualCalls.target "even" = 7 ∧ mutualCalls.target "odd" = 4
      ∧ ∃ before d after, mutualCalls.declarations = before ++ d :: after ∧ d.name = "even"
          ∧ d.body.isSome ∧ (∀ e ∈ before ++ after, e.name = "even" → e.body = none)
          ∧ mutualCalls.target "even"
              = mutualCalls.entry.length + ((bodies before).map List.length).sum := by
  have hlink : link mutualCalls true = .ok
      [.load 7, .call 7 "even", .call 4 "odd", .halt, .dup, .call 7 "even", .ret,
        .call 4 "odd", .ret] := by decide +kernel
  obtain ⟨_, _, _, hcalls⟩ := link_keeps_layout hlink
  obtain ⟨_, _, heven⟩ := hcalls 5 "even" 2 rfl
  exact ⟨hlink, by decide, by decide, heven⟩

end RobotLang
