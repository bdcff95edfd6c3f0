/-
  RobotLang.Proofs.ControlFlow
  ────────────────────────────
  **A COMPILED PROGRAM NEVER LEAVES THE FUNCTION IT IS IN.**

  A compiled program is cut into segments, the entry first and then one for
  each function:

      entry       …  LINE  HALT
      function    LINE  …  RET

  Control stays inside a segment (`Contained`), and a call goes to the start
  of a function (`Segmented`).  So wherever a run is, it and the calls under
  way are each in a segment, and only a call or a return changes that
  (`Confined`).
-/
import RobotLang.Proofs.Braced.Reading
import RobotLang.Proofs.Fragment.Flow
import RobotLang.Proofs.Link.Layout
import RobotLang.Proofs.Worded.Reading
import Mathlib.Logic.Relation

namespace RobotLang

/-! ## §1. Segments. -/

/-- Where the segment of that number starts. -/
def startOf {α : Type} (segments : List (List α)) (k : Nat) : Nat :=
  (segments.take k).flatten.length

section Segments

variable {α : Type} {segments : List (List α)} {segment : List α} {k : Nat}

@[simp] theorem startOf_zero : startOf segments 0 = 0 := rfl

/-- A segment ends where the next one starts. -/
theorem startOf_succ (h : segments[k]? = some segment) :
    startOf segments (k + 1) = startOf segments k + segment.length := by
  rw [startOf, List.take_add_one, h]
  simp [startOf]

/-- No segment starts behind the end. -/
theorem startOf_le_length (segments : List (List α)) (k : Nat) :
    startOf segments k ≤ segments.flatten.length := by
  have hsplit : segments.flatten = (segments.take k).flatten ++ (segments.drop k).flatten := by
    rw [← List.flatten_append, List.take_append_drop]
  rw [hsplit, List.length_append, startOf]
  omega

/-- What stands in a segment. -/
theorem getElem?_flatten (h : segments[k]? = some segment) {i : Nat} (hi : i < segment.length) :
    segments.flatten[startOf segments k + i]? = segment[i]? := by
  obtain ⟨hk, rfl⟩ := List.getElem?_eq_some_iff.mp h
  -- the segments before this one, this one, and those behind it
  have hsplit : segments.flatten
      = (segments.take k).flatten ++ (segments[k] ++ (segments.drop (k + 1)).flatten) := by
    rw [← List.flatten_cons, ← List.flatten_append, ← List.drop_eq_getElem_cons,
      List.take_append_drop]
  rw [hsplit, startOf, List.getElem?_append_right (by omega), Nat.add_sub_cancel_left,
    List.getElem?_append_left hi]

/-- Segments of the same lengths start at the same places. -/
theorem startOf_eq_of_forall₂ {β : Type} {R : α → β → Prop} {segments' : List (List β)}
    (h : List.Forall₂ (List.Forall₂ R) segments segments') (k : Nat) :
    startOf segments k = startOf segments' k := by
  have hflatten {as : List (List α)} {bs : List (List β)}
      (h : List.Forall₂ (List.Forall₂ R) as bs) : as.flatten.length = bs.flatten.length := by
    induction h with
    | nil => rfl
    | cons hab _ ih => rw [List.flatten_cons, List.flatten_cons, List.length_append,
        List.length_append, hab.length_eq, ih]
  exact hflatten (List.forall₂_take k h)

end Segments

/-! ## §2. Segmented programs. -/

/-- From everywhere in [a, b) control goes into [a, b). -/
def Contained (code : Executable) (a b : Nat) : Prop :=
  ∀ (i : Nat) (op : Opcode), a ≤ i → i < b → code[i]? = some op →
    ∀ j ∈ op.successors i, (a : Int) ≤ j ∧ j < b

/-- The entry ends on a line of its own with a halt. -/
def IsEntry (segment : Executable) : Prop :=
  ∃ body line, segment = body ++ [.line line, .halt]

/-- A function starts with the line of its name, from 0, and returns at the
end. -/
def IsFunction (name : Token) (segment : Executable) : Prop :=
  ∃ line body, segment = .line line :: body ++ [.ret] ∧ line.toNat + 1 = name.line

/-- The segments are the entry and a function for each of the names. -/
def Shaped (names : List Token) (segments : List Executable) : Prop :=
  ∃ entry functions, segments = entry :: functions ∧ IsEntry entry
    ∧ List.Forall₂ IsFunction names functions

/-- The code is the entry and a function for each of the names, and control
stays in each of them. -/
structure Segmented (code : Executable) (names : List Token) (segments : List Executable) :
    Prop where
  flatten : segments.flatten = code
  shaped : Shaped names segments
  contained : ∀ k < segments.length,
    Contained code (startOf segments k) (startOf segments (k + 1))
  /-- A call goes to the start of a function, behind a halt or a return. -/
  call : ∀ (i : Nat) (target : UInt64) (name : String), code[i]? = some (.call target name) →
    (∃ k, 0 < k ∧ k < segments.length ∧ target.toNat = startOf segments k)
      ∧ ∃ before, target.toNat = before + 1
        ∧ (code[before]? = some .halt ∨ code[before]? = some .ret)

/-! ## §3. Runs. -/

/-- Where a run is, and where the calls under way go back to. -/
structure Point where
  pc : Int
  returns : List Int

/-- One step of a run, whatever the stack and the world say. -/
inductive Moves (code : Executable) : Point → Point → Prop where
  | next {i : Nat} {op : Opcode} {j : Int} {returns : List Int} :
      code[i]? = some op → (∀ target name, op ≠ .call target name) → j ∈ op.successors i →
      Moves code ⟨i, returns⟩ ⟨j, returns⟩
  | call {i : Nat} {target : UInt64} {name : String} {returns : List Int} :
      code[i]? = some (.call target name) →
      Moves code ⟨i, returns⟩ ⟨target.toNat, (i + 1) :: returns⟩
  | ret {i : Nat} {back : Int} {returns : List Int} :
      code[i]? = some .ret → Moves code ⟨i, back :: returns⟩ ⟨back, returns⟩

/-- The place is in the segment of that number. -/
def InSegment (segments : List Executable) (place : Int) (k : Nat) : Prop :=
  k < segments.length ∧ (startOf segments k : Int) ≤ place ∧ place < startOf segments (k + 1)

/-- The run and the calls under way are in the segments of those numbers. -/
def InSegments (segments : List Executable) (point : Point) (homes : List Nat) : Prop :=
  List.Forall₂ (InSegment segments) (point.pc :: point.returns) homes

/-- A run is always inside its segments: a step stays where it is, enters a
function at its start or goes back to its caller. -/
def Confined (code : Executable) (segments : List Executable) : Prop :=
  ∀ point, Relation.ReflTransGen (Moves code) ⟨0, []⟩ point →
    ∃ homes, InSegments segments point homes ∧ ∀ point', Moves code point point' →
      InSegments segments point' homes
        ∨ (∃ k, 0 < k ∧ point'.pc = startOf segments k ∧ InSegments segments point' (k :: homes))
        ∨ InSegments segments point' homes.tail

section Runs

variable {code : Executable} {names : List Token} {segments : List Executable}

/-- Every segment ends with a halt or a return. -/
theorem Shaped.exists_segment (h : Shaped names segments) {k : Nat}
    (hk : k < segments.length) : ∃ body op, segments[k]? = some (body ++ [op])
      ∧ (op = .halt ∨ op = .ret) := by
  obtain ⟨entry, functions, rfl, ⟨body, line, rfl⟩, hfunctions⟩ := h
  cases k with
  | zero => exact ⟨body ++ [.line line], .halt, by simp, .inl rfl⟩
  | succ k =>
    have hk' : k < functions.length := by simpa using hk
    have hlen := hfunctions.length_eq
    obtain ⟨line, body, hsegment, _⟩ := hfunctions.get (i := k) (by omega) hk'
    have hget : functions[k]? = some (.line line :: body ++ [.ret]) := by
      rw [List.getElem?_eq_getElem hk', ← hsegment]
      rfl
    exact ⟨.line line :: body, .ret, by simpa using hget, .inr rfl⟩

/-- No segment is empty, since each ends with a halt or a return. -/
theorem Shaped.startOf_lt (h : Shaped names segments) {k : Nat} (hk : k < segments.length) :
    startOf segments k < startOf segments (k + 1) := by
  obtain ⟨body, op, hsegment, _⟩ := h.exists_segment hk
  rw [startOf_succ hsegment]
  simp

/-- What stands right in front of a segment that is not the first. -/
theorem Shaped.exists_before (h : Shaped names segments) {k : Nat} (hk : k < segments.length) :
    ∃ before, startOf segments (k + 1) = before + 1
      ∧ (segments.flatten[before]? = some .halt ∨ segments.flatten[before]? = some .ret) := by
  obtain ⟨body, op, hsegment, hop⟩ := h.exists_segment hk
  refine ⟨startOf segments k + body.length, ?_, ?_⟩
  · rw [startOf_succ hsegment]
    simp [Nat.add_assoc]
  · rw [getElem?_flatten hsegment (by simp)]
    simpa using hop

/-- One step stays in its segment, enters the one that it calls at its start, or comes back into the
one that called. -/
theorem Segmented.step (h : Segmented code names segments) {point point' : Point}
    {homes : List Nat} (hin : InSegments segments point homes) (hmove : Moves code point point') :
    InSegments segments point' homes
      ∨ (∃ k, 0 < k ∧ point'.pc = startOf segments k ∧ InSegments segments point' (k :: homes))
      ∨ InSegments segments point' homes.tail := by
  cases hin with
  | @cons _ k _ ks hpc hreturns =>
    obtain ⟨hk, hlo, hhi⟩ := hpc
    cases hmove with
    | next hop _ hj =>
      -- the segment contains the step
      have hcontained := h.contained k hk _ _ (by simpa using hlo) (by simpa using hhi) hop _ hj
      exact .inl (.cons ⟨hk, hcontained⟩ hreturns)
    | @call i target name returns hop =>
      obtain ⟨⟨k', hpos, hk', htarget⟩, _⟩ := h.call _ _ _ hop
      -- a call counts as a step to the next instruction, where it comes back
      have hback := h.contained k hk _ _ (by simpa using hlo) (by simpa using hhi) hop (i + 1)
        (by simp [Opcode.successors])
      have hlt := h.shaped.startOf_lt hk'
      refine .inr (.inl ⟨k', hpos, by simp [htarget], ?_⟩)
      exact .cons ⟨hk', by simp [htarget], by simp only [htarget]; omega⟩
        (.cons ⟨hk, hback⟩ hreturns)
    -- where a return goes was inside a segment when the call was made
    | ret hop => exact .inr (.inr hreturns)

/-- Every run stays in the segments, by induction on its steps.  What is kept is the list of the
segments that were entered and not left. -/
theorem Segmented.confined (h : Segmented code names segments) : Confined code segments := by
  have hreach {point : Point} (hrun : Relation.ReflTransGen (Moves code) ⟨0, []⟩ point) :
      ∃ homes, InSegments segments point homes := by
    induction hrun with
    | refl =>
      -- a run starts in the entry, which is not empty
      have hpos : 0 < segments.length := by
        obtain ⟨entry, functions, rfl, _⟩ := h.shaped
        simp
      have hlt := h.shaped.startOf_lt hpos
      exact ⟨[0], .cons ⟨hpos, by simp, by simpa using hlt⟩ .nil⟩
    | tail _ hmove ih =>
      obtain ⟨homes, hin⟩ := ih
      rcases h.step hin hmove with hstay | ⟨k, _, _, hcall⟩ | hret
      · exact ⟨homes, hstay⟩
      · exact ⟨k :: homes, hcall⟩
      · exact ⟨homes.tail, hret⟩
  intro point hrun
  obtain ⟨homes, hin⟩ := hreach hrun
  exact ⟨homes, hin, fun _ => h.step hin⟩

end Runs

/-! ## §4. Linking. -/

open Fragment Declaration

/-- The fragment of the function of that name. -/
def IsFunctionFragment (name : Token) (f : Fragment) : Prop :=
  ∃ line body, f = .op (.line line) :: body ++ [.op .ret] ∧ line.toNat + 1 = name.line

/-- What there is to link is an entry and functions of those names, which
control never leaves. -/
structure Lowered (u : Unlinked) (names : List Token) : Prop where
  entry : ∃ body line, u.entry = body ++ [.op (.line line), .op .halt]
  functions : List.Forall₂ IsFunctionFragment names (bodies u.declarations)
  isSealed : ∀ f ∈ u.entry :: bodies u.declarations, Sealed f

section Linking

variable {table : FunctionTable} {f g : Fragment} {segment : Executable}

/-- Resolving a name leaves control as it is: a call comes back, a parameter is a value. -/
theorem Resolves.successors_eq {instr : Instr} {op : Opcode} (h : Resolves table instr op)
    (i : Int) : op.successors i = instr.successors i := by
  cases h <;> rfl

/-- Opcodes stay as they are. -/
theorem eq_of_forall₂_resolves_ofOps {ops : List Opcode}
    (h : List.Forall₂ (Resolves table) (ofOps ops) segment) : segment = ops := by
  induction ops generalizing segment with
  | nil =>
    cases h
    rfl
  | cons op ops ih =>
    cases h with
    | cons hop hrest =>
      cases hop
      rw [ih hrest]

/-- Opcodes at the end of a fragment stand at the end of its segment. -/
theorem exists_append_of_forall₂_resolves (ops : List Opcode)
    (h : List.Forall₂ (Resolves table) (f ++ ofOps ops) segment) :
    ∃ body, segment = body ++ ops ∧ List.Forall₂ (Resolves table) f body := by
  have hsplit : f ++ ofOps ops = [f, ofOps ops].flatten := by simp
  rw [hsplit] at h
  obtain ⟨_, rfl, hsegments⟩ := exists_segments h
  rcases hsegments with _ | ⟨hf, _ | ⟨hops, _ | _⟩⟩
  exact ⟨_, by simp [eq_of_forall₂_resolves_ofOps hops], hf⟩

/-- The entry still ends with its halt when its names are resolved. -/
theorem isEntry_of_resolves (hf : ∃ body line, f = body ++ [.op (.line line), .op .halt])
    (h : List.Forall₂ (Resolves table) f segment) : IsEntry segment := by
  obtain ⟨body, line, rfl⟩ := hf
  obtain ⟨body', rfl, _⟩ := exists_append_of_forall₂_resolves [.line line, .halt] h
  exact ⟨body', line, rfl⟩

/-- A function still starts with its line and ends with its return. -/
theorem isFunction_of_resolves {name : Token} (hf : IsFunctionFragment name f)
    (h : List.Forall₂ (Resolves table) f segment) : IsFunction name segment := by
  obtain ⟨line, body, rfl, hline⟩ := hf
  obtain ⟨front, rfl, hfront⟩ := exists_append_of_forall₂_resolves [.ret] h
  rcases hfront with _ | ⟨hop, hbody⟩
  cases hop
  exact ⟨line, _, rfl, hline⟩

/-- Resolving does not move control, so a segment contains it as its fragment
does. -/
theorem contained_of_resolves {segments : List Executable} {k : Nat}
    (hsegment : segments[k]? = some segment) (hlen : segments.flatten.length < 2 ^ 31)
    (hf : Sealed f) (h : List.Forall₂ (Resolves table) f segment) :
    Contained segments.flatten (startOf segments k) (startOf segments (k + 1)) := by
  intro i op hlo hhi hop j hj
  have hstart := startOf_succ hsegment
  have hle := startOf_le_length segments (k + 1)
  have hlength := h.length_eq
  -- from here on places are counted from the start of the segment
  obtain ⟨i, rfl⟩ := Nat.exists_eq_add_of_le hlo
  rw [getElem?_flatten hsegment (by omega)] at hop
  obtain ⟨hi, hget⟩ := List.getElem?_eq_some_iff.mp hop
  have hresolves := h.get (i := i) (by omega) hi
  rw [List.get_eq_getElem, List.get_eq_getElem, hget] at hresolves
  have hlands := hf.lands (by omega) i _ (List.getElem?_eq_getElem (by omega))
  rw [Int.natCast_add, Int.add_comm, Opcode.mem_successors_add, hresolves.successors_eq] at hj
  have := hlands _ hj
  omega

/-- The segment of a function starts at the size of all code in front of it, the entry among it. -/
theorem startOf_succ_bodies (entry : Fragment) (before after : List Declaration) :
    startOf (entry :: bodies (before ++ after)) ((bodies before).length + 1)
      = codeSize entry before := by
  simp [startOf, codeSize, bodies]

/-- Functions are resolved one by one, so each segment is still that of its name. -/
theorem forall₂_isFunction {names : List Token} {fs : List Fragment} {segments : List Executable}
    (hfs : List.Forall₂ IsFunctionFragment names fs)
    (h : List.Forall₂ (List.Forall₂ (Resolves table)) fs segments) :
    List.Forall₂ IsFunction names segments := by
  induction hfs generalizing segments with
  | nil =>
    cases h
    exact .nil
  | cons hf _ ih =>
    cases h with
    | cons hsegment hrest => exact .cons (isFunction_of_resolves hf hsegment) (ih hrest)

/-- The address that a function was given is the start of its segment. -/
theorem toNat_codeSize_eq_startOf {entry : Fragment} {before after : List Declaration}
    {d : Declaration} {segments : List Executable}
    (hsegments : List.Forall₂ (List.Forall₂ (Resolves table))
      (entry :: bodies (before ++ d :: after)) segments)
    (hlen : segments.flatten.length < 2 ^ 31) :
    (UInt64.ofNat (codeSize entry before)).toNat
      = startOf segments ((bodies before).length + 1) := by
  have hstart : startOf segments ((bodies before).length + 1) = codeSize entry before := by
    rw [← startOf_eq_of_forall₂ hsegments, startOf_succ_bodies]
  have hle := startOf_le_length segments ((bodies before).length + 1)
  have hsize : codeSize entry before < UInt64.size := by
    unfold UInt64.size
    omega
  rw [UInt64.toNat_ofNat_of_lt' hsize, hstart]

/-- A call goes to the start of a function.  Before linking it was a call by name, and the table
placed the body of that name behind the entry and the bodies before it. -/
theorem exists_start_of_call {u : Unlinked} {p : Placement} {segments : List Executable}
    (hplaced : Placed u.entry u.declarations p)
    (hresolved : List.Forall₂ (Resolves p.table) (u.entry :: bodies u.declarations).flatten
      segments.flatten)
    (hsegments : List.Forall₂ (List.Forall₂ (Resolves p.table))
      (u.entry :: bodies u.declarations) segments)
    (hcalls : ∀ f ∈ u.entry :: bodies u.declarations, CallsByName f)
    (hlen : segments.flatten.length < 2 ^ 31) {i : Nat} {target : UInt64} {name : String}
    (hop : segments.flatten[i]? = some (.call target name)) :
    ∃ k, k + 1 < segments.length ∧ target.toNat = startOf segments (k + 1) := by
  -- a call in the program comes from an instruction of a fragment
  obtain ⟨hi, hget⟩ := List.getElem?_eq_some_iff.mp hop
  have hlength := hresolved.length_eq
  have hresolves := hresolved.get (i := i) (by omega) hi
  rw [List.get_eq_getElem, List.get_eq_getElem, hget] at hresolves
  have hi' : i < (u.entry :: bodies u.declarations).flatten.length := by omega
  obtain ⟨f, hf, hmem⟩ := List.mem_flatten.mp (List.getElem_mem hi')
  generalize (u.entry :: bodies u.declarations).flatten[i] = instr at hresolves hmem
  cases hresolves with
  -- fragments call by name, so it was not there before linking
  | op => exact absurd hmem ((hcalls f hf).not_mem target name)
  | call hfind =>
    obtain ⟨before, d, after, hds, _, hbody, _, rfl⟩ := hplaced.start hfind
    -- the function is the segment behind the bodies before it
    have hk : (bodies before).length + 1 < segments.length := by
      obtain ⟨body, hbody⟩ := Option.isSome_iff_exists.mp hbody
      rw [← hsegments.length_eq, hds]
      simp [bodies, hbody]
    rw [hds] at hsegments
    exact ⟨(bodies before).length, hk, toNat_codeSize_eq_startOf hsegments hlen⟩

/-- A linked program is cut into its entry and its functions.  Linking replaces instructions one by
one, so it keeps the lengths of the fragments that were joined, and what was sealed in a fragment
stays in its segment. -/
theorem segmented_of_link {u : Unlinked} {names : List Token} {declareFirst : Bool}
    {code : Executable} (hu : Lowered u names) (h : link u declareFirst = .ok code)
    (hlen : code.length < 2 ^ 31) : ∃ segments, Segmented code names segments := by
  obtain ⟨p, hplaced, hresolved⟩ := placed_of_link h
  have hcode : p.code = (u.entry :: bodies u.declarations).flatten := hplaced.code
  rw [hcode] at hresolved
  -- linking keeps lengths, so the code is cut where its fragments were joined
  obtain ⟨segments, rfl, hsegments⟩ := exists_segments hresolved
  have hshaped : Shaped names segments := by
    rcases hsegments with _ | ⟨hentry, hfunctions⟩
    exact ⟨_, _, rfl, isEntry_of_resolves hu.entry hentry,
      forall₂_isFunction hu.functions hfunctions⟩
  have hcontained : ∀ k < segments.length,
      Contained segments.flatten (startOf segments k) (startOf segments (k + 1)) := by
    intro k hk
    have hk' : k < (u.entry :: bodies u.declarations).length := by
      rw [hsegments.length_eq]
      exact hk
    exact contained_of_resolves (List.getElem?_eq_getElem hk) hlen
      (hu.isSealed _ (List.get_mem _ ⟨k, hk'⟩)) (hsegments.get hk' hk)
  refine ⟨segments, rfl, hshaped, hcontained, ?_⟩
  intro i target name hop
  -- a call goes to the start of a body, which is never the first segment
  have hcalls : ∀ f ∈ u.entry :: bodies u.declarations, CallsByName f :=
    fun f hf => (hu.isSealed f hf).callsByName
  obtain ⟨k, hk, htarget⟩ :=
    exists_start_of_call hplaced hresolved hsegments hcalls hlen hop
  rw [htarget]
  exact ⟨⟨k + 1, by omega, hk, rfl⟩, hshaped.exists_before (by omega)⟩

end Linking

/-! ## §5. Functions of a source. -/

/-- The names of the functions, in order. -/
def Braced.Program.functionNames (p : Braced.Program) : List Token :=
  p.definitions.map (·.name)

/-- The name of a function that is defined. -/
def Worded.Definition.functionName? : Worded.Definition → Option Token
  | .full _ name _ _ _ => some name
  | .prototype _ _ _ _ => none

/-- The names of the functions that are defined, in order. -/
def Worded.Program.functionNames (p : Worded.Program) : List Token :=
  p.definitions.filterMap Worded.Definition.functionName?

/-- The names of the functions that a source defines, in order. -/
def Dialect.functionNames (dialect : Dialect) (source : String) : Except Failure (List Token) :=
  match dialect with
  | .braced => (Braced.parse source).map (·.program.functionNames)
  | .worded => (Worded.parse source).map (·.program.functionNames)

/-- The line fits the operand of a line opcode. -/
def LineFits (name : Token) : Prop :=
  1 ≤ name.line ∧ name.line ≤ 2 ^ 32

/-- What a definition is lowered to starts with the line of its name and ends with a return. -/
theorem isFunctionFragment_function {case : NameCase} {name : Token} {param : Option Token}
    {body f : Fragment} (hname : LineFits name)
    (hf : (Declaration.function case name param body).body = some f) :
    IsFunctionFragment name f := by
  obtain ⟨hlo, hhi⟩ := hname
  refine ⟨UInt32.ofNat (name.line - 1), body.map (bindParam (param.map case.name)),
    (Option.some.inj hf).symm, ?_⟩
  have hsize : name.line - 1 < UInt32.size := by
    unfold UInt32.size
    omega
  rw [UInt32.toNat_ofNat_of_lt' hsize]
  omega

/-- A braced program is lowered to sealed code: its entry, and one fragment for each name.  Every
definition has a body here. -/
theorem Braced.Program.lowered {p : Braced.Program} (h : ∀ name ∈ p.functionNames, LineFits name) :
    Lowered p.lower p.functionNames where
  entry := ⟨_, _, rfl⟩
  functions := by
    have hnames : ∀ d ∈ p.definitions, LineFits d.name := by
      simpa [Braced.Program.functionNames] using h
    show List.Forall₂ _ (p.definitions.map (·.name)) (bodies (p.definitions.map Definition.lower))
    generalize p.definitions = ds at hnames
    induction ds with
    | nil => exact .nil
    | cons d ds ih =>
      exact .cons (isFunctionFragment_function (hnames d (by simp)) rfl)
        (ih fun d' hd' => hnames d' (by simp [hd']))
  isSealed f hf := by
    rcases List.mem_cons.mp hf with rfl | hf
    · exact sealed_entry (statementwise_closed.braced _) (statementwise_callsByName.braced _) _
    · obtain ⟨_, hd, hbody⟩ := List.mem_filterMap.mp hf
      obtain ⟨d, _, rfl⟩ := List.mem_map.mp hd
      exact sealed_function (statementwise_closed.braced _) (statementwise_callsByName.braced _)
        hbody

/-- A worded program is lowered to sealed code: its entry, and one fragment for each name that has a
body.  Prototypes have no code. -/
theorem Worded.Program.lowered {p : Worded.Program} (h : ∀ name ∈ p.functionNames, LineFits name) :
    Lowered p.lower p.functionNames where
  entry := ⟨_, _, rfl⟩
  functions := by
    unfold Worded.Program.functionNames at h
    show List.Forall₂ _ (p.definitions.filterMap Worded.Definition.functionName?)
      (bodies (p.definitions.map Definition.lower))
    generalize p.definitions = ds at h
    induction ds with
    | nil => exact .nil
    | cons d ds ih =>
      cases d with
      | full keyword name parameter as_ body =>
        refine .cons (isFunctionFragment_function (h name ?_) rfl)
          (ih fun name' hname' => h name' ?_)
        · simp [Worded.Definition.functionName?]
        · simp only [List.filterMap_cons, Worded.Definition.functionName?, List.mem_cons]
          exact .inr hname'
      | prototype keyword name parameter semicolon => exact ih h
  isSealed f hf := by
    rcases List.mem_cons.mp hf with rfl | hf
    · exact sealed_entry (statementwise_closed.worded _) (statementwise_callsByName.worded _) _
    · obtain ⟨_, hd, hbody⟩ := List.mem_filterMap.mp hf
      obtain ⟨d, _, rfl⟩ := List.mem_map.mp hd
      cases d with
      | full keyword name parameter as_ body =>
        exact sealed_function (statementwise_closed.worded _) (statementwise_callsByName.worded _)
          hbody
      | prototype keyword name parameter semicolon => cases hbody

/-! ## §6. Compiled programs. -/

/-- In a source of no more lines than an operand can state, the line of every name fits one. -/
theorem Braced.lineFits_of_parse {source : String} {parsed : Parsed Braced.Program}
    (hlines : lineCount source ≤ 2 ^ 32) (h : Braced.parse source = .ok parsed) :
    ∀ name ∈ parsed.program.functionNames, LineFits name := by
  intro name hname
  obtain ⟨d, hd, rfl⟩ := List.mem_map.mp hname
  obtain ⟨_, htokens⟩ := Braced.spelled_of_parse h
  have hmem : d.name ∈ Braced.lexicon.bodyTokens source := by
    rw [← htokens, Braced.Program.tokens_view]
    have : d.name ∈ d.view.tokens := by simp [Braced.Definition.tokens_view]
    simp only [List.mem_cons, List.mem_append, List.mem_flatMap]
    exact .inl (.inl (.inr (.inr (.inr ⟨d, hd, this⟩))))
  obtain ⟨hlo, hhi⟩ := Lexicon.line_of_mem_bodyTokens hmem
  exact ⟨hlo, by omega⟩

/-- Settling a program leaves its names as they are. -/
theorem Worded.Program.functionNames_settle (p : Worded.Program) :
    p.settle.functionNames = p.functionNames := by
  simp only [Worded.Program.functionNames, Worded.Program.settle, List.filterMap_map]
  congr 1
  funext d
  cases d <;> rfl

/-- In a worded source of no more lines than an operand can state, the line of every name fits one.
Names are not moved when a `;` is. -/
theorem Worded.lineFits_of_parse {source : String} {parsed : Parsed Worded.Program}
    (hlines : lineCount source ≤ 2 ^ 32) (h : Worded.parse source = .ok parsed) :
    ∀ name ∈ parsed.program.functionNames, LineFits name := by
  intro name hname
  obtain ⟨s, p, cs, _, hspelled, hreads, _, hp⟩ := Worded.exists_reads_of_parse h
  have hname' : name ∈ p.functionNames := by
    rw [hp] at hname
    split at hname
    · exact hname
    · rwa [Worded.Program.functionNames_settle] at hname
  obtain ⟨d, hd, hdname⟩ := List.mem_filterMap.mp hname'
  obtain ⟨hkind, hview⟩ : name.kind = .identifier ∧ name ∈ d.view.tokens := by
    have hdspelled := hspelled.2.1 d hd
    cases d with
    | full keyword name' parameter as_ body =>
      cases hdname
      exact ⟨hdspelled.2.1, by simp [Worded.Definition.view, Node.tokens]⟩
    | prototype => cases hdname
  have htree : name ∈ p.view.tokens := by
    rw [Worded.Program.tokens_view]
    simp only [List.mem_cons, List.mem_append, List.mem_flatMap]
    exact .inl (.inl (.inr ⟨d, hd, hview⟩))
  -- a repair only puts in `;`
  rcases hreads.mem_or_inserted htree with hmem | ⟨hsemi, _⟩
  · obtain ⟨hlo, hhi⟩ := Lexicon.line_of_mem_bodyTokens hmem
    exact ⟨hlo, by omega⟩
  · rw [hkind] at hsemi
    cases hsemi

/-- What a source that compiles gives to link is sealed code, with one function for each of its
names. -/
theorem Dialect.exists_lowered_of_compile {dialect : Dialect} {source : String}
    {code : Executable} (hlines : lineCount source ≤ 2 ^ 32)
    (h : dialect.compile source = .ok code) :
    ∃ names u declareFirst, dialect.functionNames source = .ok names ∧ Lowered u names
      ∧ link u declareFirst = .ok code := by
  cases dialect with
  | braced =>
    simp only [Dialect.compile, Braced.compile] at h
    cases hparse : Braced.parse source with
    | error failure => simp [hparse, bind, Except.bind] at h
    | ok parsed =>
      refine ⟨parsed.program.functionNames, parsed.program.lower, false, ?_,
        Braced.Program.lowered (Braced.lineFits_of_parse hlines hparse), ?_⟩
      · simp [Dialect.functionNames, hparse, Except.map]
      · simpa [hparse, bind, Except.bind] using h
  | worded =>
    simp only [Dialect.compile, Worded.compile] at h
    cases hparse : Worded.parse source with
    | error failure => simp [hparse, bind, Except.bind] at h
    | ok parsed =>
      refine ⟨parsed.program.functionNames, parsed.program.lower, true, ?_,
        Worded.Program.lowered (Worded.lineFits_of_parse hlines hparse), ?_⟩
      · simp [Dialect.functionNames, hparse, Except.map]
      · simpa [hparse, bind, Except.bind] using h

/-- A compiled program is its entry and its functions, one after another.
Control stays in each of them, calls go to their starts, and so every run
stays inside them. -/
theorem compile_confines_control {dialect : Dialect} {source : String} {code : Executable}
    (hlines : lineCount source ≤ 2 ^ 32) (hcompile : dialect.compile source = .ok code)
    (hlen : code.length < 2 ^ 31) :
    ∃ names segments, dialect.functionNames source = .ok names
      ∧ Segmented code names segments ∧ Confined code segments := by
  obtain ⟨names, u, declareFirst, hnames, hlowered, hlink⟩ :=
    Dialect.exists_lowered_of_compile hlines hcompile
  obtain ⟨segments, hsegmented⟩ := segmented_of_link hlowered hlink hlen
  exact ⟨names, segments, hnames, hsegmented, hsegmented.confined⟩

/-- A function that calls itself in a loop, and a main block that does so too. -/
def loopingCalls : String :=
  "class program\x7bvoid f(n)\x7bwhile(frontIsClear)f(n);\x7dprogram()\x7biterate(2)f(1);\x7d\x7d"

/-- The sample compiles to thirty instructions, by running the compiler. -/
theorem length_compile_loopingCalls :
    (Dialect.braced.compile loopingCalls).toOption.map List.length = some 30 := by
  decide +kernel

/-- A program with a loop, a repetition and calls, of which every run stays inside its functions. -/
theorem loopingCalls_confines_control :
    lineCount loopingCalls ≤ 2 ^ 32 ∧ ∃ code, Dialect.braced.compile loopingCalls = .ok code
      ∧ code.length < 2 ^ 31 ∧ ∃ names segments,
        Dialect.braced.functionNames loopingCalls = .ok names
          ∧ Segmented code names segments ∧ Confined code segments := by
  have hlines : lineCount loopingCalls ≤ 2 ^ 32 := by decide +kernel
  have hlength := length_compile_loopingCalls
  generalize hcompile : Dialect.braced.compile loopingCalls = compiled at hlength ⊢
  cases compiled with
  | error failure => simp [Except.toOption] at hlength
  | ok code =>
    have hlen : code.length = 30 := by simpa [Except.toOption] using hlength
    exact ⟨hlines, code, rfl, by omega, compile_confines_control hlines hcompile (by omega)⟩

end RobotLang
