/-
  RobotLang.Proofs.Listing.Sections
  ─────────────────────────────────
  **A LISTING CUTS THE PROGRAM INTO ITS SECTIONS.**

  A section is a header and the instructions under it.  The listing of a program
  whose calls go to places inside it is the text of its sections one after the
  other (`Section.text`), where a header tells the name and how many instructions
  stand under it, and every instruction is read under its index:

      main          0 1 2 ⋯ t₁ - 1
      first call's  t₁ ⋯ t₂ - 1            t₁ < t₂ < ⋯  the places that calls go to
      name of t₁    ⋯

  `Sectioned` is what such a cut has to be: nothing is left out or listed twice,
  sections start exactly where calls go to, and an instruction is marked exactly
  if a jump leads to it.  `cut` makes it by one walk over the instructions; that a
  header counts what stands under it is the invariant of that walk
  (`lines_cut`): from any index on, the instructions in front of the next section
  reach as far as `sectionEnd` tells.

  Main results:
    * `sectioned_sections`: what `cut` makes is such a cut
    * `disassemble_eq_text`: the listing is the text of these sections
    * `call_inside_of_compile`: compiled code calls places inside it
-/
import Mathlib.Algebra.Order.Ring.Int
import RobotLang.Proofs.ControlFlow
import RobotLang.Proofs.Listing.Lines

namespace RobotLang.Listing

/-! ## §1. Sections and their text. -/

/-- An instruction as it is listed. -/
structure Listed where
  index : Nat
  op : Opcode
  /-- Whether it is marked as one that a jump goes to. -/
  marked : Bool

/-- The lines for an instruction: its index, the mark or blanks in its place, and how it reads.
Above a marked one there is a line of its own. -/
def Listed.lines (x : Listed) : List String :=
  if x.marked then [targetLine, numeral 4 x.index ++ " ► " ++ instruction x.index x.op]
  else [numeral 4 x.index ++ "   " ++ instruction x.index x.op]

/-- A name and the instructions listed under it. -/
structure Section where
  name : String
  instructions : List Listed

namespace Section

/-- Where the section starts. -/
def start? (x : Section) : Option Nat :=
  x.instructions.head?.map Listed.index

/-- The header, with the name and the number of instructions under it, and these. -/
def lines (x : Section) : List String :=
  [rulerLine, " " ++ x.name, " " ++ numeral 1 x.instructions.length ++ " instructions", rulerLine]
    ++ x.instructions.flatMap Listed.lines

/-- The text of the main section and then of the others, with an empty line in front of each. -/
def text (main : Section) (functions : List Section) : String :=
  String.join ((main.lines ++ functions.flatMap fun x => "" :: x.lines).map (· ++ "\n"))

end Section

/-! ## §2. What the sections of a program have to be. -/

/-- All calls go to places inside the program. -/
def CallsInside (ops : Executable) : Prop :=
  ∀ target name, .call target name ∈ ops → target.toNat < ops.length

/-- Some jump leads to the index; before the start counts as the start. -/
def JumpLeadsTo (ops : Executable) (index : Nat) : Prop :=
  ∃ (i : Nat) (offset : Int32), (ops[i]? = some (.jmp offset) ∨ ops[i]? = some (.jz offset))
    ∧ ((i : Int) + 1 + offset.toInt = index ∨ (i : Int) + 1 + offset.toInt < 0 ∧ index = 0)

/-- The first of the calls to that index gives it that name. -/
def FirstCallNames (ops : Executable) (index : Nat) (name : String) : Prop :=
  ∃ before target after, ops = before ++ .call target name :: after ∧ target.toNat = index
    ∧ ∀ other name', .call other name' ∈ before → other.toNat ≠ index

/-- The sections are a cut of the program in front of every place that a call goes to. -/
structure Sectioned (ops : Executable) (main : Section) (functions : List Section) : Prop where
  main_name : main.name = "main"
  /-- Every instruction is listed once, in order and under its index. -/
  once : ((main :: functions).flatMap Section.instructions).map (fun x => (x.op, x.index))
    = ops.zipIdx
  /-- The other sections start one behind the other, at the places that calls go to. -/
  starts : ∃ starts : List Nat, functions.map Section.start? = starts.map some
    ∧ starts.Pairwise (· < ·)
    ∧ ∀ index, index ∈ starts ↔ ∃ target name, .call target name ∈ ops ∧ target.toNat = index
  named : ∀ f ∈ functions, ∃ index, f.start? = some index ∧ FirstCallNames ops index f.name
  counts : ((main :: functions).map fun x => x.instructions.length).sum = ops.length
  marked : ∀ x ∈ (main :: functions).flatMap Section.instructions,
    x.marked = true ↔ JumpLeadsTo ops x.index

/-! ## §3. Jumps, calls and the ends of sections. -/

/-- A mark comes from a jump of the program that leads there.  By induction on the program, with the
index of its first instruction. -/
theorem mem_jumpTargets {ops : Executable} {start index : Nat} :
    index ∈ jumpTargets start ops ↔ ∃ (i : Nat) (op : Opcode) (offset : Int32),
      ops[i]? = some op ∧ op.jumpOffset? = some offset ∧ jumpTarget (start + i) offset = index := by
  induction ops generalizing start with
  | nil => simp [jumpTargets]
  | cons op ops ih =>
    -- the jump is the first instruction or one of the others
    have hsplit : (∃ (i : Nat) (op' : Opcode) (offset : Int32), (op :: ops)[i]? = some op'
          ∧ op'.jumpOffset? = some offset ∧ jumpTarget (start + i) offset = index)
        ↔ (∃ offset, op.jumpOffset? = some offset ∧ jumpTarget start offset = index)
          ∨ index ∈ jumpTargets (start + 1) ops := by
      rw [ih]
      constructor
      · rintro ⟨i, op', offset, hop, hoffset, hindex⟩
        cases i with
        | zero =>
          cases hop
          exact .inl ⟨offset, hoffset, hindex⟩
        | succ i =>
          rw [← Nat.add_assoc, Nat.add_right_comm] at hindex
          exact .inr ⟨i, op', offset, hop, hoffset, hindex⟩
      · rintro (⟨offset, hoffset, hindex⟩ | ⟨i, op', offset, hop, hoffset, hindex⟩)
        · exact ⟨0, op, offset, rfl, hoffset, hindex⟩
        · rw [Nat.add_right_comm, Nat.add_assoc] at hindex
          exact ⟨i + 1, op', offset, hop, hoffset, hindex⟩
    rw [hsplit, jumpTargets]
    cases op.jumpOffset? with
    | none => simp
    | some offset => simp [eq_comm]

/-- The marks are at the instructions that jumps lead to. -/
theorem mem_jumpTargets_iff_leadsTo {ops : Executable} {index : Nat} :
    index ∈ jumpTargets 0 ops ↔ JumpLeadsTo ops index := by
  have htarget (i : Nat) (offset : Int32) : jumpTarget (0 + i) offset = index ↔
      (i : Int) + 1 + offset.toInt = index ∨ (i : Int) + 1 + offset.toInt < 0 ∧ index = 0 := by
    unfold jumpTarget
    omega
  simp only [mem_jumpTargets, htarget]
  constructor
  · rintro ⟨i, op, offset, hop, hoffset, hindex⟩
    refine ⟨i, offset, ?_, hindex⟩
    cases op with
    | jmp | jz =>
      cases hoffset
      simp [hop]
    | _ => cases hoffset
  · rintro ⟨i, offset, hop | hop, hindex⟩
    · exact ⟨i, _, offset, hop, rfl, hindex⟩
    · exact ⟨i, _, offset, hop, rfl, hindex⟩

/-- The places where sections start are the targets of calls. -/
theorem mem_map_callees {ops : Executable} {index : Nat} :
    index ∈ (callees ops).map Prod.fst
      ↔ ∃ target name, .call target name ∈ ops ∧ target.toNat = index := by
  unfold callees
  simp only [List.mem_map, List.mem_filterMap]
  constructor
  · rintro ⟨⟨_, _⟩, ⟨op, hop, hcallee⟩, rfl⟩
    cases op with
    | call target name =>
      cases hcallee
      exact ⟨target, _, hop, rfl⟩
    | _ => cases hcallee
  · rintro ⟨target, name, hop, rfl⟩
    exact ⟨(target.toNat, name), ⟨_, hop, rfl⟩, rfl⟩

/-- Nothing is found for a place exactly if no call goes there. -/
theorem lookup_eq_none_iff {calls : List (Nat × String)} {index : Nat} :
    calls.lookup index = none ↔ index ∉ calls.map Prod.fst := by
  rw [List.lookup_eq_none_iff]
  simp only [bne_iff_ne, List.mem_map, not_exists, not_and]
  exact ⟨fun h p hp heq => h p hp heq.symm, fun h p hp heq => h p hp heq.symm⟩

/-- What is found for an index is what the first call to it names.  By induction on the program:
what stands in front of that call is no call, or a call to another place. -/
theorem firstCallNames_of_lookup {ops : Executable} {index : Nat} {name : String}
    (h : (callees ops).lookup index = some name) : FirstCallNames ops index name := by
  induction ops with
  | nil => cases h
  | cons op ops ih =>
    -- a call to another place, or no call at all, stands in front of the first call
    have hlater (hop : ∀ other name', op = .call other name' → other.toNat ≠ index)
        (hlookup : (callees ops).lookup index = some name) :
        FirstCallNames (op :: ops) index name := by
      obtain ⟨before, target, after, rfl, htarget, hbefore⟩ := ih hlookup
      refine ⟨op :: before, target, after, rfl, htarget, ?_⟩
      intro other name' hmem
      rcases List.mem_cons.mp hmem with heq | hmem
      · exact hop other name' heq.symm
      · exact hbefore other name' hmem
    cases op with
    | call target name' =>
      by_cases htarget : target.toNat = index
      · have hname : name' = name := by
          simpa [callees, Opcode.callee?, List.lookup_cons, htarget] using h
        exact ⟨[], target, ops, by rw [hname]; rfl, htarget, by simp⟩
      · refine hlater (fun other name'' heq => by cases heq; exact htarget) ?_
        have hne : (index == target.toNat) = false := by simpa using Ne.symm htarget
        simpa [callees, Opcode.callee?, List.lookup_cons, hne] using h
    | _ => exact hlater (fun _ _ heq => by cases heq) h

section Ends

variable {ops : Executable} {calls : List (Nat × String)} {index : Nat}

/-- In front of a place that is called, a section ends. -/
theorem sectionEnd_of_mem (h : index ∈ calls.map Prod.fst) :
    sectionEnd ops calls index = index := by
  have hmin : nextSection? calls index = some index := by
    unfold nextSection?
    rw [List.min?_eq_some_iff]
    simpa using h
  unfold sectionEnd
  rw [hmin]
  rfl

/-- Where no section starts, the one that goes on ends with the next instruction's. -/
theorem sectionEnd_of_not_mem (h : index ∉ calls.map Prod.fst) :
    sectionEnd ops calls index = sectionEnd ops calls (index + 1) := by
  unfold sectionEnd nextSection?
  congr 2
  refine List.filter_congr fun target htarget => ?_
  have hne : target ≠ index := fun heq => h (heq ▸ htarget)
  simp only [decide_eq_decide]
  omega

/-- Behind the last instruction no section starts. -/
theorem sectionEnd_length (h : ∀ target ∈ calls.map Prod.fst, target < ops.length) :
    sectionEnd ops calls ops.length = ops.length := by
  have hnone : (calls.map Prod.fst).filter (ops.length ≤ ·) = [] := by
    rw [List.filter_eq_nil_iff]
    intro target htarget
    have := h target htarget
    simpa using this
  unfold sectionEnd nextSection?
  rw [hnone]
  rfl

end Ends

/-! ## §4. Cutting. -/

/-- Cuts in front of every instruction that has a name, into what stands in front of the first of
these and the sections. -/
def cut (nameAt : Nat → Option String) : List Listed → List Listed × List Section
  | [] => ([], [])
  | x :: xs =>
    let (front, sections) := cut nameAt xs
    match nameAt x.index with
    | some name => ([], ⟨name, x :: front⟩ :: sections)
    | none => (x :: front, sections)

section Cut

variable {nameAt : Nat → Option String} {x : Listed}

/-- An instruction with a name starts a section, and all in front of the next one belongs to it. -/
theorem cut_cons_of_some {name : String} (h : nameAt x.index = some name) (xs : List Listed) :
    cut nameAt (x :: xs) = ([], ⟨name, x :: (cut nameAt xs).1⟩ :: (cut nameAt xs).2) := by
  rw [cut, h]

/-- An instruction without a name belongs to the section it stands in. -/
theorem cut_cons_of_none (h : nameAt x.index = none) (xs : List Listed) :
    cut nameAt (x :: xs) = (x :: (cut nameAt xs).1, (cut nameAt xs).2) := by
  rw [cut, h]

/-- A cut loses nothing. -/
theorem cut_instructions (nameAt : Nat → Option String) (xs : List Listed) :
    (cut nameAt xs).1 ++ (cut nameAt xs).2.flatMap Section.instructions = xs := by
  induction xs with
  | nil => rfl
  | cons x xs ih =>
    cases h : nameAt x.index with
    | some name =>
      rw [cut_cons_of_some h, List.flatMap_cons]
      simpa using ih
    | none =>
      rw [cut_cons_of_none h]
      simpa using ih

/-- Sections start where there is a name. -/
theorem cut_starts (nameAt : Nat → Option String) (xs : List Listed) :
    (cut nameAt xs).2.map Section.start?
      = ((xs.map Listed.index).filter fun i => (nameAt i).isSome).map some := by
  induction xs with
  | nil => rfl
  | cons x xs ih =>
    cases h : nameAt x.index with
    | some name =>
      rw [cut_cons_of_some h, List.map_cons, ih]
      simp [h, Section.start?]
    | none =>
      rw [cut_cons_of_none h, ih]
      simp [h]

/-- A section has the name of the place where it starts. -/
theorem cut_named {xs : List Listed} {f : Section} (h : f ∈ (cut nameAt xs).2) :
    ∃ index, f.start? = some index ∧ nameAt index = some f.name := by
  induction xs with
  | nil => cases h
  | cons x xs ih =>
    cases hname : nameAt x.index with
    | some name =>
      rw [cut_cons_of_some hname] at h
      rcases List.mem_cons.mp h with rfl | h
      · exact ⟨x.index, rfl, hname⟩
      · exact ih h
    | none =>
      rw [cut_cons_of_none hname] at h
      exact ih h

end Cut

/-! ## §5. The listing of a program. -/

/-- The instructions from index `i` on, marked where the targets are. -/
def listedFrom (targets : List Nat) (i : Nat) (ops : List Opcode) : List Listed :=
  (ops.zipIdx i).map fun (op, i) => ⟨i, op, targets.contains i⟩

/-- An instruction that starts a section has the header above it, and then its own lines. -/
theorem opLines_eq (ops : Executable) (calls : List (Nat × String)) (targets : List Nat) (i : Nat)
    (op : Opcode) : opLines ops calls targets i op
      = (match calls.lookup i with
          | some name => "" :: header name (sectionEnd ops calls (i + 1) - i)
          | none => [])
        ++ Listed.lines ⟨i, op, targets.contains i⟩ := by
  unfold opLines Listed.lines
  rw [indexText_eq, opText_eq, targetMark_eq]
  cases targets.contains i <;> rfl

/-- From any index on, the lines of the instructions are those of the sections, and the instructions
in front of the first section reach to its start. -/
theorem lines_cut {ops : Executable} {calls : List (Nat × String)} (targets : List Nat)
    (hcalls : ∀ target ∈ calls.map Prod.fst, target < ops.length) (rest : List Opcode) (i : Nat)
    (hrest : ops.drop i = rest) (hi : i ≤ ops.length) :
    let parts := cut (fun i => calls.lookup i) (listedFrom targets i rest)
    ((rest.zipIdx i).flatMap fun p => opLines ops calls targets p.2 p.1)
        = parts.1.flatMap Listed.lines ++ parts.2.flatMap (fun x => "" :: x.lines)
      ∧ parts.1.length + i = sectionEnd ops calls i := by
  induction rest generalizing i with
  | nil =>
    have hend : i = ops.length := Nat.le_antisymm hi (List.drop_eq_nil_iff.mp hrest)
    subst hend
    rw [sectionEnd_length hcalls]
    exact ⟨rfl, Nat.zero_add _⟩
  | cons op rest ih =>
    have hlt : i < ops.length := by
      have := congrArg List.length hrest
      rw [List.length_drop, List.length_cons] at this
      omega
    have hnext : ops.drop (i + 1) = rest := by
      rw [← List.tail_drop, hrest]
      rfl
    obtain ⟨hlines, hlength⟩ := ih (i + 1) hnext hlt
    intro parts
    have hparts : parts = cut (fun i => calls.lookup i)
        (⟨i, op, targets.contains i⟩ :: listedFrom targets (i + 1) rest) := rfl
    rw [List.zipIdx_cons, List.flatMap_cons, hlines, opLines_eq, hparts]
    dsimp only
    cases hname : calls.lookup i with
    | some name =>
      -- a section starts here, and its header counts up to the next one
      have hmem : i ∈ calls.map Prod.fst := by
        by_contra h
        rw [lookup_eq_none_iff.mpr h] at hname
        cases hname
      rw [cut_cons_of_some hname, sectionEnd_of_mem hmem, ← hlength]
      refine ⟨?_, Nat.zero_add i⟩
      have hcount (n : Nat) : n + (i + 1) - i = n + 1 := by omega
      simp [Section.lines, hcount, header_eq]
    | none =>
      rw [cut_cons_of_none hname, sectionEnd_of_not_mem (lookup_eq_none_iff.mp hname), ← hlength]
      refine ⟨by simp, ?_⟩
      rw [List.length_cons]
      omega

section Program

variable (ops : Executable)

/-- The instructions of a program as they are listed. -/
def listed : List Listed :=
  listedFrom (jumpTargets 0 ops) 0 ops

/-- The main section's instructions and the other sections. -/
def sections : List Listed × List Section :=
  cut (fun i => (callees ops).lookup i) (listed ops)

/-- The instructions are numbered from zero, without a gap. -/
theorem map_index_listed : (listed ops).map Listed.index = List.range' 0 ops.length := by
  rw [← List.zipIdx_map_snd, listed, listedFrom, List.map_map]
  rfl

/-- They are the program, in its order. -/
theorem map_listed : (listed ops).map (fun x => (x.op, x.index)) = ops.zipIdx := by
  rw [listed, listedFrom, List.map_map]
  exact List.map_id _

theorem length_listed : (listed ops).length = ops.length := by
  rw [listed, listedFrom, List.length_map, List.length_zipIdx]

/-- An instruction is marked exactly if a jump leads to it. -/
theorem marked_of_mem_listed {x : Listed} (h : x ∈ listed ops) :
    x.marked = true ↔ JumpLeadsTo ops x.index := by
  obtain ⟨⟨op, i⟩, -, rfl⟩ := List.mem_map.mp h
  rw [← mem_jumpTargets_iff_leadsTo]
  exact List.contains_iff_mem

theorem flatMap_sections (name : String) :
    ((⟨name, (sections ops).1⟩ : Section) :: (sections ops).2).flatMap Section.instructions
      = listed ops :=
  cut_instructions _ _

variable {ops} (hcalls : CallsInside ops)

include hcalls

/-- Sections start inside the program. -/
theorem lt_of_mem_callees : ∀ target ∈ (callees ops).map Prod.fst, target < ops.length := by
  intro index hindex
  obtain ⟨target, name, hcall, rfl⟩ := mem_map_callees.mp hindex
  exact hcalls target name hcall

/-- The sections of a program are a cut in front of the places that calls go to.  The cut of the
program has every line once and in order, and a line starts a section if it is looked up as a
callee. -/
theorem sectioned_sections : Sectioned ops ⟨"main", (sections ops).1⟩ (sections ops).2 where
  main_name := rfl
  once := by rw [flatMap_sections, map_listed]
  starts := by
    refine ⟨_, cut_starts _ _, ?_, ?_⟩
    · rw [map_index_listed]
      exact (List.pairwise_lt_range' 1).filter _
    · intro index
      have hsome : ((callees ops).lookup index).isSome = true
          ↔ index ∈ (callees ops).map Prod.fst := by
        rw [Option.isSome_iff_ne_none, ne_eq, lookup_eq_none_iff, not_not]
      rw [map_index_listed, List.mem_filter, hsome, ← mem_map_callees]
      constructor
      · exact And.right
      · intro hmem
        -- a call into the program goes to one of its lines
        have := lt_of_mem_callees hcalls index hmem
        refine ⟨List.mem_range'_1.mpr ?_, hmem⟩
        omega
  named := by
    intro f hf
    obtain ⟨index, hstart, hname⟩ := cut_named hf
    exact ⟨index, hstart, firstCallNames_of_lookup hname⟩
  counts := by
    rw [← length_listed ops, ← flatMap_sections ops "main", List.length_flatMap]
  marked := by
    intro x hx
    rw [flatMap_sections] at hx
    exact marked_of_mem_listed ops hx

/-- The listing is the text of the sections. -/
theorem disassemble_eq_text :
    disassemble ops = Section.text ⟨"main", (sections ops).1⟩ (sections ops).2 := by
  obtain ⟨hlines, hlength⟩ :=
    lines_cut (jumpTargets 0 ops) (lt_of_mem_callees hcalls) ops 0 rfl (Nat.zero_le _)
  have hmain : sectionEnd ops (callees ops) 0 = (sections ops).1.length := hlength.symm
  show String.join ((header "main" (sectionEnd ops (callees ops) 0)
    ++ ops.zipIdx.flatMap fun p => opLines ops (callees ops) (jumpTargets 0 ops) p.2 p.1).map
      (· ++ "\n")) = _
  rw [hlines, hmain, header_eq, ← List.append_assoc]
  rfl

end Program

/-! ## §6. Compiled programs. -/

/-- A compiled program calls places inside it, and never its start. -/
theorem call_inside_of_compile {dialect : Dialect} {source : String} {code : Executable}
    (hlines : lineCount source ≤ 2 ^ 32) (hcompile : dialect.compile source = .ok code)
    (hlen : code.length < 2 ^ 31) {target : UInt64} {name : String}
    (hcall : .call target name ∈ code) : 0 < target.toNat ∧ target.toNat < code.length := by
  obtain ⟨names, u, declareFirst, -, hlowered, hlink⟩ :=
    Dialect.exists_lowered_of_compile hlines hcompile
  obtain ⟨segments, hsegmented⟩ := segmented_of_link hlowered hlink hlen
  obtain ⟨i, hi⟩ := List.mem_iff_getElem?.mp hcall
  obtain ⟨⟨k, -, hk, hstart⟩, before, hbefore, -⟩ := hsegmented.call i target name hi
  -- a function is not empty, so it starts in front of the end
  have hlt := hsegmented.shaped.startOf_lt hk
  have hle := startOf_le_length segments (k + 1)
  rw [hsegmented.flatten] at hle
  omega

end RobotLang.Listing

namespace RobotLang

open Listing

/-- **The listing of a program is the text of its sections.**  If its calls go to places inside it,
the program is cut in front of each of these; every instruction is printed once, under its index
and as the table of instructions says; a header prints the name of the first call to its section
and counts what stands under it; and the marks are where jumps lead.  The calls of a compiled
program go to places inside it and behind its start. -/
theorem listing_partitions_program :
    (∀ ops : Executable, CallsInside ops → ∃ main functions,
        Sectioned ops main functions ∧ disassemble ops = Section.text main functions)
      ∧ ∀ (dialect : Dialect) (source : String) (code : Executable),
        lineCount source ≤ 2 ^ 32 → dialect.compile source = .ok code → code.length < 2 ^ 31 →
        CallsInside code ∧ ∀ target name, .call target name ∈ code → 0 < target.toNat := by
  constructor
  · intro ops hcalls
    exact ⟨_, _, sectioned_sections hcalls, disassemble_eq_text hcalls⟩
  · intro dialect source code hlines hcompile hlen
    exact ⟨fun target name hcall => (call_inside_of_compile hlines hcompile hlen hcall).2,
      fun target name hcall => (call_inside_of_compile hlines hcompile hlen hcall).1⟩

/-- Two functions side by side, one of them called under two names, and a jump to before the
start. -/
def adjacentCalls : Executable :=
  [.call 3 "late", .call 2 "early", .jmp (-9), .call 3 "again", .jz 0]

/-- The calls of the sample stay inside of it, so its listing has both functions, although one
starts right behind the other. -/
theorem adjacentCalls_sectioned :
    CallsInside adjacentCalls ∧ ∃ main functions, Sectioned adjacentCalls main functions
      ∧ disassemble adjacentCalls = Section.text main functions := by
  have hcalls : CallsInside adjacentCalls := by
    intro target name hcall
    simp only [adjacentCalls, List.mem_cons, Opcode.call.injEq, reduceCtorEq, List.not_mem_nil,
      or_false, false_or] at hcall
    obtain ⟨rfl, -⟩ | ⟨rfl, -⟩ | ⟨rfl, -⟩ := hcall <;> decide
  exact ⟨hcalls, listing_partitions_program.1 adjacentCalls hcalls⟩

end RobotLang
