/-
  RobotLang.Proofs.StackDiscipline
  ────────────────────────────────
  **A COMPILED PROGRAM NEVER TAKES A VALUE THAT IS NOT ON ITS STACK.**

  Every instruction of a compiled program has a depth of its own
  (`Disciplined`): the entry and every function start with an empty frame and
  end with one, an instruction finds what it takes, and wherever control goes
  from there the depth is the one that the instruction leaves.  So however a
  run branches and loops, its frame is always as deep as the place where it
  stands says, and never too short (`NeverUnderflows`).
-/
import RobotLang.Proofs.ControlFlow
import RobotLang.Proofs.Fragment.Depth

namespace RobotLang

open Fragment Declaration

/-! ## §1. Depths of a program. -/

/-- The code of the entry and of the functions, in the order in which they are
linked. -/
def Unlinked.fragments (u : Unlinked) : List Fragment :=
  u.entry :: bodies u.declarations

/-- A depth for every instruction of a program that was linked from
`fragments`. -/
structure Disciplined (code : Executable) (fragments : List Fragment) (depth : Nat → Nat) :
    Prop where
  /-- The entry and every function start with an empty frame. -/
  start : ∀ k < fragments.length, depth (startOf fragments k) = 0
  enough : ∀ (i : Nat) (op : Opcode), code[i]? = some op → op.takes ≤ depth i
  /-- Wherever control goes there is an instruction, at the depth that is left. -/
  flows : ∀ (i : Nat) (op : Opcode), code[i]? = some op → ∀ j ∈ op.successors i,
    ∃ n : Nat, j = n ∧ n < code.length ∧ depth n = depth i - op.takes + op.leaves
  /-- The halt that closes the entry and the return that closes each function
  find an empty frame. -/
  closing : ∀ k < fragments.length, ∃ last, startOf fragments k ≤ last
    ∧ startOf fragments (k + 1) = last + 1
    ∧ code[last]? = some (if k = 0 then .halt else .ret) ∧ depth last = 0
  /-- A call goes to the start of a function. -/
  call : ∀ (i : Nat) (target : UInt64) (name : String), code[i]? = some (.call target name) →
    ∃ k, k + 1 < fragments.length ∧ target.toNat = startOf fragments (k + 1)

/-! ## §2. Runs. -/

/-- Where a run of a function is, and how many values its frame holds. -/
structure Frame where
  pc : Int
  depth : Int

/-- One step of a run, whatever the values are; the frame at hand comes first,
then those of the calls under way. -/
inductive FramesMove (code : Executable) : List Frame → List Frame → Prop where
  | next {i : Nat} {op : Opcode} {j d : Int} {callers : List Frame} :
      code[i]? = some op → (∀ target name, op ≠ .call target name) → j ∈ op.successors i →
      FramesMove code (⟨i, d⟩ :: callers) (⟨j, d - op.takes + op.leaves⟩ :: callers)
  | call {i : Nat} {target : UInt64} {name : String} {d : Int} {callers : List Frame} :
      code[i]? = some (.call target name) →
      FramesMove code (⟨i, d⟩ :: callers) (⟨target.toNat, 0⟩ :: ⟨i + 1, d - 1⟩ :: callers)
  | ret {i : Nat} {d : Int} {caller : Frame} {callers : List Frame} :
      code[i]? = some .ret → FramesMove code (⟨i, d⟩ :: caller :: callers) (caller :: callers)

/-- A run from the start always stands at an instruction and has in its frame
what that instruction takes. -/
def NeverUnderflows (code : Executable) : Prop :=
  ∀ frames, Relation.ReflTransGen (FramesMove code) [⟨0, 0⟩] frames →
    ∃ (i : Nat) (op : Opcode) (d : Int) (callers : List Frame),
      frames = ⟨i, d⟩ :: callers ∧ code[i]? = some op ∧ op.takes ≤ d

section Runs

variable {code : Executable} {fragments : List Fragment} {depth : Nat → Nat}

/-- The frame is at an instruction and as deep as that says. -/
def Frame.Settled (code : Executable) (depth : Nat → Nat) (frame : Frame) : Prop :=
  ∃ n : Nat, frame.pc = n ∧ n < code.length ∧ frame.depth = depth n

/-- Every function starts inside the program. -/
theorem Disciplined.start_lt (h : Disciplined code fragments depth) {k : Nat}
    (hk : k < fragments.length) : startOf fragments k < code.length := by
  obtain ⟨last, hle, -, hop, -⟩ := h.closing k hk
  obtain ⟨hlt, -⟩ := List.getElem?_eq_some_iff.mp hop
  omega

/-- One step keeps all frames settled: a step inside a function changes the depth as its instruction
says, a call starts a frame that is empty, and a return comes back to one that was settled. -/
theorem Disciplined.step (h : Disciplined code fragments depth) {frames frames' : List Frame}
    (hsettled : ∀ frame ∈ frames, frame.Settled code depth)
    (hmove : FramesMove code frames frames') :
    frames' ≠ [] ∧ ∀ frame ∈ frames', frame.Settled code depth := by
  cases hmove with
  | @next i op j d callers hop hcall hj =>
    rw [List.forall_mem_cons] at hsettled
    obtain ⟨⟨n, hn, -, hd⟩, hcallers⟩ := hsettled
    obtain rfl : i = n := by simpa using hn
    have henough := h.enough i op hop
    obtain ⟨m, hm, hlt, hdepth⟩ := h.flows i op hop j hj
    refine ⟨List.cons_ne_nil _ _, List.forall_mem_cons.mpr ⟨⟨m, hm, hlt, ?_⟩, hcallers⟩⟩
    show d - op.takes + op.leaves = depth m
    have hd : d = depth i := hd
    omega
  | @call i target name d callers hop =>
    rw [List.forall_mem_cons] at hsettled
    obtain ⟨⟨n, hn, -, hd⟩, hcallers⟩ := hsettled
    obtain rfl : i = n := by simpa using hn
    have hd : d = depth i := hd
    have henough : 1 ≤ depth i := h.enough i _ hop
    obtain ⟨k, hk, htarget⟩ := h.call i target name hop
    -- the callee starts empty, and the caller goes on without the argument
    have hcallee : Frame.Settled code depth ⟨target.toNat, 0⟩ := by
      refine ⟨target.toNat, rfl, ?_, ?_⟩
      · rw [htarget]
        exact h.start_lt hk
      · rw [htarget, h.start (k + 1) hk]
        rfl
    have hcaller : Frame.Settled code depth ⟨i + 1, d - 1⟩ := by
      obtain ⟨m, hm, hlt, hdepth⟩ := h.flows i _ hop (i + 1) (by simp [Opcode.successors])
      have hdepth : depth m = depth i - 1 + 0 := hdepth
      refine ⟨m, hm, hlt, ?_⟩
      show d - 1 = depth m
      omega
    exact ⟨List.cons_ne_nil _ _,
      List.forall_mem_cons.mpr ⟨hcallee, List.forall_mem_cons.mpr ⟨hcaller, hcallers⟩⟩⟩
  | ret hop =>
    rw [List.forall_mem_cons] at hsettled
    exact ⟨List.cons_ne_nil _ _, hsettled.2⟩

/-- Every run finds what it takes in its frame, by induction on its steps. -/
theorem Disciplined.neverUnderflows (h : Disciplined code fragments depth)
    (hpos : 0 < fragments.length) : NeverUnderflows code := by
  have hreach {frames : List Frame}
      (hrun : Relation.ReflTransGen (FramesMove code) [⟨0, 0⟩] frames) :
      frames ≠ [] ∧ ∀ frame ∈ frames, frame.Settled code depth := by
    induction hrun with
    | refl =>
      refine ⟨List.cons_ne_nil _ _, List.forall_mem_singleton.mpr ⟨0, rfl, h.start_lt hpos, ?_⟩⟩
      rw [show depth 0 = 0 from h.start 0 hpos]
      rfl
    | tail _ hmove ih => exact h.step ih.2 hmove
  intro frames hrun
  obtain ⟨hne, hsettled⟩ := hreach hrun
  obtain ⟨⟨pc, d⟩, callers, rfl⟩ := List.exists_cons_of_ne_nil hne
  obtain ⟨n, hpc, hlt, hd⟩ := hsettled _ List.mem_cons_self
  obtain rfl : pc = n := hpc
  have henough := h.enough n _ (List.getElem?_eq_getElem hlt)
  refine ⟨n, code[n], d, callers, rfl, List.getElem?_eq_getElem hlt, ?_⟩
  have hd : d = depth n := hd
  omega

end Runs

/-! ## §3. Linking. -/

/-- The fragments are an entry that halts at the end and functions that return
at the end. -/
def Closes (fragments : List Fragment) : Prop :=
  ∀ (k : Nat) (f : Fragment), fragments[k]? = some f →
    ∃ body, f = body ++ [.op (if k = 0 then .halt else .ret)]

/-- What there is to link keeps the discipline part by part. -/
structure Composed (u : Unlinked) : Prop where
  closes : Closes u.fragments
  isSealed : ∀ f ∈ u.fragments, Sealed f
  leaves : ∀ f ∈ u.fragments, Leaves 0 f

section Linking

variable {table : FunctionTable} {f : Fragment} {code : Executable}

/-- A call that is resolved takes its argument as before, and a parameter is a value as before. -/
theorem Resolves.alike {instr : Instr} {op : Opcode} (h : Resolves table instr op) :
    instr.Alike (.op op) := by
  cases h <;> exact ⟨rfl, rfl, fun _ => rfl⟩

/-- The opcodes of a program count as the instructions that they come from. -/
theorem alike_of_resolves (h : List.Forall₂ (Resolves table) f code) :
    List.Forall₂ Instr.Alike f (ofOps code) :=
  List.forall₂_map_right_iff.mpr (h.imp fun _ _ => Resolves.alike)

/-- Parts that leave the stack as they found it do so one after the other. -/
theorem leaves_flatten {fs : List Fragment} (h : ∀ f ∈ fs, Leaves 0 f) :
    Leaves 0 fs.flatten := by
  induction fs with
  | nil => exact leaves_nil
  | cons f fs ih =>
    rw [List.forall_mem_cons] at h
    rw [List.flatten_cons]
    exact h.1.append (by decide) (ih h.2)

/-- In front of each of the fragments the count is back at zero. -/
theorem depthAt_startOf {fs : List Fragment} (h : ∀ f ∈ fs, Leaves 0 f) (k : Nat) :
    depthAt fs.flatten (startOf fs k) = 0 := by
  have hsplit : fs.flatten = (fs.take k).flatten ++ (fs.drop k).flatten := by
    rw [← List.flatten_append, List.take_append_drop]
  have hfront : Leaves 0 (fs.take k).flatten :=
    leaves_flatten fun f hf => h f (List.mem_of_mem_take hf)
  rw [startOf, hsplit, depthAt_append_length, hfront.rise]

/-- An opcode of a fragment is where it was after linking. -/
theorem getElem?_of_resolves (h : List.Forall₂ (Resolves table) f code) {i : Nat} {op : Opcode}
    (hop : f[i]? = some (.op op)) : code[i]? = some op := by
  obtain ⟨hi, hget⟩ := List.getElem?_eq_some_iff.mp hop
  have hlength := h.length_eq
  have hresolves := h.get (i := i) hi (by omega)
  rw [List.get_eq_getElem, List.get_eq_getElem, hget] at hresolves
  generalize hop' : code[i] = op' at hresolves
  cases hresolves
  rw [List.getElem?_eq_getElem (by omega), hop']

/-- A program that was linked from such parts has a depth everywhere.  It is what counting from the
first instruction gives: each part leaves nothing behind, so the count is zero again where the next
one starts. -/
theorem exists_disciplined_of_link {u : Unlinked} {declareFirst : Bool} (hu : Composed u)
    (h : link u declareFirst = .ok code) (hlen : code.length < 2 ^ 31) :
    ∃ depth, Disciplined code u.fragments depth := by
  obtain ⟨p, hplaced, hresolved⟩ := placed_of_link h
  have hcode : p.code = u.fragments.flatten := hplaced.code
  rw [hcode] at hresolved
  have hlength := hresolved.length_eq
  have halike := alike_of_resolves hresolved
  have hlevel := ((leaves_flatten hu.leaves).alike halike).level (by simpa using hlen)
  have hlands := (lands_flatten hu.isSealed (by omega)).alike halike
  -- the depth of an instruction is what counting from the first one gives
  have hstart (k : Nat) : depthAt (ofOps code) (startOf u.fragments k) = 0 := by
    rw [← depthAt_alike halike, depthAt_startOf hu.leaves]
  have hget {i : Nat} {op : Opcode} (hop : code[i]? = some op) :
      (ofOps code)[i]? = some (.op op) := by
    rw [ofOps, List.getElem?_map, hop]
    rfl
  refine ⟨fun i => (depthAt (ofOps code) i).toNat, ?_⟩
  constructor
  case start =>
    intro k _
    rw [hstart]
    rfl
  case enough =>
    intro i op hop
    have htakes := (hlevel i _ (hget hop)).1
    simp only [List.nil_append, List.append_nil, List.length_nil, Nat.zero_add] at htakes
    have htakes : (op.takes : Int) ≤ 0 + depthAt (ofOps code) i := htakes
    omega
  case flows =>
    intro i op hop j hj
    obtain ⟨htakes, hflows⟩ := hlevel i _ (hget hop)
    simp only [List.nil_append, List.append_nil, List.length_nil, Nat.zero_add] at htakes hflows
    have htakes : (op.takes : Int) ≤ 0 + depthAt (ofOps code) i := htakes
    obtain ⟨n, hn, -, hdepth⟩ := hflows j hj
    have hdepth : depthAt (ofOps code) n
        = depthAt (ofOps code) i + ((op.leaves : Int) - op.takes) := hdepth
    have hbound := hlands i _ (hget hop) j hj
    exact ⟨n, hn, by omega, by omega⟩
  case closing =>
    intro k hk
    have hk := List.getElem?_eq_getElem hk
    obtain ⟨body, hbody⟩ := hu.closes k _ hk
    generalize u.fragments[k] = f at hk hbody
    have hnext := startOf_succ hk
    have hop : u.fragments.flatten[startOf u.fragments k + body.length]?
        = some (.op (if k = 0 then .halt else .ret)) := by
      rw [getElem?_flatten hk (by simp [hbody]), hbody]
      simp
    have hop := getElem?_of_resolves hresolved hop
    refine ⟨startOf u.fragments k + body.length, by omega, ?_, hop, ?_⟩
    · rw [hnext, hbody, List.length_append]
      rfl
    · -- a halt and a return leave the count as it is, and behind it the next part starts
      have hsucc := depthAt_succ (hget hop)
      have hzero := hstart (k + 1)
      rw [hnext, hbody, List.length_append, ← Nat.add_assoc] at hzero
      have hgain : Instr.gain (.op (if k = 0 then .halt else .ret)) = 0 := by split <;> rfl
      rw [hgain] at hsucc
      show (depthAt (ofOps code) (startOf u.fragments k + body.length)).toNat = 0
      have hzero : depthAt (ofOps code) (startOf u.fragments k + body.length + 1) = 0 := hzero
      omega
  case call =>
    intro i target name hop
    obtain ⟨segments, hflatten, hsegments⟩ := exists_segments hresolved
    rw [hflatten] at hop hresolved hlen
    obtain ⟨k, hk, htarget⟩ := exists_start_of_call hplaced hresolved hsegments
      (fun f hf => (hu.isSealed f hf).callsByName) hlen hop
    refine ⟨k, ?_, ?_⟩
    · rw [← hsegments.length_eq] at hk
      exact hk
    · rw [htarget, ← startOf_eq_of_forall₂ hsegments]

end Linking

/-! ## §4. Compiled programs. -/

/-- What every statement has, as far as the stack and control are concerned. -/
theorem statementwise_composed :
    Statementwise fun f => Closed f ∧ CallsByName f ∧ Leaves 0 f :=
  statementwise_closed.and (statementwise_callsByName.and statementwise_leaves)

/-- Parts made from closed code that calls by name and leaves nothing are such parts themselves,
whether the entry or the body of a function. -/
theorem Composed.of_parts {u : Unlinked} {main : Fragment} {closing : Token}
    (hmain : Closed main ∧ CallsByName main ∧ Leaves 0 main)
    (hentry : u.entry = entry main closing)
    (hbodies : ∀ f ∈ bodies u.declarations, ∃ case name param body,
      (Closed body ∧ CallsByName body ∧ Leaves 0 body)
        ∧ (Declaration.function case name param body).body = some f) :
    Composed u := by
  constructor
  case closes =>
    intro k f hk
    cases k with
    | zero =>
      cases hk
      rw [hentry]
      exact ⟨main ++ [.op (lineOp closing.endLine)], by simp [entry]⟩
    | succ k =>
      obtain ⟨case, name, param, body, -, hf⟩ := hbodies f (List.mem_of_getElem? hk)
      cases hf
      exact ⟨_, rfl⟩
  case isSealed =>
    refine List.forall_mem_cons.mpr ⟨?_, fun f hf => ?_⟩
    · rw [hentry]
      exact sealed_entry hmain.1 hmain.2.1 closing
    · obtain ⟨case, name, param, body, hbody, hf⟩ := hbodies f hf
      exact sealed_function hbody.1 hbody.2.1 hf
  case leaves =>
    refine List.forall_mem_cons.mpr ⟨?_, fun f hf => ?_⟩
    · rw [hentry]
      exact leaves_entry hmain.2.2 closing
    · obtain ⟨case, name, param, body, hbody, hf⟩ := hbodies f hf
      exact leaves_function hbody.2.2 hf

/-- A braced program is lowered to such parts. -/
theorem Braced.Program.composed (p : Braced.Program) : Composed p.lower := by
  refine .of_parts (statementwise_composed.braced p.main.block.body) rfl fun f hf => ?_
  obtain ⟨_, hd, hbody⟩ := List.mem_filterMap.mp hf
  obtain ⟨d, _, rfl⟩ := List.mem_map.mp hd
  exact ⟨_, _, _, _, statementwise_composed.braced d.block.body, hbody⟩

/-- A worded program is lowered to such parts; its prototypes add none. -/
theorem Worded.Program.composed (p : Worded.Program) : Composed p.lower := by
  refine .of_parts (statementwise_composed.worded p.main.body) rfl fun f hf => ?_
  obtain ⟨_, hd, hbody⟩ := List.mem_filterMap.mp hf
  obtain ⟨d, _, rfl⟩ := List.mem_map.mp hd
  cases d with
  | full keyword name parameter as_ body =>
    exact ⟨_, _, _, _, statementwise_composed.worded body, hbody⟩
  | prototype keyword name parameter semicolon => cases hbody

/-- What a source that compiles gives to link is composed of such parts. -/
theorem Dialect.exists_composed_of_compile {dialect : Dialect} {source : String}
    {code : Executable} (h : dialect.compile source = .ok code) :
    ∃ u declareFirst, dialect.lower source = .ok u ∧ Composed u
      ∧ link u declareFirst = .ok code := by
  cases dialect with
  | braced =>
    simp only [Dialect.compile, Braced.compile] at h
    cases hparse : Braced.parse source with
    | error failure => simp [hparse, bind, Except.bind] at h
    | ok parsed =>
      refine ⟨parsed.program.lower, false, ?_, parsed.program.composed, ?_⟩
      · simp [Dialect.lower, hparse, Except.map]
      · simpa [hparse, bind, Except.bind] using h
  | worded =>
    simp only [Dialect.compile, Worded.compile] at h
    cases hparse : Worded.parse source with
    | error failure => simp [hparse, bind, Except.bind] at h
    | ok parsed =>
      refine ⟨parsed.program.lower, true, ?_, parsed.program.composed, ?_⟩
      · simp [Dialect.lower, hparse, Except.map]
      · simpa [hparse, bind, Except.bind] using h

/-- **The stack discipline of compiled programs.**  Every instruction has a depth
that is the same on every path to it, the entry and the functions start and end
with an empty frame, and so no run takes a value that its frame does not hold. -/
theorem compile_keeps_stack_discipline {dialect : Dialect} {source : String} {code : Executable}
    (hcompile : dialect.compile source = .ok code) (hlen : code.length < 2 ^ 31) :
    ∃ u depth, dialect.lower source = .ok u ∧ Disciplined code u.fragments depth
      ∧ NeverUnderflows code := by
  obtain ⟨u, declareFirst, hlower, hcomposed, hlink⟩ := Dialect.exists_composed_of_compile hcompile
  obtain ⟨depth, hdepth⟩ := exists_disciplined_of_link hcomposed hlink hlen
  exact ⟨u, depth, hlower, hdepth, hdepth.neverUnderflows (Nat.succ_pos _)⟩

/-- A function that counts inside a loop with a test, and calls itself there. -/
def countingCalls : String :=
  "class program\x7bvoid f(n)\x7bwhile(frontIsClear)iterate(succ(n))\x7bif(iszero(n))f(pred(n));\x7d\x7d"
    ++ "program()\x7biterate(2)f(1);\x7d\x7d"

/-- The sample compiles to forty-six instructions, by running the compiler. -/
theorem length_compile_countingCalls :
    (Dialect.braced.compile countingCalls).toOption.map List.length = some 46 := by
  decide +kernel

/-- The counters of the two repetitions stay below the calls made inside of them, so the sample has
a depth at every instruction and never takes what is not there. -/
theorem countingCalls_keeps_stack_discipline :
    ∃ code, Dialect.braced.compile countingCalls = .ok code ∧ code.length < 2 ^ 31
      ∧ ∃ u depth, Dialect.braced.lower countingCalls = .ok u ∧ Disciplined code u.fragments depth
        ∧ NeverUnderflows code := by
  have hlength := length_compile_countingCalls
  generalize hcompile : Dialect.braced.compile countingCalls = compiled at hlength ⊢
  cases compiled with
  | error failure => simp [Except.toOption] at hlength
  | ok code =>
    have hlen : code.length = 46 := by simpa [Except.toOption] using hlength
    exact ⟨code, rfl, by omega, compile_keeps_stack_discipline hcompile (by omega)⟩

end RobotLang
