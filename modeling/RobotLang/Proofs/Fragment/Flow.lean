/-
  RobotLang.Proofs.Fragment.Flow
  ──────────────────────────────
  **WHERE CONTROL CAN GO FROM EACH INSTRUCTION OF A FRAGMENT.**

  Positions are counted from the first instruction of a fragment, so those in
  front of it are negative:

      Lands lo hi f      from everywhere in `f` control goes into [lo, hi]

  A fragment is closed when it lands on itself or right behind it.  Every
  construct is closed if its parts are, as long as its offsets fit the
  operand of a jump; so the code of every statement is closed.
-/
import RobotLang.Braced.Lowering
import RobotLang.Worded.Lowering
import Mathlib.Algebra.Group.Nat.Defs

namespace RobotLang

/-! ## §1. Successors. -/

/-- Where control can be after the instruction at `i`, calls being over. -/
def Opcode.successors (i : Int) : Opcode → List Int
  | .halt | .ret => []
  | .jmp offset => [i + 1 + offset.toInt]
  | .jz offset => [i + 1, i + 1 + offset.toInt]
  | _ => [i + 1]

/-- Names do not matter to control. -/
def Instr.successors (i : Int) : Instr → List Int
  | .op opcode => opcode.successors i
  | .call _ _ | .param _ => [i + 1]

/-- Control is relative: an opcode that stands `k` places further on goes `k` places further on. -/
theorem Opcode.mem_successors_add {op : Opcode} {i j k : Int} :
    j ∈ op.successors (i + k) ↔ j - k ∈ op.successors i := by
  cases op <;> simp only [Opcode.successors, List.mem_cons, List.not_mem_nil, or_false] <;> omega

/-- Control is relative for instructions too, whether their names are resolved or not. -/
theorem Instr.mem_successors_add {instr : Instr} {i j k : Int} :
    j ∈ instr.successors (i + k) ↔ j - k ∈ instr.successors i := by
  cases instr with
  | op opcode => exact Opcode.mem_successors_add
  | call | param =>
    simp only [Instr.successors, List.mem_cons, List.not_mem_nil, or_false]
    omega

namespace Fragment

/-! ## §2. Offsets. -/

section Offsets

variable {f g : Fragment}

/-- The span of a fragment is its length, as long as that fits an operand. -/
theorem toInt_span (h : f.length < 2 ^ 31) : (span f).toInt = f.length :=
  Int32.toInt_ofNat_of_lt h

/-- The offset over a fragment and `k` more instructions, as long as it fits an operand. -/
theorem toInt_span_add (k : Nat) (h : f.length + k < 2 ^ 31) :
    (span f + Int32.ofNat k).toInt = f.length + k := by
  rw [span, ← Int32.ofNat_add, Int32.toInt_ofNat_of_lt h]
  rfl

/-- The offset back over a fragment and `k` more instructions. -/
theorem toInt_neg_span_add (k : Nat) (h : f.length + k < 2 ^ 31) :
    (-(span f + Int32.ofNat k)).toInt = -(f.length + k) := by
  rw [Int32.toInt_neg, toInt_span_add k h]
  exact Int.bmod_eq_of_le (by omega) (by omega)

/-- The offset from the end of a loop back over its body and its test. -/
theorem toInt_neg_spans (h : f.length + g.length + 2 < 2 ^ 31) :
    (-(span f + span g + 2)).toInt = -(f.length + g.length + 2) := by
  have hsum : span f + span g = span (f ++ g) := by
    rw [span, span, span, ← Int32.ofNat_add, List.length_append]
  have hlen := toInt_neg_span_add (f := f ++ g) 2 (by simpa using h)
  rw [hsum]
  simpa using hlen

end Offsets

/-! ## §3. Landing. -/

/-- From everywhere in the fragment control goes into [lo, hi]. -/
def Lands (lo hi : Int) (f : Fragment) : Prop :=
  ∀ (i : Nat) (instr : Instr), f[i]? = some instr →
    ∀ j ∈ instr.successors i, lo ≤ j ∧ j ≤ hi

section Lands

variable {lo hi lo' hi' : Int} {f g : Fragment}

theorem lands_nil : Lands lo hi [] := by
  intro i instr hi
  simp at hi

/-- A wider range may only be asked of the same code. -/
theorem Lands.mono (h : Lands lo hi f) (hlo : lo' ≤ lo) (hhi : hi ≤ hi') : Lands lo' hi' f := by
  intro i instr hinstr j hj
  have := h i instr hinstr j hj
  omega

/-- Positions behind the first part are counted from its end in the second. -/
theorem Lands.append (hf : Lands lo hi f) (hg : Lands (lo - f.length) (hi - f.length) g) :
    Lands lo hi (f ++ g) := by
  intro i instr hinstr j hj
  by_cases hlt : i < f.length
  · rw [List.getElem?_append_left hlt] at hinstr
    exact hf i instr hinstr j hj
  · have hge : f.length ≤ i := Nat.not_lt.mp hlt
    rw [List.getElem?_append_right hge] at hinstr
    have hshift : (i : Int) = ((i - f.length : Nat) : Int) + f.length := by omega
    rw [hshift, Instr.mem_successors_add] at hj
    have := hg _ instr hinstr _ hj
    omega

/-- One instruction lands where it can go from position zero. -/
theorem lands_singleton {instr : Instr} (h : ∀ j ∈ instr.successors 0, lo ≤ j ∧ j ≤ hi) :
    Lands lo hi [instr] := by
  intro i instr' hinstr
  rw [List.getElem?_singleton] at hinstr
  split at hinstr
  · next hi0 =>
    cases hinstr
    subst hi0
    exact h
  · cases hinstr

/-- Behind its first instruction, a fragment counts its positions from one further on. -/
theorem Lands.cons {instr : Instr} (h : ∀ j ∈ instr.successors 0, lo ≤ j ∧ j ≤ hi)
    (hf : Lands (lo - 1) (hi - 1) f) : Lands lo hi (instr :: f) :=
  (lands_singleton h).append (by simpa using hf)

/-- Renaming does not move control. -/
theorem Lands.map {rename : Instr → Instr}
    (hrename : ∀ (instr : Instr) (i : Int), (rename instr).successors i = instr.successors i)
    (h : Lands lo hi f) : Lands lo hi (f.map rename) := by
  intro i instr hinstr j hj
  rw [List.getElem?_map] at hinstr
  obtain ⟨instr', hinstr', rfl⟩ := Option.map_eq_some_iff.mp hinstr
  rw [hrename] at hj
  exact h i instr' hinstr' j hj

end Lands

/-! ## §4. Closed fragments. -/

/-- If its offsets fit, the fragment lands on itself or right behind it. -/
def Closed (f : Fragment) : Prop :=
  f.length < 2 ^ 31 → Lands 0 f.length f

section Closed

variable {f g test yes no body count : Fragment} {t : Token}

theorem closed_nil : Closed [] :=
  fun _ => lands_nil

/-- The end of the first part is the start of the second, so nothing leaves both. -/
theorem Closed.append (hf : Closed f) (hg : Closed g) : Closed (f ++ g) := by
  intro hlen
  rw [List.length_append] at hlen ⊢
  have hf' := hf (by omega)
  have hg' := hg (by omega)
  exact (hf'.mono (by omega) (by omega)).append (hg'.mono (by omega) (by omega))

/-- A step to the next instruction, and nothing else. -/
theorem closed_singleton {instr : Instr} (h : ∀ j ∈ instr.successors 0, j = 1) :
    Closed [instr] := by
  intro _
  refine lands_singleton fun j hj => ?_
  rw [h j hj]
  simp

/-- Opcodes that only step on, one after the other. -/
theorem closed_ofOps {ops : List Opcode} (h : ∀ op ∈ ops, ∀ j ∈ op.successors 0, j = 1) :
    Closed (ofOps ops) := by
  induction ops with
  | nil => exact closed_nil
  | cons op ops ih =>
    have hop : Closed [.op op] := closed_singleton (h op (by simp))
    exact hop.append (ih fun op' hop' => h op' (by simp [hop']))

theorem closed_lineOf (t : Token) : Closed [lineOf t] :=
  closed_singleton (by simp [lineOf, lineOp, Instr.successors, Opcode.successors])

/-- An action steps on, or stops the program and goes nowhere. -/
theorem closed_builtin (action : Builtin) (t : Token) : Closed (builtin action t) := by
  have hops : Closed (ofOps (actionOps action)) :=
    closed_ofOps (by cases action <;> decide)
  exact (closed_lineOf t).append hops

/-- A call comes back behind itself, and its argument is worked out before it. -/
theorem closed_call (name : String) (t : Token) {argument : Option Fragment}
    (h : ∀ f ∈ argument, Closed f) : Closed (call name t argument) := by
  cases argument with
  | none =>
    refine (closed_lineOf t).append ?_
    refine Closed.append (f := [.op (.load 0)]) (closed_singleton (by decide)) ?_
    exact Closed.append (f := [.call name 1]) (closed_singleton (by simp [Instr.successors]))
      (closed_lineOf t)
  | some f =>
    refine ((closed_lineOf t).append (h f rfl)).append ?_
    exact Closed.append (f := [.call name 2]) (closed_singleton (by simp [Instr.successors]))
      (closed_lineOf t)

/-- A jump lands where its offset says. -/
theorem lands_jz {lo hi k : Int} {offset : Int32} (hk : offset.toInt = k)
    (hnext : lo ≤ 1 ∧ 1 ≤ hi) (hjump : lo ≤ 1 + k ∧ 1 + k ≤ hi) :
    Lands lo hi [.op (.jz offset)] := by
  refine lands_singleton fun j hj => ?_
  simp only [Instr.successors, Opcode.successors, List.mem_cons, List.not_mem_nil, or_false,
    hk] at hj
  omega

/-- A jump without a test lands only where its offset says. -/
theorem lands_jmp {lo hi k : Int} {offset : Int32} (hk : offset.toInt = k)
    (hjump : lo ≤ 1 + k ∧ 1 + k ≤ hi) : Lands lo hi [.op (.jmp offset)] := by
  refine lands_singleton fun j hj => ?_
  simp only [Instr.successors, Opcode.successors, List.mem_cons, List.not_mem_nil, or_false,
    hk] at hj
  omega

/-- A closed fragment lands in every range around it. -/
theorem Closed.lands (hf : Closed f) (hlen : f.length < 2 ^ 31) {lo hi : Int} (hlo : lo ≤ 0)
    (hhi : f.length ≤ hi) : Lands lo hi f :=
  (hf hlen).mono hlo hhi

/-- The jump over the branch lands behind it, and with a second branch at the start of that one; the
jump over the second branch lands at the very end. -/
theorem closed_cond (htest : Closed test) (hyes : Closed yes) {no : Option Fragment}
    (hno : ∀ f ∈ no, Closed f) : Closed (cond t test yes no) := by
  intro hlen
  cases no with
  | none =>
    have hl : (cond t test yes none).length = test.length + yes.length + 2 := by
      simp [cond]
      omega
    rw [hl] at hlen ⊢
    -- LINE test, JZ, yes; the jump goes right behind the end
    refine Lands.append (Lands.append ((closed_lineOf t).append htest |>.lands ?_ ?_ ?_)
      (lands_jz (toInt_span (by omega)) ?_ ?_)) (hyes.lands (by omega) ?_ ?_)
    all_goals simp
    all_goals omega
  | some no =>
    have hl : (cond t test yes (some no)).length
        = test.length + yes.length + no.length + 3 := by
      simp [cond]
      omega
    rw [hl] at hlen ⊢
    have hjz : (1 + span yes).toInt = yes.length + 1 := by
      rw [Int32.add_comm]
      exact toInt_span_add 1 (by omega)
    -- LINE test, JZ, yes, JMP, no; the first jump goes to `no`, the second behind it
    refine Lands.append (Lands.append (Lands.append (Lands.append
      ((closed_lineOf t).append htest |>.lands ?_ ?_ ?_) (lands_jz hjz ?_ ?_))
      (hyes.lands (by omega) ?_ ?_)) (lands_jmp (toInt_span (by omega)) ?_))
      ((hno no rfl).lands (by omega) ?_ ?_)
    all_goals simp
    all_goals omega

/-- The test leaves the loop right behind it, and the jump back lands at the test again, behind the
line it states. -/
theorem closed_whileDo (htest : Closed test) (hbody : Closed body) :
    Closed (whileDo t test body) := by
  intro hlen
  have hl : (whileDo t test body).length = test.length + body.length + 3 := by
    simp [whileDo]
    omega
  rw [hl] at hlen ⊢
  have hjz : (1 + span body).toInt = body.length + 1 := by
    rw [Int32.add_comm]
    exact toInt_span_add 1 (by omega)
  -- LINE test, JZ, body, JMP; the second jump goes back to the test
  refine Lands.append (Lands.append (Lands.append
    ((closed_lineOf t).append htest |>.lands ?_ ?_ ?_) (lands_jz hjz ?_ ?_))
    (hbody.lands (by omega) ?_ ?_)) (lands_jmp (toInt_neg_spans (by omega)) ?_)
  all_goals simp
  all_goals omega

/-- The counter is tested and counted down around the body, and dropped behind the loop.  The code
is seven pieces, and both jumps land on the start of one of them. -/
theorem closed_times (hcount : Closed count) (hbody : Closed body) :
    Closed (times t count body) := by
  intro hlen
  have hl : (times t count body).length = count.length + body.length + 9 := by
    simp [times]
    omega
  rw [hl] at hlen ⊢
  -- the parts between the jumps only go on
  have htest : Closed (ofOps [.dup, .load 0, .eq, .not]) := closed_ofOps (by decide)
  have hdec : Closed (ofOps [.dec]) := closed_ofOps (by decide)
  have hpop : Closed (ofOps [.pop]) := closed_ofOps (by decide)
  have hsplit : times t count body = (lineOf t :: count) ++ ofOps [.dup, .load 0, .eq, .not]
      ++ [Instr.op (.jz (span body + 2))] ++ body ++ ofOps [.dec]
      ++ [Instr.op (.jmp (-(span body + 7)))] ++ ofOps [.pop] := by
    simp [times, ofOps]
  rw [hsplit]
  -- the first jump goes to the POP, the second back to the DUP
  refine Lands.append (Lands.append (Lands.append (Lands.append (Lands.append (Lands.append
    ((closed_lineOf t).append hcount |>.lands ?_ ?_ ?_) (htest.lands (by decide) ?_ ?_))
    (lands_jz (toInt_span_add 2 (by omega)) ?_ ?_)) (hbody.lands (by omega) ?_ ?_))
    (hdec.lands (by decide) ?_ ?_)) (lands_jmp (toInt_neg_span_add 7 (by omega)) ?_))
    (hpop.lands (by decide) ?_ ?_)
  all_goals simp
  all_goals omega

/-- Numbers are worked out step by step. -/
theorem closed_ofInteger (case : NameCase) (n : Integer) : Closed (ofInteger case n) := by
  induction n with
  | name token => exact closed_singleton (by simp [Instr.successors])
  | literal token value => exact closed_singleton (by simp [Instr.successors, Opcode.successors])
  | succ keyword left inner right ih | pred keyword left inner right ih =>
    exact ih.append (closed_singleton (by decide))

/-- Both sides of an operator are worked out; no jump cuts them short. -/
theorem closed_ofCondition (case : NameCase) {level : Level} (c : Condition level) :
    Closed (ofCondition case c) := by
  induction c with
  | conj c ih | lit c ih | plain c ih => exact ih
  | or left operator right ihl ihr | and left operator right ihl ihr =>
    exact (ihl.append ihr).append (closed_singleton (by decide))
  | not operator c ih => exact ih.append (closed_singleton (by decide))
  | isZero keyword left number right =>
    exact (closed_ofInteger case number).append (closed_singleton (by decide))
  | sensor x keyword | sensorCall x keyword left right =>
    exact closed_ofOps (by cases x <;> decide)
  | paren left c right ih => exact ih

end Closed

end Fragment

/-! ## §5. The code of statements. -/

/-- What every construct has if its statements have it. -/
structure Statementwise (P : Fragment → Prop) : Prop where
  nil : P []
  append : ∀ {f g : Fragment}, P f → P g → P (f ++ g)
  builtin : ∀ action t, P (.builtin action t)
  call : ∀ case name t (argument : Option Integer),
    P (.call name t (argument.map (.ofInteger case)))
  cond : ∀ case t (test : Condition .term) {yes : Fragment} {no : Option Fragment},
    P yes → (∀ f ∈ no, P f) → P (.cond t (.ofCondition case test) yes no)
  whileDo : ∀ case t (test : Condition .term) {body : Fragment}, P body →
    P (.whileDo t (.ofCondition case test) body)
  times : ∀ case t (count : Integer) {body : Fragment}, P body →
    P (.times t (.ofInteger case count) body)

namespace Statementwise

variable {P Q : Fragment → Prop}

/-- Two such properties are one. -/
theorem and (hP : Statementwise P) (hQ : Statementwise Q) :
    Statementwise fun f => P f ∧ Q f where
  nil := ⟨hP.nil, hQ.nil⟩
  append hf hg := ⟨hP.append hf.1 hg.1, hQ.append hf.2 hg.2⟩
  builtin action t := ⟨hP.builtin action t, hQ.builtin action t⟩
  call case name t argument := ⟨hP.call case name t argument, hQ.call case name t argument⟩
  cond case t test _ _ hyes hno :=
    ⟨hP.cond case t test hyes.1 fun f hf => (hno f hf).1,
      hQ.cond case t test hyes.2 fun f hf => (hno f hf).2⟩
  whileDo case t test _ hbody := ⟨hP.whileDo case t test hbody.1, hQ.whileDo case t test hbody.2⟩
  times case t count _ hbody := ⟨hP.times case t count hbody.1, hQ.times case t count hbody.2⟩

/-- All code of the braced dialect has it. -/
theorem braced (h : Statementwise P) {part : Braced.Part} (c : Braced.Code part) :
    P c.lower := by
  induction c with
  | nil | empty => exact h.nil
  | cons head tail ihh iht => exact h.append ihh iht
  | builtin action keyword => exact h.builtin action keyword
  | call name left argument => exact h.call _ _ name argument
  | cond keyword left test right yes ih => exact h.cond _ keyword test ih (by simp)
  | condElse keyword left test right yes otherwise no ihy ihn =>
    exact h.cond _ keyword test ihy (by simpa using ihn)
  | whileDo keyword left test right body ih => exact h.whileDo _ keyword test ih
  | times keyword left count right body ih => exact h.times _ keyword count ih
  | block left body right ih => exact ih

/-- All code of the worded dialect has it. -/
theorem worded (h : Statementwise P) {part : Worded.Part} (c : Worded.Code part) :
    P c.lower := by
  induction c with
  | nil | empty => exact h.nil
  | cons head tail ihh iht => exact h.append ihh iht
  | ended command semicolon ih => exact ih
  | builtin action keyword => exact h.builtin action keyword
  | call name => exact h.call .insensitive _ name none
  | callWith name left argument => exact h.call _ _ name (some argument)
  | cond keyword test then_ yes ih => exact h.cond _ keyword test ih (by simp)
  | condElse keyword test then_ yes otherwise no ihy ihn =>
    exact h.cond _ keyword test ihy (by simpa using ihn)
  | whileDo keyword test do_ body ih => exact h.whileDo _ keyword test ih
  | times keyword count unit body ih => exact h.times _ keyword count ih
  | block opening body closing ih => exact ih

end Statementwise

open Fragment

/-- The code of every statement is closed. -/
theorem statementwise_closed : Statementwise Closed where
  nil := closed_nil
  append := Closed.append
  builtin := closed_builtin
  call case name t argument := by
    refine closed_call name t fun f hf => ?_
    obtain ⟨n, _, rfl⟩ := Option.map_eq_some_iff.mp hf
    exact closed_ofInteger case n
  cond case _ test _ _ hyes hno := closed_cond (closed_ofCondition case test) hyes hno
  whileDo case _ test := closed_whileDo (closed_ofCondition case test)
  times case _ count := closed_times (closed_ofInteger case count)

/-! ## §6. Calls by name. -/

/-- The instruction is a call whose target is already known. -/
def Instr.isLinkedCall : Instr → Bool
  | .op (.call _ _) => true
  | _ => false

namespace Fragment

/-- All calls of the fragment are by name. -/
def CallsByName (f : Fragment) : Prop :=
  f.any Instr.isLinkedCall = false

/-- Before linking no call has a target. -/
theorem CallsByName.not_mem {f : Fragment} (h : CallsByName f) (target : UInt64) (name : String) :
    Instr.op (.call target name) ∉ f := by
  intro hmem
  simpa [Instr.isLinkedCall] using List.any_eq_false.mp h _ hmem

@[simp] theorem callsByName_nil : CallsByName [] := rfl

@[simp] theorem callsByName_append {f g : Fragment} :
    CallsByName (f ++ g) ↔ CallsByName f ∧ CallsByName g := by
  simp [CallsByName]

@[simp] theorem callsByName_cons {instr : Instr} {f : Fragment} :
    CallsByName (instr :: f) ↔ instr.isLinkedCall = false ∧ CallsByName f := by
  simp [CallsByName]

theorem callsByName_builtin (action : Builtin) (t : Token) : CallsByName (builtin action t) := by
  cases action <;> simp [builtin, actionOps, ofOps, lineOf, lineOp, Instr.isLinkedCall]

/-- A call is by name if what its argument calls is. -/
theorem callsByName_call (name : String) (t : Token) {argument : Option Fragment}
    (h : ∀ f ∈ argument, CallsByName f) : CallsByName (call name t argument) := by
  cases argument with
  | none => simp [call, lineOf, lineOp, Instr.isLinkedCall]
  | some f => simp [call, lineOf, lineOp, Instr.isLinkedCall, h f rfl]

/-- A conditional calls what its test and its branches call. -/
theorem callsByName_cond {t : Token} {test yes : Fragment} {no : Option Fragment}
    (htest : CallsByName test) (hyes : CallsByName yes) (hno : ∀ f ∈ no, CallsByName f) :
    CallsByName (cond t test yes no) := by
  cases no with
  | none => simp [cond, lineOf, lineOp, Instr.isLinkedCall, htest, hyes]
  | some no => simp [cond, lineOf, lineOp, Instr.isLinkedCall, htest, hyes, hno no rfl]

/-- A loop calls what its test and its body call. -/
theorem callsByName_whileDo {t : Token} {test body : Fragment} (htest : CallsByName test)
    (hbody : CallsByName body) : CallsByName (whileDo t test body) := by
  simp [whileDo, lineOf, lineOp, Instr.isLinkedCall, htest, hbody]

/-- A repetition calls what its count and its body call. -/
theorem callsByName_times {t : Token} {count body : Fragment} (hcount : CallsByName count)
    (hbody : CallsByName body) : CallsByName (times t count body) := by
  simp [times, ofOps, lineOf, lineOp, Instr.isLinkedCall, hcount, hbody]

theorem callsByName_ofInteger (case : NameCase) (n : Integer) :
    CallsByName (ofInteger case n) := by
  induction n with
  | name token | literal token value => simp [ofInteger, Instr.isLinkedCall]
  | succ keyword left inner right ih | pred keyword left inner right ih =>
    simp [ofInteger, Instr.isLinkedCall, ih]

/-- Conditions call nothing at all. -/
theorem callsByName_ofCondition (case : NameCase) {level : Level} (c : Condition level) :
    CallsByName (ofCondition case c) := by
  induction c with
  | conj c ih | lit c ih | plain c ih => exact ih
  | or left operator right ihl ihr | and left operator right ihl ihr =>
    simp [ofCondition, Instr.isLinkedCall, ihl, ihr]
  | not operator c ih => simp [ofCondition, Instr.isLinkedCall, ih]
  | isZero keyword left number right =>
    simp [ofCondition, Instr.isLinkedCall, callsByName_ofInteger]
  | sensor x keyword | sensorCall x keyword left right =>
    cases x <;> rfl
  | paren left c right ih => exact ih

/-- Resolving the parameter leaves calls as they are. -/
theorem CallsByName.map_bindParam {f : Fragment} (h : CallsByName f) (param : Option String) :
    CallsByName (f.map (bindParam param)) := by
  have hbind : Instr.isLinkedCall ∘ bindParam param = Instr.isLinkedCall := by
    funext instr
    cases instr with
    | param name =>
      simp only [Function.comp_apply, bindParam]
      split <;> rfl
    | _ => rfl
  rwa [CallsByName, List.any_map, hbind]

end Fragment

/-- The code of every statement calls by name. -/
theorem statementwise_callsByName : Statementwise CallsByName where
  nil := callsByName_nil
  append hf hg := callsByName_append.mpr ⟨hf, hg⟩
  builtin := callsByName_builtin
  call case name t argument := by
    refine callsByName_call name t fun f hf => ?_
    obtain ⟨n, _, rfl⟩ := Option.map_eq_some_iff.mp hf
    exact callsByName_ofInteger case n
  cond case _ test := callsByName_cond (callsByName_ofCondition case test)
  whileDo case _ test := callsByName_whileDo (callsByName_ofCondition case test)
  times case _ count := callsByName_times (callsByName_ofInteger case count)

/-! ## §7. Sealed fragments. -/

namespace Fragment

/-- All calls are by name and, if the offsets fit, control never leaves the
fragment. -/
structure Sealed (f : Fragment) : Prop where
  lands : f.length < 2 ^ 31 → Lands 0 (f.length - 1) f
  callsByName : CallsByName f

/-- Closed code in front of an end that never goes on. -/
theorem Closed.sealed {f tail : Fragment} (hf : Closed f) (hcalls : CallsByName (f ++ tail))
    (hpos : 0 < tail.length) (htail : Lands 0 (tail.length - 1) tail) : Sealed (f ++ tail) := by
  refine ⟨fun hlen => ?_, hcalls⟩
  rw [List.length_append] at hlen ⊢
  exact (hf.lands (by omega) (by omega) (by omega)).append
    (htail.mono (by omega) (by omega))

/-- The main part stops at its end, so control never leaves it. -/
theorem sealed_entry {main : Fragment} (h : Closed main) (hcalls : CallsByName main)
    (closing : Token) : Sealed (entry main closing) := by
  refine h.sealed (by simp [hcalls, lineOp, Instr.isLinkedCall]) (by simp)
    (Lands.cons ?_ (lands_singleton ?_))
  · simp [lineOp, Instr.successors, Opcode.successors]
  · simp [Instr.successors, Opcode.successors]

/-- Control never leaves sealed fragments that stand one after another. -/
theorem lands_flatten {fs : List Fragment} (h : ∀ f ∈ fs, Sealed f)
    (hlen : fs.flatten.length < 2 ^ 31) : Lands 0 (fs.flatten.length - 1) fs.flatten := by
  induction fs with
  | nil => exact lands_nil
  | cons f fs ih =>
    rw [List.forall_mem_cons] at h
    rw [List.flatten_cons, List.length_append] at hlen ⊢
    have hf := h.1.lands (by omega)
    have hfs := ih h.2 (by omega)
    exact (hf.mono (by omega) (by omega)).append (hfs.mono (by omega) (by omega))

/-- A parameter that is resolved, or is found undefined, steps on as before. -/
theorem successors_bindParam (param : Option String) (instr : Instr) (i : Int) :
    (bindParam param instr).successors i = instr.successors i := by
  cases instr with
  | param name =>
    simp only [bindParam]
    split <;> rfl
  | _ => rfl

/-- Resolving the parameter does not move control. -/
theorem Closed.map_bindParam {f : Fragment} (h : Closed f) (param : Option String) :
    Closed (f.map (bindParam param)) := by
  intro hlen
  rw [List.length_map] at hlen ⊢
  exact (h hlen).map (successors_bindParam param)

end Fragment

/-- The body of a function returns at its end, so control never leaves it. -/
theorem Declaration.sealed_function {case : NameCase} {name : Token} {param : Option Token}
    {body f : Fragment} (h : Closed body) (hcalls : CallsByName body)
    (hf : (Declaration.function case name param body).body = some f) : Sealed f := by
  cases hf
  have hret : Lands 0 ((1 : Nat) - 1) [.op .ret] :=
    lands_singleton (by simp [Instr.successors, Opcode.successors])
  refine ((closed_lineOf name).append (h.map_bindParam _)).sealed ?_ (by simp) hret
  simp [hcalls.map_bindParam, lineOf, lineOp, Instr.isLinkedCall]

end RobotLang
