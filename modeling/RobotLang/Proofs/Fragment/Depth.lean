/-
  RobotLang.Proofs.Fragment.Depth
  ───────────────────────────────
  **HOW DEEP THE STACK IS AT EACH INSTRUCTION OF A FRAGMENT.**

  An instruction takes values off the stack and leaves others in their place.
  Counting both from the first instruction on, in the order in which the code
  is written, gives a depth to every place of a fragment (`depthAt`).  The
  count is right on every path as soon as

      no instruction takes more than the count says is there, and
      a jump goes to a place that has the count of the next instruction

  (`Level`).  Expressions are level and leave one value, statements are level
  and leave none (`statementwise_leaves`): behind the backward jump of a
  counting loop the count is still that of its counter, which the POP takes.
-/
import Mathlib.Algebra.Order.Ring.Int
import Mathlib.Data.List.Forall2
import RobotLang.Proofs.Fragment.Flow

namespace RobotLang

/-! ## §1. What an instruction takes and leaves. -/

/-- How many values the opcode needs, and takes off the stack. -/
def Opcode.takes : Opcode → Nat
  | .eq | .and | .or => 2
  | .dup | .inc | .dec | .not | .mask | .rotl | .rotr | .pop | .ez _ | .jz _ | .call _ _ => 1
  | _ => 0

/-- How many values it leaves in their place. -/
def Opcode.leaves : Opcode → Nat
  | .dup => 2
  | .load _ | .param _ | .worldWalls | .orientation | .worldBuzzers | .bagBuzzers => 1
  | .inc | .dec | .not | .mask | .rotl | .rotr | .eq | .and | .or => 1
  | _ => 0

def Instr.takes : Instr → Nat
  | .op opcode => opcode.takes
  | .call _ _ => 1
  | .param _ => 0

def Instr.leaves : Instr → Nat
  | .op opcode => opcode.leaves
  | .call _ _ => 0
  | .param _ => 1

/-- How much deeper the stack is behind the instruction. -/
def Instr.gain (instr : Instr) : Int :=
  instr.leaves - instr.takes

namespace Fragment

/-! ## §2. Counting. -/

/-- What the instructions gain together. -/
def rise (f : Fragment) : Int :=
  (f.map Instr.gain).sum

@[simp] theorem rise_nil : rise [] = 0 := rfl

@[simp] theorem rise_cons (instr : Instr) (f : Fragment) :
    rise (instr :: f) = instr.gain + rise f := by
  simp [rise]

/-- Gains add up along the code. -/
@[simp] theorem rise_append (f g : Fragment) : rise (f ++ g) = rise f + rise g := by
  simp [rise]

/-- The depth at the place `i`, counted from the first instruction. -/
def depthAt (code : Fragment) (i : Nat) : Int :=
  rise (code.take i)

/-- At the end of the first part the count is what that part gains. -/
theorem depthAt_append_length (before after : Fragment) :
    depthAt (before ++ after) before.length = rise before := by
  simp [depthAt]

/-- Inside a part the count goes on from what stands in front of it. -/
theorem depthAt_part (before f after : Fragment) {n : Nat} (hn : n ≤ f.length) :
    depthAt (before ++ f ++ after) (before.length + n) = rise before + depthAt f n := by
  unfold depthAt
  rw [List.append_assoc, List.take_append, List.take_of_length_le (by omega),
    Nat.add_sub_cancel_left, List.take_append_of_le_length hn, rise_append]

/-- Each instruction moves the count by its gain, whether control goes on to the next place or
not. -/
theorem depthAt_succ {code : Fragment} {i : Nat} {instr : Instr} (h : code[i]? = some instr) :
    depthAt code (i + 1) = depthAt code i + instr.gain := by
  unfold depthAt
  rw [List.take_add_one, h]
  simp

/-! ## §3. Level code. -/

section Level

variable {d d' : Int} {f g before after : Fragment} {instr : Instr}

/-- Above `d` values, the instruction at `i` finds those that it takes and goes
to places whose count is that of the next instruction. -/
def FitsAt (d : Int) (code : Fragment) (i : Nat) (instr : Instr) : Prop :=
  instr.takes ≤ d + depthAt code i
    ∧ ∀ j ∈ instr.successors i, ∃ n : Nat, j = n ∧ n ≤ code.length
        ∧ depthAt code n = depthAt code i + instr.gain

/-- All instructions of `f` fit, where `f` stands between `before` and `after`. -/
def Fits (d : Int) (before f after : Fragment) : Prop :=
  ∀ (i : Nat) (instr : Instr), f[i]? = some instr →
    FitsAt d (before ++ f ++ after) (before.length + i) instr

/-- If its offsets fit, all instructions of the fragment do. -/
def Level (d : Int) (f : Fragment) : Prop :=
  f.length < 2 ^ 31 → Fits d [] f []

/-- Two parts fit if each fits where it stands, with the other one next to it. -/
theorem Fits.append (hf : Fits d before f (g ++ after)) (hg : Fits d (before ++ f) g after) :
    Fits d before (f ++ g) after := by
  intro i instr hinstr
  by_cases hlt : i < f.length
  · rw [List.getElem?_append_left hlt] at hinstr
    simpa [List.append_assoc] using hf i instr hinstr
  · have hge : f.length ≤ i := Nat.not_lt.mp hlt
    rw [List.getElem?_append_right hge] at hinstr
    have hat := hg (i - f.length) instr hinstr
    rw [List.length_append, Nat.add_assoc, Nat.add_sub_cancel' hge] at hat
    simpa [List.append_assoc] using hat

/-- Level code fits wherever there are enough values in front of it. -/
theorem Level.fits (hf : Level d' f) (hlen : f.length < 2 ^ 31) (hd : d' ≤ d + rise before) :
    Fits d before f after := by
  intro i instr hinstr
  obtain ⟨htakes, hflows⟩ := hf hlen i instr hinstr
  have hi : i < f.length := (List.getElem?_eq_some_iff.mp hinstr).1
  simp only [List.nil_append, List.append_nil, List.length_nil, Nat.zero_add] at htakes hflows
  have hdepth := depthAt_part before f after (Nat.le_of_lt hi)
  refine ⟨by omega, ?_⟩
  intro j hj
  rw [Int.natCast_add, Int.add_comm, Instr.mem_successors_add] at hj
  obtain ⟨n, hn, hle, hcount⟩ := hflows _ hj
  refine ⟨before.length + n, by omega, ?_, ?_⟩
  · simp only [List.length_append]
    omega
  · rw [depthAt_part before f after hle, hcount, hdepth]
    omega

/-- A single instruction fits if it goes on, or to the end of something that
counts as much as what stands in front of it and the instruction itself. -/
theorem fits_singleton (htakes : instr.takes ≤ d + rise before)
    (hflows : ∀ j ∈ instr.successors 0, j = 1 ∨ ∃ target rest : Fragment,
      before ++ [instr] ++ after = target ++ rest ∧ before.length + j = target.length
        ∧ rise target = rise before + instr.gain) :
    Fits d before [instr] after := by
  intro i instr' hinstr
  obtain ⟨rfl, rfl⟩ : i = 0 ∧ instr' = instr := by
    rw [List.getElem?_singleton] at hinstr
    split at hinstr
    · next hi => exact ⟨hi, (Option.some.inj hinstr).symm⟩
    · cases hinstr
  have hdepth := depthAt_append_length before ([instr'] ++ after)
  rw [← List.append_assoc] at hdepth
  rw [Nat.add_zero, FitsAt, hdepth]
  refine ⟨htakes, ?_⟩
  intro j hj
  rw [← Int.zero_add (before.length : Int), Instr.mem_successors_add] at hj
  rcases hflows _ hj with hnext | ⟨target, rest, hcode, hlength, hrise⟩
  -- to the next instruction: the depth changes by the gain of this one
  · have hget : (before ++ [instr'] ++ after)[before.length]? = some instr' := by simp
    refine ⟨before.length + 1, by omega, by simp, ?_⟩
    rw [depthAt_succ hget, hdepth]
  · refine ⟨target.length, by omega, ?_, ?_⟩
    · rw [hcode, List.length_append]
      omega
    · rw [hcode, depthAt_append_length, hrise]

/-- A test takes one value, and then fits the place it jumps to if the code up to there gains one
value less than the code in front of the test. -/
theorem fits_jz {offset : Int32} (target rest : Fragment) (htakes : 1 ≤ d + rise before)
    (hcode : before ++ [.op (.jz offset)] ++ after = target ++ rest)
    (hoffset : before.length + 1 + offset.toInt = target.length)
    (hrise : rise target = rise before - 1) : Fits d before [.op (.jz offset)] after := by
  refine fits_singleton htakes fun j hj => ?_
  simp only [Instr.successors, Opcode.successors, List.mem_cons, List.not_mem_nil, or_false] at hj
  rcases hj with hj | hj
  · exact .inl hj
  · exact .inr ⟨target, rest, hcode, by omega, hrise⟩

/-- A jump takes nothing, so the place it goes to has the count of the jump itself. -/
theorem fits_jmp {offset : Int32} (target rest : Fragment) (hd : 0 ≤ d + rise before)
    (hcode : before ++ [.op (.jmp offset)] ++ after = target ++ rest)
    (hoffset : before.length + 1 + offset.toInt = target.length)
    (hrise : rise target = rise before) : Fits d before [.op (.jmp offset)] after := by
  refine fits_singleton hd fun j hj => ?_
  simp only [Instr.successors, Opcode.successors, List.mem_cons, List.not_mem_nil, or_false] at hj
  refine .inr ⟨target, rest, hcode, by omega, ?_⟩
  show rise target = rise before + 0
  rw [hrise, Int.add_zero]

theorem level_nil : Level d [] := by
  intro _ i instr hinstr
  simp at hinstr

/-- The second part may count on what the first gains. -/
theorem Level.append (hf : Level d f) (hg : Level (d + rise f) g) : Level d (f ++ g) := by
  intro hlen
  rw [List.length_append] at hlen
  exact (hf.fits (by omega) (by simp)).append (hg.fits (by omega) (by simp))

/-- An instruction that finds what it takes and only goes on. -/
theorem level_singleton (htakes : instr.takes ≤ d) (hnext : ∀ j ∈ instr.successors 0, j = 1) :
    Level d [instr] := by
  intro _
  exact fits_singleton (by simpa using htakes) fun j hj => .inl (hnext j hj)

/-- The opcodes go on one after the other and find what they take, above `d`
values. -/
def Suffices : Int → List Opcode → Prop
  | _, [] => True
  | d, op :: ops => op.takes ≤ d ∧ (∀ j ∈ op.successors 0, j = 1)
      ∧ Suffices (d + (op.leaves - op.takes)) ops

instance Suffices.decidable : (d : Int) → (ops : List Opcode) → Decidable (Suffices d ops)
  | _, [] => isTrue trivial
  | d, op :: ops =>
    have := Suffices.decidable (d + (op.leaves - op.takes)) ops
    inferInstanceAs (Decidable (_ ∧ _ ∧ _))

/-- Opcodes of which each finds what it takes. -/
theorem level_ofOps {ops : List Opcode} (h : Suffices d ops) : Level d (ofOps ops) := by
  induction ops generalizing d with
  | nil => exact level_nil
  | cons op ops ih =>
    obtain ⟨htakes, hnext, hrest⟩ := h
    have hop : Level d [.op op] := level_singleton htakes hnext
    refine hop.append (ih ?_)
    simpa [Instr.gain, Instr.leaves, Instr.takes] using hrest

end Level

/-! ## §4. Expressions and statements. -/

@[simp] theorem gain_lineOf (t : Token) : (lineOf t).gain = 0 := rfl

@[simp] theorem gain_jz (offset : Int32) : Instr.gain (.op (.jz offset)) = -1 := rfl

@[simp] theorem gain_jmp (offset : Int32) : Instr.gain (.op (.jmp offset)) = 0 := rfl

/-- The fragment is level on its own and leaves `k` values more than it found. -/
structure Leaves (k : Int) (f : Fragment) : Prop where
  rise : rise f = k
  level : Level 0 f

section Leaves

variable {k m : Int} {f g test yes body count : Fragment} {t : Token}

theorem leaves_nil : Leaves 0 [] :=
  ⟨rfl, level_nil⟩

/-- Code that leaves `k` values needs none in front of it, so it fits wherever the count is not
negative. -/
theorem Leaves.fits (hf : Leaves k f) (hlen : f.length < 2 ^ 31) {d : Int}
    {before after : Fragment} (hd : 0 ≤ d + Fragment.rise before) : Fits d before f after :=
  hf.level.fits hlen hd

/-- Code that starts with what the code in front of it leaves. -/
theorem Leaves.append_level (hf : Leaves k f) (hg : Level k g) :
    Leaves (k + Fragment.rise g) (f ++ g) := by
  refine ⟨by rw [rise_append, hf.rise], hf.level.append ?_⟩
  rwa [hf.rise, Int.zero_add]

/-- What both parts leave is left together. -/
theorem Leaves.append (hf : Leaves k f) (hk : 0 ≤ k) (hg : Leaves m g) :
    Leaves (k + m) (f ++ g) := by
  have hlevel : Level k g := by
    intro hlen
    exact hg.fits hlen (by simpa using hk)
  have h := hf.append_level hlevel
  rwa [hg.rise] at h

/-- Opcodes that need nothing in front of them leave what they gain. -/
theorem leaves_ofOps (ops : List Opcode) (h : Suffices 0 ops)
    (hrise : Fragment.rise (ofOps ops) = k) : Leaves k (ofOps ops) :=
  ⟨hrise, level_ofOps h⟩

/-- Opcodes that start with what the code in front of them leaves. -/
theorem Leaves.append_ofOps (hf : Leaves k f) (ops : List Opcode) (h : Suffices k ops)
    (hrise : k + Fragment.rise (ofOps ops) = m) : Leaves m (f ++ ofOps ops) := by
  rw [← hrise]
  exact hf.append_level (level_ofOps h)

theorem leaves_lineOp (line : Nat) : Leaves 0 [.op (lineOp line)] :=
  leaves_ofOps [lineOp line] ⟨Int.le_refl 0, by simp [lineOp, Opcode.successors], trivial⟩ rfl

/-- A number is one value, however deep it nests. -/
theorem leaves_ofInteger (case : NameCase) (n : Integer) : Leaves 1 (ofInteger case n) := by
  induction n with
  | name token => exact ⟨rfl, level_singleton (Int.le_refl 0) (by simp [Instr.successors])⟩
  | literal token value =>
    exact ⟨rfl, level_singleton (Int.le_refl 0) (by simp [Instr.successors, Opcode.successors])⟩
  | succ keyword left inner right ih => exact ih.append_ofOps [.inc] (by decide) rfl
  | pred keyword left inner right ih => exact ih.append_ofOps [.dec] (by decide) rfl

/-- A condition is one value: an operator takes those of its two sides and leaves its own. -/
theorem leaves_ofCondition (case : NameCase) {level : RobotLang.Level} (c : Condition level) :
    Leaves 1 (ofCondition case c) := by
  induction c with
  | conj c ih | lit c ih | plain c ih => exact ih
  | or left operator right ihl ihr =>
    exact (ihl.append (by decide) ihr).append_ofOps [.or] (by decide) rfl
  | and left operator right ihl ihr =>
    exact (ihl.append (by decide) ihr).append_ofOps [.and] (by decide) rfl
  | not operator c ih => exact ih.append_ofOps [.not] (by decide) rfl
  | isZero keyword left number right =>
    exact (leaves_ofInteger case number).append_ofOps [.not] (by decide) rfl
  | sensor x keyword | sensorCall x keyword left right =>
    exact leaves_ofOps (sensorOps x) (by cases x <;> decide) (by cases x <;> rfl)
  | paren left c right ih => exact ih

/-- What an action puts on the stack to look at the world, it takes off again before it acts. -/
theorem leaves_builtin (action : Builtin) (t : Token) : Leaves 0 (builtin action t) := by
  have hops : Leaves 0 (ofOps (actionOps action)) :=
    leaves_ofOps _ (by cases action <;> decide) (by cases action <;> rfl)
  exact (leaves_lineOp t.line).append (by decide) hops

/-- A call takes its argument; where none is written, a zero is put on the stack for it. -/
theorem leaves_call (name : String) (t : Token) {argument : Option Fragment}
    (h : ∀ f ∈ argument, Leaves 1 f) : Leaves 0 (call name t argument) := by
  -- the argument or a zero, then the call, then the line again
  have hcall {f : Fragment} (hf : Leaves 1 f) (arity : Nat) :
      Leaves 0 (lineOf t :: f ++ [.call name arity, lineOf t]) := by
    have hfront : Leaves 1 ([lineOf t] ++ f) := (leaves_lineOp t.line).append (by decide) hf
    have hcall : Level 1 [.call name arity] :=
      level_singleton (Int.le_refl 1) (by simp [Instr.successors])
    exact hfront.append_level (hcall.append (leaves_lineOp t.line).level)
  cases argument with
  | none => exact hcall (leaves_ofOps [.load 0] (by decide) rfl) 1
  | some f => exact hcall (h f rfl) 2

/-- Stating a line leaves the count as it is. -/
theorem leaves_line_cons (hf : Leaves k f) (t : Token) : Leaves k (lineOf t :: f) := by
  have h := (leaves_lineOp t.line).append (by decide) hf
  rwa [Int.zero_add] at h

/-- The jump over a branch takes the value of the test, and on both ways to the end the count is
that in front of the conditional. -/
theorem leaves_cond (htest : Leaves 1 test) (hyes : Leaves 0 yes) {no : Option Fragment}
    (hno : ∀ f ∈ no, Leaves 0 f) : Leaves 0 (cond t test yes no) := by
  have hfront := leaves_line_cons htest t
  cases no with
  | none =>
    refine ⟨by simp [cond, htest.rise, hyes.rise], fun hlen => ?_⟩
    have hl : (cond t test yes none).length = test.length + yes.length + 2 := by
      simp [cond]
      omega
    rw [hl] at hlen
    have hoffset := toInt_span (f := yes) (by omega)
    -- LINE test, JZ, yes; the jump goes right behind the end
    refine Fits.append (Fits.append (hfront.fits ?_ ?_)
      (fits_jz (lineOf t :: test ++ [Instr.op (.jz (span yes))] ++ yes) [] ?_ ?_ ?_ ?_))
      (hyes.fits ?_ ?_)
    all_goals simp [htest.rise, hyes.rise, hoffset]
    all_goals omega
  | some no =>
    have hno := hno no rfl
    refine ⟨by simp [cond, htest.rise, hyes.rise, hno.rise], fun hlen => ?_⟩
    have hl : (cond t test yes (some no)).length
        = test.length + yes.length + no.length + 3 := by
      simp [cond]
      omega
    rw [hl] at hlen
    have hjz : (1 + span yes).toInt = yes.length + 1 := by
      rw [Int32.add_comm]
      exact toInt_span_add 1 (by omega)
    have hjmp := toInt_span (f := no) (by omega)
    -- LINE test, JZ, yes, JMP, no; the first jump goes to `no`, the second behind it
    refine Fits.append (Fits.append (Fits.append (Fits.append (hfront.fits ?_ ?_)
      (fits_jz (lineOf t :: test ++ [Instr.op (.jz (1 + span yes))] ++ yes
        ++ [Instr.op (.jmp (span no))]) no ?_ ?_ ?_ ?_)) (hyes.fits ?_ ?_))
      (fits_jmp (lineOf t :: test ++ [Instr.op (.jz (1 + span yes))] ++ yes
        ++ [Instr.op (.jmp (span no))] ++ no) [] ?_ ?_ ?_ ?_)) (hno.fits ?_ ?_)
    all_goals simp [htest.rise, hyes.rise, hno.rise, hjz, hjmp]
    all_goals omega

/-- Each turn of a loop starts with the count of the first one, as the jump back goes to where
nothing was counted yet. -/
theorem leaves_whileDo (htest : Leaves 1 test) (hbody : Leaves 0 body) :
    Leaves 0 (whileDo t test body) := by
  refine ⟨by simp [whileDo, htest.rise, hbody.rise], fun hlen => ?_⟩
  have hl : (whileDo t test body).length = test.length + body.length + 3 := by
    simp [whileDo]
    omega
  rw [hl] at hlen
  have hjz : (1 + span body).toInt = body.length + 1 := by
    rw [Int32.add_comm]
    exact toInt_span_add 1 (by omega)
  have hjmp := toInt_neg_spans (f := test) (g := body) (by omega)
  -- LINE test, JZ, body, JMP; the second jump goes back to the test
  refine Fits.append (Fits.append (Fits.append ((leaves_line_cons htest t).fits ?_ ?_)
    (fits_jz (whileDo t test body) [] ?_ ?_ ?_ ?_)) (hbody.fits ?_ ?_))
    (fits_jmp [lineOf t] (test ++ [Instr.op (.jz (1 + span body))] ++ body
      ++ [Instr.op (.jmp (-(span test + span body + 2)))]) ?_ ?_ ?_ ?_)
  all_goals simp [whileDo, htest.rise, hbody.rise, hjz, hjmp]
  all_goals omega

/-- The body of a counting loop runs above the counter; the POP behind the loop
takes it. -/
theorem leaves_times (hcount : Leaves 1 count) (hbody : Leaves 0 body) :
    Leaves 0 (times t count body) := by
  have htest : Leaves 2 (lineOf t :: count ++ ofOps [.dup, .load 0, .eq, .not]) :=
    (leaves_line_cons hcount t).append_ofOps _ (by decide) rfl
  have hdec : Level 1 (ofOps [.dec]) := level_ofOps (by decide)
  have hpop : Level 1 (ofOps [.pop]) := level_ofOps (by decide)
  have hsplit : times t count body = lineOf t :: count ++ ofOps [.dup, .load 0, .eq, .not]
      ++ [Instr.op (.jz (span body + 2))] ++ body ++ ofOps [.dec]
      ++ [Instr.op (.jmp (-(span body + 7)))] ++ ofOps [.pop] := by
    simp [times, ofOps]
  have hdecRise : Fragment.rise (ofOps [.dec]) = 0 := rfl
  have hpopRise : Fragment.rise (ofOps [.pop]) = -1 := rfl
  have htestRise : Fragment.rise (ofOps [.dup, .load 0, .eq, .not]) = 1 := rfl
  refine ⟨by simp [hsplit, hcount.rise, hbody.rise, htestRise, hdecRise, hpopRise], fun hlen => ?_⟩
  have hl : (times t count body).length = count.length + body.length + 9 := by
    simp [times]
    omega
  rw [hl] at hlen
  have hjz : (span body + 2).toInt = body.length + 2 := toInt_span_add 2 (by omega)
  have hjmp : (-(span body + 7)).toInt = -(body.length + 7) := toInt_neg_span_add 7 (by omega)
  rw [hsplit]
  -- the first jump goes to the POP, the second back to the DUP
  refine Fits.append (Fits.append (Fits.append (Fits.append (Fits.append (htest.fits ?_ ?_)
    (fits_jz (lineOf t :: count ++ ofOps [.dup, .load 0, .eq, .not]
      ++ [Instr.op (.jz (span body + 2))] ++ body ++ ofOps [.dec]
      ++ [Instr.op (.jmp (-(span body + 7)))]) (ofOps [.pop]) ?_ ?_ ?_ ?_))
    (hbody.fits ?_ ?_)) (hdec.fits ?_ ?_))
    (fits_jmp (lineOf t :: count) (ofOps [.dup, .load 0, .eq, .not]
      ++ [Instr.op (.jz (span body + 2))] ++ body ++ ofOps [.dec]
      ++ [Instr.op (.jmp (-(span body + 7)))] ++ ofOps [.pop]) ?_ ?_ ?_ ?_)) (hpop.fits ?_ ?_)
  all_goals simp [hcount.rise, hbody.rise, htestRise, hdecRise, hjz, hjmp]
  all_goals omega

end Leaves
end Fragment

open Fragment

/-- The code of every statement leaves the stack as it found it. -/
theorem statementwise_leaves : Statementwise (Leaves 0) where
  nil := leaves_nil
  append hf hg := hf.append (by decide) hg
  builtin := leaves_builtin
  call case name t argument := by
    refine leaves_call name t fun f hf => ?_
    obtain ⟨n, _, rfl⟩ := Option.map_eq_some_iff.mp hf
    exact leaves_ofInteger case n
  cond case _ test _ _ hyes hno := leaves_cond (leaves_ofCondition case test) hyes hno
  whileDo case _ test := leaves_whileDo (leaves_ofCondition case test)
  times case _ count := leaves_times (leaves_ofInteger case count)

/-! ## §5. Code that counts alike. -/

/-- The two instructions take, leave and go to the same. -/
structure Instr.Alike (a b : Instr) : Prop where
  takes : a.takes = b.takes
  leaves : a.leaves = b.leaves
  successors : ∀ i, a.successors i = b.successors i

/-- Instructions that take and leave alike gain alike. -/
theorem Instr.Alike.gain {a b : Instr} (h : a.Alike b) : a.gain = b.gain := by
  rw [Instr.gain, Instr.gain, h.takes, h.leaves]

namespace Fragment

variable {f g : Fragment}

/-- Code that is alike place by place gains alike. -/
theorem rise_alike (h : List.Forall₂ Instr.Alike f g) : rise f = rise g := by
  induction h with
  | nil => rfl
  | cons hab _ ih => rw [rise_cons, rise_cons, hab.gain, ih]

/-- Code that is alike has the same count at every place. -/
theorem depthAt_alike (h : List.Forall₂ Instr.Alike f g) (i : Nat) :
    depthAt f i = depthAt g i :=
  rise_alike (List.forall₂_take i h)

/-- The instruction that stands at the same place. -/
theorem exists_alike (h : List.Forall₂ Instr.Alike f g) {i : Nat} {b : Instr}
    (hb : g[i]? = some b) : ∃ a, f[i]? = some a ∧ a.Alike b := by
  have hlength := h.length_eq
  obtain ⟨hi, rfl⟩ := List.getElem?_eq_some_iff.mp hb
  have hi' : i < f.length := by omega
  exact ⟨f[i], List.getElem?_eq_getElem hi', h.get hi' hi⟩

/-- Control goes the same ways in code that is alike. -/
theorem Lands.alike {lo hi : Int} (hf : Lands lo hi f) (h : List.Forall₂ Instr.Alike f g) :
    Lands lo hi g := by
  intro i b hb j hj
  obtain ⟨a, ha, halike⟩ := exists_alike h hb
  rw [← halike.successors] at hj
  exact hf i a ha j hj

/-- Code that counts alike is alike level. -/
theorem Leaves.alike {k : Int} (hf : Leaves k f) (h : List.Forall₂ Instr.Alike f g) :
    Leaves k g := by
  refine ⟨by rw [← rise_alike h, hf.rise], fun hlen i b hb => ?_⟩
  obtain ⟨a, ha, halike⟩ := exists_alike h hb
  obtain ⟨htakes, hflows⟩ := hf.level (by rwa [h.length_eq]) i a ha
  simp only [List.nil_append, List.append_nil, List.length_nil, Nat.zero_add] at htakes hflows ⊢
  rw [FitsAt, ← halike.takes, ← halike.gain, ← halike.successors, ← depthAt_alike h,
    ← h.length_eq]
  refine ⟨htakes, ?_⟩
  intro j hj
  obtain ⟨n, hn⟩ := hflows j hj
  exact ⟨n, by rwa [← depthAt_alike h]⟩

/-- A parameter that is resolved is a value on the stack, as before. -/
theorem bindParam_alike (param : Option String) (instr : Instr) :
    instr.Alike (bindParam param instr) := by
  refine ⟨?_, ?_, fun i => (successors_bindParam param instr i).symm⟩
  all_goals
    cases instr with
    | param name =>
      simp only [bindParam]
      split <;> rfl
    | _ => rfl

/-- The main part leaves nothing behind when the program halts. -/
theorem leaves_entry {main : Fragment} (h : Leaves 0 main) (closing : Token) :
    Leaves 0 (entry main closing) :=
  h.append (by decide) ((leaves_lineOp closing.endLine).append_ofOps [.halt] (by decide) rfl)

end Fragment

/-- The body of a function leaves the stack as it found it, whatever its parameter is called. -/
theorem Declaration.leaves_function {case : NameCase} {name : Token} {param : Option Token}
    {body f : Fragment} (h : Leaves 0 body)
    (hf : (Declaration.function case name param body).body = some f) : Leaves 0 f := by
  cases hf
  have hbound : Leaves 0 (body.map (bindParam (param.map case.name))) := by
    refine h.alike (List.forall₂_map_right_iff.mpr (List.forall₂_same.mpr ?_))
    intro instr _
    exact bindParam_alike _ instr
  exact (leaves_line_cons hbound name).append_ofOps [.ret] (by decide) rfl

end RobotLang
