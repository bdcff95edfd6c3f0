/-
  RobotLang.Proofs.Machine.Lowering
  ─────────────────────────────────
  **THE CODE OF A STATEMENT DOES WHAT THE STATEMENT MEANS.**

  `Implements robot f b`: wherever the fragment stands and whatever is on the
  stack, the machine that enters it

      reaches its end with the stack as it was     if `b` ends there
      stops, the stack still at the bottom         if `b` stops
      never stops                                  if `b` does not end

  Every construct implements its meaning if its parts do.  The two loops need
  more than the meaning of one round: that every round takes a step, so that
  a loop that does not end runs forever, and, for the counted one, that the
  counter below the body goes down to zero.
-/
import RobotLang.Proofs.Fragment.Flow
import RobotLang.Proofs.Machine.Meaning

namespace RobotLang

variable {World : Type} {robot : Robot World}

/-! ## §1. Implementing a behaviour. -/

/-- From `s` the machine comes to `last` with that stack, or stops the run with
that stack at the bottom. -/
def Arrives (robot : Robot World) (code : Fragment) (s : Machine World) (last : Int)
    (stack : List Int) : Ending World → Prop
  | .ended w => Reaches robot code s ⟨last, stack, w⟩
  | .stopped cause w => ∃ s' extra, Reaches robot code s s'
      ∧ turn robot code s' = .stop cause (extra ++ stack) w

/-- From `s` the machine arrives at each of the endings, and never stops if
there is none. -/
structure Performs (robot : Robot World) (code : Fragment) (s : Machine World) (last : Int)
    (stack : List Int) (endings : Ending World → Prop) : Prop where
  arrives : ∀ e, endings e → Arrives robot code s last stack e
  forever : (∀ e, ¬ endings e) → Forever robot code s

/-- The fragment does what the behaviour says, if its offsets fit. -/
def Implements (robot : Robot World) (f : Fragment) (b : Behaviour World) : Prop :=
  f.length < 2 ^ 31 → ∀ (code : Fragment) (p : Int), Stands code p f →
    ∀ (stack : List Int) (w : World),
      Performs robot code ⟨p, stack, w⟩ (p + f.length) stack (b w)

section Arrives

variable {code : Fragment} {s s' : Machine World} {last : Int} {stack : List Int}
  {e : Ending World}

/-- From where the machine comes to on its way, it arrives where the whole run arrives. -/
theorem Arrives.of_reaches (h : Reaches robot code s s') (h' : Arrives robot code s' last stack e) :
    Arrives robot code s last stack e := by
  cases e with
  | ended w => exact h.trans h'
  | stopped cause w =>
    obtain ⟨t, extra, hreach, hstop⟩ := h'
    exact ⟨t, extra, h.trans hreach, hstop⟩

/-- What is on the stack above the starting stack may be forgotten. -/
theorem Arrives.stopped_of_append {cause : Cause} {w : World} {last' : Int} (above : List Int)
    (h : Arrives robot code s last (above ++ stack) (.stopped cause w)) :
    Arrives robot code s last' stack (.stopped cause w) := by
  obtain ⟨t, extra, hreach, hstop⟩ := h
  exact ⟨t, extra ++ above, hreach, by rw [List.append_assoc]; exact hstop⟩

/-- Steps in front of a run change nothing about how it ends, nor about whether it does. -/
theorem Performs.of_reaches {endings : Ending World → Prop} (h : Reaches robot code s s')
    (h' : Performs robot code s' last stack endings) :
    Performs robot code s last stack endings where
  arrives e he := (h'.arrives e he).of_reaches h
  forever hnone := (h'.forever hnone).of_reaches h

/-- One ending is enough. -/
theorem Performs.of_arrives (h : Arrives robot code s last stack e) :
    Performs robot code s last stack (· = e) where
  arrives e' he := by
    subst he
    exact h
  forever hnone := absurd rfl (hnone e)

end Arrives

/-! ## §2. Straight-line code. -/

/-- The fragment leaves the value on the stack. -/
def Pushes (robot : Robot World) (f : Fragment) (value : World → Int) : Prop :=
  ∀ stack w, f.effect robot (stack, w) = some (value w :: stack, w)

/-- The code of a number leaves its value; by induction on how deep it nests. -/
theorem pushes_ofInteger (case : NameCase) (n : Integer) :
    Pushes robot (.ofInteger case n) (fun w => n.value robot case w) := by
  intro stack w
  induction n with
  | name token => rfl
  | literal token value => rfl
  | succ keyword left inner right ih | pred keyword left inner right ih =>
    rw [Fragment.ofInteger, Fragment.effect_append, ih]
    rfl

/-- That two values differ is what negating makes of their being equal. -/
theorem truth_truth (a b : Int) : truth (truth (a = b) = 0) = truth (a ≠ b) := by
  unfold truth
  by_cases h : a = b
  · simp [h]
  · simp [h]

/-- Each sensor has its own opcodes, and they leave what the sensor says. -/
theorem pushes_ofSensor (x : Sensor) :
    Pushes robot (.ofSensor x) (fun w => x.value robot w) := by
  intro stack w
  cases x with
  | nextToABeeper | anyBeepersInBeeperBag | notFacingWest | notFacingNorth | notFacingEast
  | notFacingSouth =>
    -- EQ and NOT, where the value is one comparison
    show some (truth (truth (_ = _) = 0) :: stack, w) = _
    rw [truth_truth]
    rfl
  | _ => rfl

/-- The code of a condition leaves its truth value.  Both sides of an operator are always worked
out. -/
theorem pushes_ofCondition (case : NameCase) {level : Level} (c : Condition level) :
    Pushes robot (.ofCondition case c) (fun w => c.value robot case w) := by
  intro stack w
  induction c generalizing stack with
  | conj c ih | lit c ih | plain c ih => exact ih stack
  | or left operator right ihl ihr | and left operator right ihl ihr =>
    rw [Fragment.ofCondition, Fragment.effect_append, Fragment.effect_append, ihl stack]
    show Option.bind (Fragment.effect robot (Fragment.ofCondition case right) _) _ = _
    rw [ihr]
    rfl
  | not operator c ih =>
    rw [Fragment.ofCondition, Fragment.effect_append, ih stack]
    rfl
  | isZero keyword left number right =>
    rw [Fragment.ofCondition, Fragment.effect_append, pushes_ofInteger case number stack w]
    rfl
  | sensor x keyword | sensorCall x keyword left right => exact pushes_ofSensor x stack w
  | paren left c right ih => exact ih stack

/-- Stating a line leaves the stack and the world as they are. -/
theorem Pushes.line {f : Fragment} {value : World → Int} (h : Pushes robot f value) (t : Token) :
    Pushes robot (Fragment.lineOf t :: f) value :=
  fun stack w => h stack w

/-- Wherever such code stands, the machine goes through it from one end to the other. -/
theorem Pushes.reaches {f code : Fragment} {value : World → Int} {p q : Int}
    (h : Pushes robot f value) (hf : Stands code p f) (hq : q = p + f.length) (stack : List Int)
    (w : World) : Reaches robot code ⟨p, stack, w⟩ ⟨q, value w :: stack, w⟩ :=
  hq ▸ reaches_of_effect hf (h stack w)

/-! ## §3. Sequences. -/

open Behaviour

section Sequences

variable {f g : Fragment} {b b' : Behaviour World}

/-- Code without jumps that leaves the stack as it was implements its change of the world. -/
theorem implements_of_effect {change : World → World}
    (h : ∀ stack w, f.effect robot (stack, w) = some (stack, change w)) :
    Implements robot f (act change) := by
  intro _ code p hf stack w
  exact .of_arrives (reaches_of_effect hf (h stack w))

theorem implements_nil : Implements robot [] skip :=
  (implements_of_effect fun _ _ => rfl : Implements robot [] (act id))

/-- Code that stands behind other code goes on from where that ended, and is not entered if that
stops or never ends. -/
theorem Implements.append (hf : Implements robot f b) (hg : Implements robot g b') :
    Implements robot (f ++ g) (seq b b') := by
  intro hlen code p hstands stack w
  rw [List.length_append] at hlen ⊢
  rw [Int.natCast_add, ← Int.add_assoc]
  have hfirst := hf (by omega) code p hstands.left stack w
  have hsecond (w' : World) := hg (by omega) code _ hstands.right stack w'
  constructor
  · intro e he
    rcases he with ⟨w', hb, hb'⟩ | ⟨cause, w', hb, rfl⟩
    · exact ((hsecond w').arrives e hb').of_reaches (hfirst.arrives _ hb)
    · exact (hfirst.arrives _ hb).stopped_of_append []
  · intro hnone
    -- either the first part comes to its end and the second does not, or the first does not
    by_cases hended : ∃ w', b w (.ended w')
    · obtain ⟨w', hb⟩ := hended
      refine ((hsecond w').forever fun e hb' => ?_).of_reaches (hfirst.arrives _ hb)
      exact hnone e (.inl ⟨w', hb, hb'⟩)
    · refine hfirst.forever fun e hb => ?_
      cases e with
      | ended w' => exact hended ⟨w', hb⟩
      | stopped cause w' => exact hnone _ (.inr ⟨cause, w', hb, rfl⟩)

/-- The line in front of a construct. -/
theorem Implements.line (hf : Implements robot f b) (t : Token) :
    Implements robot (Fragment.lineOf t :: f) b := by
  intro hlen code p hstands stack w
  rw [List.length_cons] at hlen ⊢
  have hline : Stands code p ([Fragment.lineOf t] ++ f) := hstands
  have hreach : Reaches robot code ⟨p, stack, w⟩ ⟨p + 1, stack, w⟩ :=
    reaches_of_effect hline.left rfl
  have hrest := (hf (by omega) code _ hline.right stack w).of_reaches hreach
  rw [Int.natCast_succ, Int.add_comm _ 1, ← Int.add_assoc]
  exact hrest

end Sequences

/-! ## §4. Actions and calls. -/

/-- A check in front of an action stops the run at its fault, or takes its value off the stack and
goes on. -/
theorem implements_guard {f : Fragment} {value : World → Int} (hf : Pushes robot f value)
    (fault : Fault) : Implements robot (f ++ [.op (.ez fault)]) (guard value fault) := by
  intro _ code p hstands stack w
  rw [List.length_append, Int.natCast_add, ← Int.add_assoc]
  have hreach := hf.reaches hstands.left rfl stack w
  have hturn : turn robot code ⟨p + f.length, value w :: stack, w⟩
      = if value w = 0 then .stop (.fault fault) stack w
        else .next ⟨p + f.length + 1, stack, w⟩ := turn_of_stands hstands.right
  unfold Behaviour.guard
  by_cases hzero : value w = 0
  · rw [if_pos hzero] at hturn
    simp only [hzero, if_true]
    exact .of_arrives ⟨_, [], hreach, hturn⟩
  · rw [if_neg hzero] at hturn
    simp only [hzero, if_false]
    exact .of_arrives (hreach.tail hturn)

/-- An instruction that stops every run. -/
theorem implements_stop {op : Opcode} {cause : Cause}
    (h : ∀ s : Machine World, (Instr.op op).turn robot s = .stop cause s.stack s.world) :
    Implements robot [.op op] (stop cause) := by
  intro _ code p hstands stack w
  refine .of_arrives ⟨_, [], .refl, ?_⟩
  rw [turn_of_stands hstands, h]
  rfl

/-- Every action checks what it has to and then acts. -/
theorem implements_builtin (action : Builtin) (t : Token) :
    Implements robot (.builtin action t) (action.meaning robot) := by
  refine Implements.line ?_ t
  cases action with
  | move =>
    exact (implements_guard (f := .ofOps [.worldWalls, .orientation, .mask, .and, .not])
      (fun _ _ => rfl) .wall).append
      (implements_of_effect (f := [.op .forward]) fun _ _ => rfl)
  | turnLeft => exact implements_of_effect fun _ _ => rfl
  | pickBeeper =>
    exact (implements_guard (f := [.op .worldBuzzers]) (fun _ _ => rfl) .worldUnderflow).append
      (implements_of_effect (f := [.op .pickBuzzer]) fun _ _ => rfl)
  | putBeeper =>
    exact (implements_guard (f := [.op .bagBuzzers]) (fun _ _ => rfl) .bagUnderflow).append
      (implements_of_effect (f := [.op .leaveBuzzer]) fun _ _ => rfl)
  | turnOff => exact implements_stop fun _ => rfl
  | return_ => exact implements_stop fun _ => rfl

/-- A call works out its argument and hands it over; without one it passes zero. -/
theorem implements_call (case : NameCase) (name : Token) (argument : Option Integer) :
    Implements robot (.call (case.name name) name (argument.map (.ofInteger case)))
      (callMeaning robot case name argument) := by
  cases argument with
  | none => exact implements_of_effect fun _ _ => rfl
  | some n =>
    refine implements_of_effect fun stack w => ?_
    show Fragment.effect robot ((Fragment.lineOf name :: Fragment.ofInteger case n) ++ _) _ = _
    rw [Fragment.effect_append, (pushes_ofInteger case n).line name stack w]
    rfl

/-! ## §5. Branches. -/

section Branches

variable {test yes no : Fragment} {value : World → Int} {b b' : Behaviour World}

/-- A branch is entered, or jumped over to the end.  The jump is as long as the code of the
branch. -/
theorem implements_cond (htest : Pushes robot test value) (hyes : Implements robot yes b)
    (t : Token) : Implements robot (.cond t test yes none) (branch value b skip) := by
  intro hlen code p hstands stack w
  have hl : (Fragment.cond t test yes none).length = test.length + yes.length + 2 := by
    simp [Fragment.cond]
    omega
  rw [hl] at hlen ⊢
  have hjz : Stands code (p + test.length + 1) [.op (.jz (Fragment.span yes))] :=
    hstands.left.right.at (by simp; omega)
  have hbody : Stands code (p + test.length + 1 + 1) yes := hstands.right.at (by simp; omega)
  have hreach : Reaches robot code ⟨p, stack, w⟩ ⟨p + test.length + 1, value w :: stack, w⟩ :=
    (htest.line t).reaches hstands.left.left (by simp; omega) stack w
  have hspan := Fragment.toInt_span (f := yes) (by omega)
  have hend : p + ((test.length + yes.length + 2 : Nat) : Int)
      = p + test.length + 1 + 1 + yes.length := by
    push_cast
    omega
  rw [hend]
  unfold branch
  by_cases hzero : value w = 0
  · -- the jump goes over the statement
    simp only [hzero, if_true]
    exact .of_arrives (hreach.tail (steps_jz_of_eq hjz hzero (by rw [hspan])))
  · simp only [hzero, if_false]
    exact (hyes (by omega) code _ hbody stack w).of_reaches
      (hreach.tail (steps_jz_of_ne hjz hzero))

/-- The first branch jumps over the second at its end, so just one of them is run.  So the jump to
the second branch is longer by one, for the jump behind the first. -/
theorem implements_condElse (htest : Pushes robot test value) (hyes : Implements robot yes b)
    (hno : Implements robot no b') (t : Token) :
    Implements robot (.cond t test yes (some no)) (branch value b b') := by
  intro hlen code p hstands stack w
  have hl : (Fragment.cond t test yes (some no)).length
      = test.length + yes.length + no.length + 3 := by
    simp [Fragment.cond]
    omega
  rw [hl] at hlen ⊢
  have hjz : Stands code (p + test.length + 1) [.op (.jz (1 + Fragment.span yes))] :=
    hstands.left.left.left.right.at (by simp; omega)
  have hbody : Stands code (p + test.length + 1 + 1) yes :=
    hstands.left.left.right.at (by simp; omega)
  have hjmp : Stands code (p + test.length + 1 + 1 + yes.length)
      [.op (.jmp (Fragment.span no))] := hstands.left.right.at (by simp; omega)
  have hother : Stands code (p + test.length + 1 + 1 + yes.length + 1) no :=
    hstands.right.at (by simp; omega)
  have hreach : Reaches robot code ⟨p, stack, w⟩ ⟨p + test.length + 1, value w :: stack, w⟩ :=
    (htest.line t).reaches hstands.left.left.left.left (by simp; omega) stack w
  have hspan := Fragment.toInt_span (f := no) (by omega)
  have hspan' : (1 + Fragment.span yes).toInt = yes.length + 1 := by
    rw [Int32.add_comm]
    exact Fragment.toInt_span_add 1 (by omega)
  have hend : p + ((test.length + yes.length + no.length + 3 : Nat) : Int)
      = p + test.length + 1 + 1 + yes.length + 1 + no.length := by
    push_cast
    omega
  rw [hend]
  unfold branch
  by_cases hzero : value w = 0
  · simp only [hzero, if_true]
    exact (hno (by omega) code _ hother stack w).of_reaches
      (hreach.tail (steps_jz_of_eq hjz hzero (by rw [hspan']; omega)))
  · -- behind the first statement the second one is jumped over
    simp only [hzero, if_false]
    have hfirst := hyes (by omega) code _ hbody stack w
    refine Performs.of_reaches (hreach.tail (steps_jz_of_ne hjz hzero)) ⟨?_, hfirst.forever⟩
    intro e he
    cases e with
    | ended w' => exact (hfirst.arrives _ he).tail (steps_jmp hjmp (by rw [hspan]))
    | stopped cause w' => exact (hfirst.arrives _ he).stopped_of_append []

end Branches

/-! ## §6. Rounds. -/

/-- Rounds of a loop over the states `ι` of its head. -/
structure Rounds (ι World : Type) where
  /-- There is one more round. -/
  More : ι → Prop
  world : ι → World
  /-- How a round ends. -/
  round : ι → Ending World → Prop
  /-- The head after a round that ended in that world. -/
  next : ι → World → ι

namespace Rounds

variable {ι : Type}

/-- How the rounds end. -/
inductive Ends (rounds : Rounds ι World) : ι → Ending World → Prop where
  | done {i : ι} : ¬ rounds.More i → Ends rounds i (.ended (rounds.world i))
  | again {i : ι} {w : World} {e : Ending World} : rounds.More i → rounds.round i (.ended w) →
      Ends rounds (rounds.next i w) e → Ends rounds i e
  | stopped {i : ι} {cause : Cause} {w : World} : rounds.More i →
      rounds.round i (.stopped cause w) → Ends rounds i (.stopped cause w)

/-- A loop that leaves its head at the end and otherwise takes a step into its
round performs its rounds. -/
theorem performs (rounds : Rounds ι World) {code : Fragment} {last : Int} {stack : List Int}
    (head : ι → Machine World)
    (hdone : ∀ i, ¬ rounds.More i → Reaches robot code (head i) ⟨last, stack, rounds.world i⟩)
    (hmore : ∀ i, rounds.More i → ∃ inside,
      Relation.TransGen (Steps robot code) (head i) inside
        ∧ (∀ w, rounds.round i (.ended w) → Reaches robot code inside (head (rounds.next i w)))
        ∧ (∀ cause w, rounds.round i (.stopped cause w) →
          Arrives robot code inside last stack (.stopped cause w))
        ∧ ((∀ e, ¬ rounds.round i e) → Forever robot code inside))
    (i : ι) : Performs robot code (head i) last stack (rounds.Ends i) where
  arrives e he := by
    induction he with
    | done h => exact hdone _ h
    | again h hround _ ih =>
      obtain ⟨inside, henter, hback, _⟩ := hmore _ h
      exact ih.of_reaches (henter.to_reflTransGen.trans (hback _ hround))
    | stopped h hround =>
      obtain ⟨inside, henter, _, hstop, _⟩ := hmore _ h
      exact (hstop _ _ hround).of_reaches henter.to_reflTransGen
  forever hnone := by
    -- the machine keeps coming back to heads from which the rounds do not end
    refine forever_of_progress (fun s => ∃ i, s = head i ∧ ∀ e, ¬ rounds.Ends i e) ?_
      ⟨i, rfl, hnone⟩
    rintro s ⟨i, rfl, hnone⟩
    have hmorei : rounds.More i := Classical.byContradiction fun h => hnone _ (.done h)
    obtain ⟨inside, henter, hback, _, hforever⟩ := hmore i hmorei
    by_cases hended : ∃ w, rounds.round i (.ended w)
    · obtain ⟨w, hw⟩ := hended
      refine .inr ⟨head (rounds.next i w), henter.trans_left (hback w hw), _, rfl, ?_⟩
      exact fun e he => hnone e (.again hmorei hw he)
    · refine .inl ((hforever fun e he => ?_).of_reaches henter.to_reflTransGen)
      cases e with
      | ended w => exact hended ⟨w, he⟩
      | stopped cause w => exact hnone _ (.stopped hmorei he)

end Rounds

/-! ## §7. Loops. -/

section Loops

variable {test body count : Fragment} {value : World → Int} {b : Behaviour World}

/-- The rounds of a loop with a test. -/
def testRounds (value : World → Int) (b : Behaviour World) : Rounds World World where
  More w := value w ≠ 0
  world w := w
  round w := b w
  next _ w := w

/-- The rounds of a loop with a test are the turns of that loop. -/
theorem ends_testRounds : (testRounds value b).Ends = Loop value b := by
  funext w e
  apply propext
  constructor
  · intro h
    induction h with
    | done h => exact .done (Decidable.not_not.mp h)
    | again h hround _ ih => exact .again h hround ih
    | stopped h hround => exact .stopped h hround
  · intro h
    induction h with
    | done h => exact .done (Decidable.not_not.mpr h)
    | again h hround _ ih => exact .again h hround ih
    | stopped h hround => exact .stopped h hround

/-- The head of the loop stands right behind the line it states, and every turn comes back there
with the stack as it was. -/
theorem implements_whileDo (htest : Pushes robot test value) (hbody : Implements robot body b)
    (t : Token) : Implements robot (.whileDo t test body) (Loop value b) := by
  intro hlen code p hstands stack w
  have hl : (Fragment.whileDo t test body).length = test.length + body.length + 3 := by
    simp [Fragment.whileDo]
    omega
  rw [hl] at hlen ⊢
  have hline : Stands code p ([Fragment.lineOf t] ++ test) := hstands.left.left.left
  have htests : Stands code (p + 1) test := hline.right.at (by simp)
  have hjz : Stands code (p + 1 + test.length) [.op (.jz (1 + Fragment.span body))] :=
    hstands.left.left.right.at (by simp; omega)
  have hround : Stands code (p + 1 + test.length + 1) body :=
    hstands.left.right.at (by simp; omega)
  have hjmp : Stands code (p + 1 + test.length + 1 + body.length)
      [.op (.jmp (-(Fragment.span test + Fragment.span body + 2)))] :=
    hstands.right.at (by simp; omega)
  have hspan : (1 + Fragment.span body).toInt = body.length + 1 := by
    rw [Int32.add_comm]
    exact Fragment.toInt_span_add 1 (by omega)
  have hback := Fragment.toInt_neg_spans (f := test) (g := body) (by omega)
  have hend : p + ((test.length + body.length + 3 : Nat) : Int)
      = p + 1 + test.length + 1 + body.length + 1 := by
    push_cast
    omega
  rw [hend, ← ends_testRounds]
  -- the head of the loop is the test, not the line in front of it
  refine Performs.of_reaches (reaches_of_effect hline.left rfl) ?_
  refine (testRounds value b).performs (fun w => ⟨p + 1, stack, w⟩) ?_ ?_ w
  · intro w hdone
    have hzero : value w = 0 := Decidable.not_not.mp hdone
    exact (htest.reaches htests rfl stack w).tail
      (steps_jz_of_eq hjz hzero (by rw [hspan]; omega))
  · intro w hmore
    have hperforms := hbody (by omega) code _ hround stack w
    refine ⟨_, .tail' (htest.reaches htests rfl stack w) (steps_jz_of_ne hjz hmore), ?_, ?_,
      hperforms.forever⟩
    · intro w' hw'
      exact (hperforms.arrives _ hw').tail (steps_jmp hjmp (by rw [hback]; omega))
    · intro cause w' hw'
      exact (hperforms.arrives _ hw').stopped_of_append []

/-- The rounds of a loop with a counter, which is part of its head. -/
def countRounds (b : Behaviour World) : Rounds (Int × World) World where
  More i := i.1 ≠ 0
  world i := i.2
  round i := b i.2
  next i w := (i.1 - 1, w)

/-- A counter that is not negative is counted down to zero, one turn each.  By induction on the
counter. -/
theorem ends_countRounds_natCast (n : Nat) (w : World) (e : Ending World) :
    (countRounds b).Ends (n, w) e ↔ iterate b n w e := by
  induction n generalizing w e with
  | zero =>
    constructor
    · intro h
      cases h with
      | done => rfl
      | again h | stopped h => exact absurd rfl h
    · intro h
      cases h
      show (countRounds b).Ends ((0 : Int), w) (.ended w)
      exact .done fun h => h rfl
  | succ n ih =>
    have hmore : (countRounds b).More ((n + 1 : Nat), w) := by
      show ((n + 1 : Nat) : Int) ≠ 0
      omega
    -- the counter of the next round is that of the induction hypothesis
    have hnext (w' : World) : (countRounds b).next ((n + 1 : Nat), w) w' = ((n : Int), w') := by
      show (((n + 1 : Nat) : Int) - 1, w') = _
      rw [Int.natCast_succ, Int.add_sub_cancel]
    constructor
    · intro h
      cases h with
      | done h => exact absurd hmore h
      | again _ hround hrest => exact .inl ⟨_, hround, (ih _ _).mp (hnext _ ▸ hrest)⟩
      | stopped _ hround => exact .inr ⟨_, _, hround, rfl⟩
    · intro h
      rcases h with ⟨w', hround, hrest⟩ | ⟨cause, w', hround, rfl⟩
      · exact .again hmore hround (hnext w' ▸ (ih _ _).mpr hrest)
      · exact .stopped hmore hround

/-- A counter below zero goes further down.  It never comes to zero, so the loop only ends if its
body stops, as one whose condition always holds. -/
theorem ends_countRounds_of_neg {k : Int} (hk : k < 0) (w : World) (e : Ending World) :
    (countRounds b).Ends (k, w) e ↔ Loop (fun _ => 1) b w e := by
  constructor
  · intro h
    generalize hi : (k, w) = i at h
    induction h generalizing k w with
    | done h =>
      subst hi
      exact absurd (show k ≠ 0 by omega) h
    | again _ hround _ ih =>
      subst hi
      -- any counter below zero will do, so the loop needs none
      exact .again Int.one_ne_zero hround (ih (k := k - 1) (by omega) _ rfl)
    | stopped _ hround =>
      subst hi
      exact .stopped Int.one_ne_zero hround
  · intro h
    induction h generalizing k with
    | done h => exact absurd h Int.one_ne_zero
    | again _ hround _ ih =>
      exact .again (show k ≠ 0 by omega) hround (ih (k := k - 1) (by omega))
    | stopped _ hround => exact .stopped (show k ≠ 0 by omega) hround

/-- A repetition makes as many turns as its count says; a negative count never comes to zero. -/
theorem ends_countRounds (w : World) :
    (countRounds b).Ends (value w, w) = Behaviour.times value b w := by
  funext e
  apply propext
  unfold Behaviour.times
  by_cases h : 0 ≤ value w
  · rw [if_pos h, ← ends_countRounds_natCast, Int.toNat_of_nonneg h]
  · rw [if_neg h]
    exact ends_countRounds_of_neg (by omega) w e

/-- Each turn runs above the counter, which is one less at the next; at zero it is dropped and the
loop left. -/
theorem implements_times (hcount : Pushes robot count value) (hbody : Implements robot body b)
    (t : Token) : Implements robot (.times t count body) (Behaviour.times value b) := by
  intro hlen code p hstands stack w
  have hl : (Fragment.times t count body).length = count.length + body.length + 9 := by
    simp [Fragment.times]
    omega
  rw [hl] at hlen ⊢
  -- the parts: LINE count, DUP LOAD EQ NOT, JZ, body, DEC, JMP, POP
  have hsplit : Fragment.times t count body = (Fragment.lineOf t :: count)
      ++ Fragment.ofOps [.dup, .load 0, .eq, .not] ++ [Instr.op (.jz (Fragment.span body + 2))]
      ++ body ++ [Instr.op .dec] ++ [Instr.op (.jmp (-(Fragment.span body + 7)))]
      ++ [Instr.op .pop] := by
    simp [Fragment.times, Fragment.ofOps]
  rw [hsplit] at hstands
  have htest : Stands code (p + 1 + count.length) (.ofOps [.dup, .load 0, .eq, .not]) :=
    hstands.left.left.left.left.left.right.at (by simp; omega)
  have hjz : Stands code (p + 1 + count.length + 4) [.op (.jz (Fragment.span body + 2))] :=
    hstands.left.left.left.left.right.at (by simp; omega)
  have hround : Stands code (p + 1 + count.length + 4 + 1) body :=
    hstands.left.left.left.right.at (by simp; omega)
  have hdec : Stands code (p + 1 + count.length + 4 + 1 + body.length) [.op .dec] :=
    hstands.left.left.right.at (by simp; omega)
  have hjmp : Stands code (p + 1 + count.length + 4 + 1 + body.length + 1)
      [.op (.jmp (-(Fragment.span body + 7)))] := hstands.left.right.at (by simp; omega)
  have hpop : Stands code (p + 1 + count.length + 4 + 1 + body.length + 2) [.op .pop] :=
    hstands.right.at (by simp; omega)
  have hspan : (Fragment.span body + 2).toInt = body.length + 2 :=
    Fragment.toInt_span_add 2 (by omega)
  have hback : (-(Fragment.span body + 7)).toInt = -(body.length + 7) :=
    Fragment.toInt_neg_span_add 7 (by omega)
  have hend : p + ((count.length + body.length + 9 : Nat) : Int)
      = p + 1 + count.length + 4 + 1 + body.length + 2 + 1 := by
    push_cast
    omega
  rw [hend, ← ends_countRounds]
  have hstart : Reaches robot code ⟨p, stack, w⟩ ⟨p + 1 + count.length, value w :: stack, w⟩ :=
    (hcount.line t).reaches hstands.left.left.left.left.left.left (by simp; omega) stack w
  refine Performs.of_reaches hstart ?_
  have hasks (k : Int) (w : World) : Reaches robot code ⟨p + 1 + count.length, k :: stack, w⟩
      ⟨p + 1 + count.length + 4, truth (truth (k = 0) = 0) :: k :: stack, w⟩ :=
    reaches_of_effect htest rfl
  refine (countRounds b).performs
    (fun i => ⟨p + 1 + count.length, i.1 :: stack, i.2⟩) ?_ ?_ (value w, w)
  · rintro ⟨k, w⟩ hdone
    obtain rfl : k = 0 := Decidable.not_not.mp hdone
    have hleave : Reaches robot code
        ⟨p + 1 + count.length + 4 + 1 + body.length + 2, 0 :: stack, w⟩
        ⟨p + 1 + count.length + 4 + 1 + body.length + 2 + 1, stack, w⟩ :=
      reaches_of_effect hpop rfl
    exact ((hasks 0 w).tail (steps_jz_of_eq hjz (by decide) (by rw [hspan]; omega))).trans hleave
  · rintro ⟨k, w⟩ hmore
    have hk : k ≠ 0 := hmore
    have hne : truth (truth (k = 0) = 0) ≠ 0 := by simpa using hk
    have hperforms := hbody (by omega) code _ hround (k :: stack) w
    refine ⟨_, .tail' (hasks k w) (steps_jz_of_ne hjz hne), ?_, ?_, hperforms.forever⟩
    · intro w' hw'
      have hdown : Reaches robot code ⟨p + 1 + count.length + 4 + 1 + body.length, k :: stack, w'⟩
          ⟨p + 1 + count.length + 4 + 1 + body.length + 1, (k - 1) :: stack, w'⟩ :=
        reaches_of_effect hdec rfl
      exact ((hperforms.arrives _ hw').trans hdown).tail (steps_jmp hjmp (by rw [hback]; omega))
    · intro cause w' hw'
      exact (hperforms.arrives _ hw').stopped_of_append [k]

end Loops

/-! ## §8. Trees. -/

/-- By induction on the code, each construct from its parts. -/
theorem Braced.Code.implements_lower {part : Braced.Part} (c : Braced.Code part) :
    Implements robot c.lower (c.meaning robot) := by
  induction c with
  | nil => exact implements_nil
  | cons head tail ihh iht => exact ihh.append iht
  | empty semicolon => exact implements_nil
  | builtin action keyword => exact implements_builtin action keyword
  | call name left argument => exact implements_call _ name argument
  | cond keyword left test right yes ih =>
    exact implements_cond (pushes_ofCondition _ test) ih keyword
  | condElse keyword left test right yes otherwise no ihy ihn =>
    exact implements_condElse (pushes_ofCondition _ test) ihy ihn keyword
  | whileDo keyword left test right body ih =>
    exact implements_whileDo (pushes_ofCondition _ test) ih keyword
  | times keyword left count right body ih =>
    exact implements_times (pushes_ofInteger _ count) ih keyword
  | block left body right ih => exact ih

/-- The same for the worded dialect, whose commands and statements are lowered by the same
constructs. -/
theorem Worded.Code.implements_lower {part : Worded.Part} (c : Worded.Code part) :
    Implements robot c.lower (c.meaning robot) := by
  induction c with
  | nil => exact implements_nil
  | cons head tail ihh iht => exact ihh.append iht
  | empty semicolon => exact implements_nil
  | ended command semicolon ih => exact ih
  | builtin action keyword => exact implements_builtin action keyword
  | call name => exact implements_call _ name none
  | callWith name left argument => exact implements_call _ name (some argument)
  | cond keyword test then_ yes ih =>
    exact implements_cond (pushes_ofCondition _ test) ih keyword
  | condElse keyword test then_ yes otherwise no ihy ihn =>
    exact implements_condElse (pushes_ofCondition _ test) ihy ihn keyword
  | whileDo keyword test do_ body ih =>
    exact implements_whileDo (pushes_ofCondition _ test) ih keyword
  | times keyword count unit body ih =>
    exact implements_times (pushes_ofInteger _ count) ih keyword
  | block opening body closing ih => exact ih

/-! ## §9. Fragments on their own. -/

section Alone

variable {f : Fragment} {s : Machine World} {stack : List Int}

/-- Behind the last instruction there is no turn to take. -/
theorem turn_last (f : Fragment) (stack : List Int) (w : World) :
    turn robot f ⟨f.length, stack, w⟩ = .lost := by
  simp [turn, fetch]

/-- Where the machine arrives, its run is over. -/
theorem Arrives.exists_last {e : Ending World} (h : Arrives robot f s f.length stack e) :
    ∃ s', Reaches robot f s s' ∧ (∀ u, ¬ Steps robot f s' u)
      ∧ match e with
        | .ended w => s' = ⟨f.length, stack, w⟩
        | .stopped cause w => ∃ extra, turn robot f s' = .stop cause (extra ++ stack) w := by
  cases e with
  | ended w => exact ⟨_, h, fun u hu => by simp [Steps, turn_last] at hu, rfl⟩
  | stopped cause w =>
    obtain ⟨s', extra, hreach, hstop⟩ := h
    exact ⟨s', hreach, fun u hu => by simp [Steps, hstop] at hu, extra, hstop⟩

/-- A run arrives at one ending only.  The machine is deterministic, and the state that a run is
over in tells whether it came to the end of the code or was stopped there. -/
theorem Arrives.unique {e e' : Ending World} (h : Arrives robot f s f.length stack e)
    (h' : Arrives robot f s f.length stack e') : e = e' := by
  obtain ⟨s₁, hreach, hlast, hs₁⟩ := h.exists_last
  obtain ⟨s₂, hreach', hlast', hs₂⟩ := h'.exists_last
  -- both runs are over in the same state; what is left is how that state says it
  obtain rfl := hreach.unique hlast hreach' hlast'
  cases e with
  | ended w =>
    subst hs₁
    cases e' with
    | ended w' =>
      cases hs₂
      rfl
    | stopped cause' w' =>
      obtain ⟨extra, hstop⟩ := hs₂
      simp [turn_last] at hstop
  | stopped cause w =>
    obtain ⟨extra, hstop⟩ := hs₁
    cases e' with
    | ended w' =>
      subst hs₂
      simp [turn_last] at hstop
    | stopped cause' w' =>
      obtain ⟨extra', hstop'⟩ := hs₂
      rw [hstop] at hstop'
      obtain ⟨rfl, _, rfl⟩ := Turn.stop.inj hstop'
      rfl

/-- A run that arrives does not go on forever. -/
theorem Arrives.not_forever {e : Ending World} (h : Arrives robot f s f.length stack e) :
    ¬ Forever robot f s := by
  obtain ⟨s', hreach, hlast, _⟩ := h.exists_last
  exact not_forever_of_reaches hreach hlast

end Alone

/-- Entered at its first instruction, the fragment ends as the behaviour says
and in no other way: at its end with the stack as it was, with a stop above
that stack, or not at all. -/
structure Agrees (robot : Robot World) (f : Fragment) (b : Behaviour World) (stack : List Int)
    (w : World) : Prop where
  ends : ∀ e, b w e ↔ Arrives robot f ⟨0, stack, w⟩ f.length stack e
  forever : (∀ e, ¬ b w e) ↔ Forever robot f ⟨0, stack, w⟩

/-- Code that implements a behaviour agrees with it as a whole program: each run ends as the
behaviour says, and never ends where that has no ending. -/
theorem Implements.agrees {f : Fragment} {b : Behaviour World} (h : Implements robot f b)
    (hlen : f.length < 2 ^ 31) (stack : List Int) (w : World) : Agrees robot f b stack w := by
  have hperforms := h hlen f 0 (stands_self f) stack w
  rw [Int.zero_add] at hperforms
  constructor
  · intro e
    refine ⟨hperforms.arrives e, fun harrives => ?_⟩
    -- without an ending of the behaviour the machine would not have arrived anywhere
    by_cases hsome : ∃ e', b w e'
    · obtain ⟨e', he'⟩ := hsome
      rwa [harrives.unique (hperforms.arrives e' he')]
    · exact absurd (hperforms.forever fun e' he' => hsome ⟨e', he'⟩) harrives.not_forever
  · refine ⟨hperforms.forever, fun hforever e he => ?_⟩
    exact (hperforms.arrives e he).not_forever hforever

/-- In both dialects the code of a statement does what the statement means. -/
theorem lowering_preserves_meaning {World : Type} (robot : Robot World) :
    (∀ c : Braced.Statement, c.lower.length < 2 ^ 31 →
      ∀ stack w, Agrees robot c.lower (c.meaning robot) stack w)
      ∧ ∀ c : Worded.Command, c.lower.length < 2 ^ 31 →
        ∀ stack w, Agrees robot c.lower (c.meaning robot) stack w :=
  ⟨fun c => c.implements_lower.agrees, fun c => c.implements_lower.agrees⟩

/-- A robot in front of a pile of beepers, which is all there is. -/
def pileRobot : Robot Int where
  walls _ := 0
  orientation _ := 0
  worldBuzzers pile := pile
  bagBuzzers _ := 0
  argument _ _ := 0
  slot _ _ := 0
  mask a := a
  rotl a := a
  rotr a := a
  and a b := a * b
  or a b := a + b
  forward pile := pile
  left pile := pile
  pickBuzzer pile := pile - 1
  leaveBuzzer pile := pile + 1
  call _ _ _ pile := pile
  callAt _ _ pile := pile

/-- `iterate(2) pickbeeper();` -/
def pickTwo : Braced.Statement :=
  let t : Token := .endOfInput 1 1 0
  .times t t (.literal t 2) t (.builtin .pickBeeper t t t t)

/-- From five beepers three are left; a single one is not enough. -/
theorem pickTwo_agrees : pickTwo.lower.length < 2 ^ 31
    ∧ Arrives pileRobot pickTwo.lower ⟨0, [7], 5⟩ pickTwo.lower.length [7] (.ended 3)
    ∧ Arrives pileRobot pickTwo.lower ⟨0, [7], 1⟩ pickTwo.lower.length [7]
      (.stopped (.fault .worldUnderflow) 0) := by
  have hlen : pickTwo.lower.length < 2 ^ 31 := by decide
  have hagrees := (lowering_preserves_meaning pileRobot).1 pickTwo hlen [7]
  refine ⟨hlen, ((hagrees 5).ends _).mp ?_, ((hagrees 1).ends _).mp ?_⟩
  · exact .inl ⟨4, .inl ⟨5, rfl, rfl⟩, .inl ⟨3, .inl ⟨4, rfl, rfl⟩, rfl⟩⟩
  · exact .inl ⟨0, .inl ⟨1, rfl, rfl⟩, .inr ⟨_, 0, .inr ⟨_, 0, rfl, rfl⟩, rfl⟩⟩

end RobotLang
