/-
  RobotLang.Proofs.Machine.Run
  ────────────────────────────
  **A STACK MACHINE FOR FRAGMENTS.**

  What the instructions mean, as far as code generation relies on it.  The
  world is abstract: what a robot can read from it and do to it is given by a
  `Robot`.  Numbers are unbounded, jumps count from the next instruction, and
  a run stops at a halt, at a return and at an `EZ` that pops zero.

  Straight-line code has an effect on stack and world that can be computed
  without the machine (`Fragment.effect`), and the machine runs it to its end
  (`reaches_of_effect`).
-/
import RobotLang.Fragment
import Mathlib.Logic.Relation

namespace RobotLang

/-! ## §1. Robots. -/

/-- What a robot reads from its world and does to it. -/
structure Robot (World : Type) where
  walls : World → Int
  orientation : World → Int
  worldBuzzers : World → Int
  bagBuzzers : World → Int
  /-- The argument of that name. -/
  argument : World → String → Int
  /-- The argument in that slot. -/
  slot : World → UInt32 → Int
  mask : Int → Int
  rotl : Int → Int
  rotr : Int → Int
  and : Int → Int → Int
  or : Int → Int → Int
  forward : World → World
  left : World → World
  pickBuzzer : World → World
  leaveBuzzer : World → World
  /-- A whole call by name, with its arity and its argument. -/
  call : String → Nat → Int → World → World
  /-- A whole call by index. -/
  callAt : UInt64 → Int → World → World

/-- Truth as a number. -/
def truth (p : Prop) [Decidable p] : Int :=
  if p then 1 else 0

@[simp] theorem truth_eq_zero {p : Prop} [Decidable p] : truth p = 0 ↔ ¬ p := by
  unfold truth
  split <;> simp [*]

/-! ## §2. Effects. -/

variable {World : Type}

/-- What an opcode that does not touch control does to stack and world; `none`
if it does, or if the stack is too short. -/
def Opcode.effect (robot : Robot World) (op : Opcode) :
    List Int × World → Option (List Int × World)
  | (stack, w) =>
    match op, stack with
    | .line _, stack => some (stack, w)
    | .forward, stack => some (stack, robot.forward w)
    | .left, stack => some (stack, robot.left w)
    | .pickBuzzer, stack => some (stack, robot.pickBuzzer w)
    | .leaveBuzzer, stack => some (stack, robot.leaveBuzzer w)
    | .call target _, a :: stack => some (stack, robot.callAt target a w)
    | .param slot, stack => some (robot.slot w slot :: stack, w)
    | .load value, stack => some (value.toInt :: stack, w)
    | .dup, a :: stack => some (a :: a :: stack, w)
    | .pop, _ :: stack => some (stack, w)
    | .inc, a :: stack => some ((a + 1) :: stack, w)
    | .dec, a :: stack => some ((a - 1) :: stack, w)
    | .eq, b :: a :: stack => some (truth (a = b) :: stack, w)
    | .and, b :: a :: stack => some (robot.and a b :: stack, w)
    | .or, b :: a :: stack => some (robot.or a b :: stack, w)
    | .not, a :: stack => some (truth (a = 0) :: stack, w)
    | .worldWalls, stack => some (robot.walls w :: stack, w)
    | .orientation, stack => some (robot.orientation w :: stack, w)
    | .mask, a :: stack => some (robot.mask a :: stack, w)
    | .rotl, a :: stack => some (robot.rotl a :: stack, w)
    | .rotr, a :: stack => some (robot.rotr a :: stack, w)
    | .worldBuzzers, stack => some (robot.worldBuzzers w :: stack, w)
    | .bagBuzzers, stack => some (robot.bagBuzzers w :: stack, w)
    | _, _ => none

/-- The effect of an instruction. -/
def Instr.effect (robot : Robot World) : Instr → List Int × World → Option (List Int × World)
  | .op opcode, s => opcode.effect robot s
  | .call name arity, (a :: stack, w) => some (stack, robot.call name arity a w)
  | .call _ _, _ => none
  | .param name, (stack, w) => some (robot.argument w name :: stack, w)

/-- The effect of instructions one after another. -/
def Fragment.effect (robot : Robot World) : Fragment → List Int × World →
    Option (List Int × World)
  | [], s => some s
  | instr :: f, s => (instr.effect robot s).bind (Fragment.effect robot f)

/-- Straight-line code in two parts does what the first does and then what the second does, and has
no effect if one of them has none. -/
theorem Fragment.effect_append (robot : Robot World) (f g : Fragment) (s : List Int × World) :
    Fragment.effect robot (f ++ g) s
      = (Fragment.effect robot f s).bind (Fragment.effect robot g) := by
  induction f generalizing s with
  | nil => rfl
  | cons instr f ih =>
    show (instr.effect robot s).bind _ = ((instr.effect robot s).bind _).bind _
    cases instr.effect robot s with
    | none => rfl
    | some s' => exact ih s'

/-! ## §3. The machine. -/

/-- Why a run stops. -/
inductive Cause where
  | halt
  | ret
  | fault (fault : Fault)
  deriving DecidableEq, Repr

/-- Where a run is; the next instruction is the one at `pc`. -/
structure Machine (World : Type) where
  pc : Int
  stack : List Int
  world : World

/-- What one instruction leads to. -/
inductive Turn (World : Type) where
  | next (s : Machine World)
  | stop (cause : Cause) (stack : List Int) (world : World)
  /-- There is no instruction, or the stack is too short for it. -/
  | lost

/-- What an instruction leads to. -/
def Instr.turn (robot : Robot World) (instr : Instr) (s : Machine World) : Turn World :=
  match instr, s.stack with
  | .op .halt, stack => .stop .halt stack s.world
  | .op .ret, stack => .stop .ret stack s.world
  | .op (.jmp offset), stack => .next ⟨s.pc + 1 + offset.toInt, stack, s.world⟩
  | .op (.jz offset), a :: stack =>
    .next ⟨if a = 0 then s.pc + 1 + offset.toInt else s.pc + 1, stack, s.world⟩
  | .op (.ez fault), a :: stack =>
    if a = 0 then .stop (.fault fault) stack s.world else .next ⟨s.pc + 1, stack, s.world⟩
  | instr, stack =>
    match instr.effect robot (stack, s.world) with
    | some (stack, world) => .next ⟨s.pc + 1, stack, world⟩
    | none => .lost

/-- The instruction at a place. -/
def fetch (code : Fragment) (pc : Int) : Option Instr :=
  if 0 ≤ pc then code[pc.toNat]? else none

/-- One turn of the machine. -/
def turn (robot : Robot World) (code : Fragment) (s : Machine World) : Turn World :=
  match fetch code s.pc with
  | some instr => instr.turn robot s
  | none => .lost

/-- One turn that goes on. -/
def Steps (robot : Robot World) (code : Fragment) (s s' : Machine World) : Prop :=
  turn robot code s = .next s'

/-- Turns that go on, any number of them. -/
abbrev Reaches (robot : Robot World) (code : Fragment) : Machine World → Machine World → Prop :=
  Relation.ReflTransGen (Steps robot code)

/-- Exactly so many turns that go on. -/
def StepsBy (robot : Robot World) (code : Fragment) : Nat → Machine World → Machine World → Prop
  | 0, s, s' => s = s'
  | n + 1, s, s' => ∃ mid, Steps robot code s mid ∧ StepsBy robot code n mid s'

/-- The run never stops. -/
def Forever (robot : Robot World) (code : Fragment) (s : Machine World) : Prop :=
  ∀ n, ∃ s', StepsBy robot code n s s'

section Runs

variable {robot : Robot World} {code : Fragment} {s s' t : Machine World}

/-- The machine has no choice: from one place it steps to one place. -/
theorem Steps.unique (h : Steps robot code s s') (h' : Steps robot code s t) : s' = t := by
  unfold Steps at h h'
  rw [h] at h'
  exact Turn.next.inj h'

/-- Runs that meet are one run, and their steps add up. -/
theorem StepsBy.append {n k : Nat} (h : StepsBy robot code n s s')
    (h' : StepsBy robot code k s' t) : StepsBy robot code (n + k) s t := by
  induction n generalizing s with
  | zero =>
    obtain rfl : s = s' := h
    rwa [Nat.zero_add]
  | succ n ih =>
    obtain ⟨mid, hstep, hrest⟩ := h
    rw [Nat.add_right_comm]
    exact ⟨mid, hstep, ih hrest⟩

/-- What is reached is reached in some number of steps. -/
theorem Reaches.exists_stepsBy (h : Reaches robot code s s') : ∃ n, StepsBy robot code n s s' := by
  induction h with
  | refl => exact ⟨0, rfl⟩
  | tail _ hstep ih =>
    obtain ⟨n, hn⟩ := ih
    exact ⟨n + 1, hn.append ⟨_, hstep, rfl⟩⟩

/-- Of two runs from one place the longer one comes by where the shorter one
is. -/
theorem StepsBy.exists_between {n k : Nat} (h : StepsBy robot code n s s')
    (h' : StepsBy robot code (n + k) s t) : StepsBy robot code k s' t := by
  induction n generalizing s with
  | zero =>
    obtain rfl : s = s' := h
    rwa [Nat.zero_add] at h'
  | succ n ih =>
    obtain ⟨mid, hstep, hrest⟩ := h
    rw [Nat.add_right_comm] at h'
    obtain ⟨mid', hstep', hrest'⟩ := h'
    rw [← hstep.unique hstep'] at hrest'
    exact ih hrest hrest'

/-- A run has every number of steps that is less. -/
theorem StepsBy.take {n k : Nat} (h : StepsBy robot code (n + k) s t) :
    ∃ mid, StepsBy robot code n s mid := by
  induction n generalizing s with
  | zero => exact ⟨s, rfl⟩
  | succ n ih =>
    rw [Nat.add_right_comm] at h
    obtain ⟨mid, hstep, hrest⟩ := h
    obtain ⟨last, hlast⟩ := ih hrest
    exact ⟨last, mid, hstep, hlast⟩

/-- A run that comes to where it goes on forever has gone on forever from its start. -/
theorem Forever.of_reaches (h : Reaches robot code s s') (h' : Forever robot code s') :
    Forever robot code s := by
  intro n
  obtain ⟨k, hk⟩ := h.exists_stepsBy
  obtain ⟨t, ht⟩ := h' n
  have hlong := hk.append ht
  rw [Nat.add_comm] at hlong
  exact hlong.take

/-- A run that comes to a turn that does not go on is over. -/
theorem not_forever_of_reaches (h : Reaches robot code s s')
    (hlast : ∀ t, ¬ Steps robot code s' t) : ¬ Forever robot code s := by
  intro hforever
  obtain ⟨n, hn⟩ := h.exists_stepsBy
  obtain ⟨t, ht⟩ := hforever (n + 1)
  obtain ⟨mid, hstep, _⟩ := hn.exists_between ht
  exact hlast mid hstep

/-- Where two runs from one place both come to a turn that does not go on, they
are at the same place. -/
theorem Reaches.unique (h : Reaches robot code s s') (hlast : ∀ u, ¬ Steps robot code s' u)
    (h' : Reaches robot code s t) (hlast' : ∀ u, ¬ Steps robot code t u) : s' = t := by
  obtain ⟨n, hn⟩ := h.exists_stepsBy
  obtain ⟨k, hk⟩ := h'.exists_stepsBy
  rcases Nat.le_total n k with hle | hle
  · obtain ⟨d, rfl⟩ := Nat.exists_eq_add_of_le hle
    cases d with
    | zero => exact hn.exists_between hk
    | succ d =>
      obtain ⟨mid, hstep, _⟩ := hn.exists_between hk
      exact absurd hstep (hlast mid)
  · obtain ⟨d, rfl⟩ := Nat.exists_eq_add_of_le hle
    cases d with
    | zero => exact (hk.exists_between hn).symm
    | succ d =>
      obtain ⟨mid, hstep, _⟩ := hk.exists_between hn
      exact absurd hstep (hlast' mid)

/-- A run that always comes back to a place of some sort never stops.  By strong induction on how
many steps are asked for: each round takes at least one of them. -/
theorem forever_of_progress (P : Machine World → Prop)
    (hprogress : ∀ s, P s → Forever robot code s
      ∨ ∃ s', Relation.TransGen (Steps robot code) s s' ∧ P s')
    (hs : P s) : Forever robot code s := by
  intro n
  induction n using Nat.strongRecOn generalizing s with
  | ind n ih =>
    rcases hprogress s hs with hforever | ⟨s', hround, hs'⟩
    · exact hforever n
    · obtain ⟨mid, hstep, hreaches⟩ := Relation.TransGen.head'_iff.mp hround
      obtain ⟨k, hk⟩ := Reaches.exists_stepsBy hreaches
      have hround : StepsBy robot code (k + 1) s s' := ⟨mid, hstep, hk⟩
      by_cases hle : n ≤ k + 1
      · obtain ⟨d, hd⟩ := Nat.exists_eq_add_of_le hle
        rw [hd] at hround
        exact hround.take
      · obtain ⟨t, ht⟩ := ih (n - (k + 1)) (by omega) hs'
        have hall := hround.append ht
        rw [show k + 1 + (n - (k + 1)) = n by omega] at hall
        exact ⟨t, hall⟩

end Runs

/-! ## §4. Code in its place. -/

/-- The fragment stands at `p` in the code. -/
def Stands (code : Fragment) (p : Int) (f : Fragment) : Prop :=
  ∃ before after, code = before ++ f ++ after ∧ p = before.length

section Stands

variable {code f g : Fragment} {p : Int}

theorem stands_self (f : Fragment) : Stands f 0 f :=
  ⟨[], [], by simp, rfl⟩

/-- Where two parts stand, the first one stands at their start. -/
theorem Stands.left (h : Stands code p (f ++ g)) : Stands code p f := by
  obtain ⟨before, after, rfl, rfl⟩ := h
  exact ⟨before, g ++ after, by simp, rfl⟩

/-- The second part stands right behind the first. -/
theorem Stands.right (h : Stands code p (f ++ g)) : Stands code (p + f.length) g := by
  obtain ⟨before, after, rfl, rfl⟩ := h
  exact ⟨before ++ f, after, by simp, by simp⟩

/-- The machine fetches the instruction that stands there. -/
theorem Stands.fetch_eq {instr : Instr} (h : Stands code p (instr :: f)) :
    fetch code p = some instr := by
  obtain ⟨before, after, rfl, rfl⟩ := h
  rw [fetch, if_pos (by omega), Int.toNat_natCast, List.append_assoc,
    List.getElem?_append_right (Nat.le_refl _), Nat.sub_self]
  rfl

/-- The same place, counted in another way. -/
theorem Stands.at {q : Int} (h : Stands code p f) (hq : q = p) : Stands code q f :=
  hq ▸ h

end Stands

section Turns

variable {robot : Robot World} {code f : Fragment} {p : Int} {stack stack' : List Int}
  {w w' : World}

/-- What the machine does there is what the instruction does, wherever the code came from. -/
theorem turn_of_stands {instr : Instr} (h : Stands code p (instr :: f)) :
    turn robot code ⟨p, stack, w⟩ = instr.turn robot ⟨p, stack, w⟩ := by
  rw [turn, h.fetch_eq]

/-- An instruction with an effect has that effect and goes on. -/
theorem Instr.turn_of_effect {instr : Instr}
    (h : instr.effect robot (stack, w) = some (stack', w')) :
    instr.turn robot ⟨p, stack, w⟩ = .next ⟨p + 1, stack', w'⟩ := by
  cases instr with
  | call name arity | param name => simp [Instr.turn, h]
  | op opcode =>
    cases opcode with
    -- these have no effect of their own
    | halt | ret | jmp | jz | ez => cases h
    | _ => simp [Instr.turn, h]

/-- Straight-line code is run to its end. -/
theorem reaches_of_effect (hf : Stands code p f)
    (h : f.effect robot (stack, w) = some (stack', w')) :
    Reaches robot code ⟨p, stack, w⟩ ⟨p + f.length, stack', w'⟩ := by
  induction f generalizing p stack w with
  | nil =>
    cases h
    simpa using .refl
  | cons instr f ih =>
    obtain ⟨⟨stack₁, w₁⟩, hinstr, hrest⟩ := Option.bind_eq_some_iff.mp h
    have hstep : Steps robot code ⟨p, stack, w⟩ ⟨p + 1, stack₁, w₁⟩ := by
      rw [Steps, turn_of_stands hf, Instr.turn_of_effect hinstr]
    have hreach := ih (hf.right (f := [instr])) hrest
    rw [List.length_cons, Int.natCast_succ, Int.add_comm _ 1, ← Int.add_assoc]
    exact .head hstep hreach

/-- A jump goes to its target, counted from the next instruction, and leaves stack and world
alone. -/
theorem steps_jmp {q : Int} {offset : Int32} (h : Stands code p [.op (.jmp offset)])
    (hq : q = p + 1 + offset.toInt) : Steps robot code ⟨p, stack, w⟩ ⟨q, stack, w⟩ := by
  rw [Steps, turn_of_stands h, hq]
  rfl

/-- A test that finds zero takes it off the stack and jumps. -/
theorem steps_jz_of_eq {q : Int} {offset : Int32} {a : Int} (h : Stands code p [.op (.jz offset)])
    (ha : a = 0) (hq : q = p + 1 + offset.toInt) :
    Steps robot code ⟨p, a :: stack, w⟩ ⟨q, stack, w⟩ := by
  rw [Steps, turn_of_stands h, hq]
  simp [Instr.turn, ha]

/-- A test that finds anything else takes it off the stack and goes on. -/
theorem steps_jz_of_ne {offset : Int32} {a : Int} (h : Stands code p [.op (.jz offset)])
    (ha : a ≠ 0) : Steps robot code ⟨p, a :: stack, w⟩ ⟨p + 1, stack, w⟩ := by
  rw [Steps, turn_of_stands h]
  simp [Instr.turn, ha]

end Turns

end RobotLang
