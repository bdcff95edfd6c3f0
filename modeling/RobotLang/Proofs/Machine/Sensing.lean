/-
  RobotLang.Proofs.Machine.Sensing
  ────────────────────────────────
  **CONDITIONS ARE COMPUTED.**

  What a condition says about the place where a robot stands is told without a
  machine: `Condition.holds` asks for walls, beepers and directions.  On a
  machine whose instructions read and compute as they should
  (`Robot.Standard`), the code of a condition, its parameter resolved,

      pushes    1 if the condition holds there, and 0 if it does not
      keeps     what was on the stack, after every one of its instructions

  A sensor for a wall takes one bit out of a set of walls, and "and" takes its
  operands for sets of bits too.  Both come out right because every value that
  is combined is 0 or 1 (`Condition.value_eq`).
-/
import Mathlib.Algebra.Order.Ring.Int
import Mathlib.Data.Int.Bitwise
import Mathlib.Data.Nat.Bitwise
import RobotLang.Proofs.Fragment.Uses
import RobotLang.Proofs.Machine.Lowering

namespace RobotLang

/-! ## §1. Surroundings. -/

/-- Where a robot can look. -/
inductive Direction where
  | west
  | north
  | east
  | south
  deriving DecidableEq, Repr

namespace Direction

/-- The direction as a number, and the place of its bit in a set of walls. -/
def number : Direction → Nat
  | .west => 0
  | .north => 1
  | .east => 2
  | .south => 3

/-- A quarter turn to the left. -/
def left : Direction → Direction
  | .west => .south
  | .north => .west
  | .east => .north
  | .south => .east

/-- A quarter turn to the right. -/
def right : Direction → Direction
  | .west => .north
  | .north => .east
  | .east => .south
  | .south => .west

/-- Turning left counts directions down, and starts over behind the first. -/
theorem number_left (d : Direction) : (d.left.number : Int) = (d.number - 1) % 4 := by
  cases d <;> rfl

/-- Turning right counts directions up, and starts over behind the last. -/
theorem number_right (d : Direction) : (d.right.number : Int) = (d.number + 1) % 4 := by
  cases d <;> rfl

end Direction

/-- What there is around a robot, and in its bag. -/
structure Surroundings where
  facing : Direction
  /-- There is a wall on that side. -/
  wall : Direction → Bool
  beepers : Nat
  bag : Nat

/-- What a sensor is there to tell. -/
def Sensor.holds (s : Surroundings) : Sensor → Bool
  | .frontIsClear => !s.wall s.facing
  | .frontIsBlocked => s.wall s.facing
  | .leftIsClear => !s.wall s.facing.left
  | .leftIsBlocked => s.wall s.facing.left
  | .rightIsClear => !s.wall s.facing.right
  | .rightIsBlocked => s.wall s.facing.right
  | .nextToABeeper => s.beepers != 0
  | .notNextToABeeper => s.beepers == 0
  | .anyBeepersInBeeperBag => s.bag != 0
  | .noBeepersInBeeperBag => s.bag == 0
  | .facingWest => s.facing == .west
  | .facingNorth => s.facing == .north
  | .facingEast => s.facing == .east
  | .facingSouth => s.facing == .south
  | .notFacingWest => s.facing != .west
  | .notFacingNorth => s.facing != .north
  | .notFacingEast => s.facing != .east
  | .notFacingSouth => s.facing != .south

/-- The number, where every name stands for the argument. -/
def Integer.amount (argument : Int) : Integer → Int
  | .name _ => argument
  | .literal _ value => value.toInt
  | .succ _ _ inner _ => inner.amount argument + 1
  | .pred _ _ inner _ => inner.amount argument - 1

/-- The condition is true in these surroundings, where every name stands for the
argument. -/
def Condition.holds (s : Surroundings) (argument : Int) {level : Level} : Condition level → Bool
  | .conj c => c.holds s argument
  | .or left _ right => left.holds s argument || right.holds s argument
  | .lit c => c.holds s argument
  | .and left _ right => left.holds s argument && right.holds s argument
  | .plain c => c.holds s argument
  | .not _ c => !c.holds s argument
  | .isZero _ _ number _ => number.amount argument == 0
  | .sensor x _ => x.holds s
  | .sensorCall x _ _ _ => x.holds s
  | .paren _ c _ => c.holds s argument

/-! ## §2. Robots that read and compute as they should. -/

variable {World : Type} {robot : Robot World} {around : World → Surroundings}

/-- The robot reads what is around it and computes as the instructions say. -/
structure Robot.Standard (robot : Robot World) (around : World → Surroundings) : Prop where
  /-- A set of walls has the bit of every side with a wall. -/
  walls : ∀ w, ∃ set : Nat, robot.walls w = set ∧ ∀ d, set.testBit d.number = (around w).wall d
  orientation : ∀ w, robot.orientation w = (around w).facing.number
  worldBuzzers : ∀ w, robot.worldBuzzers w = (around w).beepers
  bagBuzzers : ∀ w, robot.bagBuzzers w = (around w).bag
  mask : ∀ d : Direction, robot.mask d.number = (2 ^ d.number : Nat)
  rotl : ∀ d : Direction, robot.rotl d.number = (d.number - 1) % 4
  rotr : ∀ d : Direction, robot.rotr d.number = (d.number + 1) % 4
  and : ∀ a b, robot.and a b = truth (Int.land a b ≠ 0)
  or : ∀ a b, robot.or a b = truth (a ≠ 0 ∨ b ≠ 0)

theorem truth_congr {p q : Prop} [Decidable p] [Decidable q] (h : p ↔ q) : truth p = truth q := by
  unfold truth
  simp [h]

/-- The opposite of what is 0 or 1. -/
theorem truth_truth_eq_zero (b : Bool) : truth (truth b = 0) = truth (!b) :=
  truth_congr (by simp)

namespace Robot.Standard

/-- The bit of a side tells whether there is a wall. -/
theorem wall_eq (h : robot.Standard around) {turn : Int → Int} {w : World} {d : Direction}
    (hturn : turn (around w).facing.number = d.number) :
    robot.wall w turn = truth ((around w).wall d) := by
  obtain ⟨set, hset, hbits⟩ := h.walls w
  -- what the mask leaves of the set is the one bit or nothing
  rw [Robot.wall, h.and, h.orientation, hturn, h.mask, hset, ← hbits]
  refine truth_congr ?_
  show ((set &&& 2 ^ d.number : Nat) : Int) ≠ 0 ↔ _
  rw [Nat.and_two_pow]
  cases set.testBit d.number <;> simp

/-- Ahead is the side that the robot faces. -/
theorem front_eq (h : robot.Standard around) (w : World) :
    robot.wall w id = truth ((around w).wall (around w).facing) :=
  h.wall_eq rfl

/-- The side to the left is found by rotating the orientation before its bit is taken. -/
theorem left_eq (h : robot.Standard around) (w : World) :
    robot.wall w robot.rotl = truth ((around w).wall (around w).facing.left) :=
  h.wall_eq (by rw [h.rotl, Direction.number_left])

/-- The side to the right is found by rotating the orientation the other way. -/
theorem right_eq (h : robot.Standard around) (w : World) :
    robot.wall w robot.rotr = truth ((around w).wall (around w).facing.right) :=
  h.wall_eq (by rw [h.rotr, Direction.number_right])

/-- Directions have different numbers, so the number of the orientation tells which one the robot
faces. -/
theorem facing_iff (h : robot.Standard around) (w : World) (d : Direction) :
    robot.orientation w = d.number ↔ (around w).facing = d := by
  rw [h.orientation]
  cases (around w).facing <;> cases d <;> decide

end Robot.Standard

/-! ## §3. Values. -/

/-- What a sensor pushes is 1 if the sensor holds and 0 if it does not.  Beepers are counted and
directions compared; only walls are asked for as such. -/
theorem Sensor.value_eq (h : robot.Standard around) (w : World) (x : Sensor) :
    x.value robot w = truth (x.holds (around w)) := by
  -- a wall is asked for as such, and a clear side is that answer negated
  cases x with
  | frontIsClear =>
    rw [Sensor.value, h.front_eq, truth_truth_eq_zero]
    rfl
  | frontIsBlocked => exact h.front_eq w
  | leftIsClear =>
    rw [Sensor.value, h.left_eq, truth_truth_eq_zero]
    rfl
  | leftIsBlocked => exact h.left_eq w
  | rightIsClear =>
    rw [Sensor.value, h.right_eq, truth_truth_eq_zero]
    rfl
  | rightIsBlocked => exact h.right_eq w
  | nextToABeeper | notNextToABeeper =>
    rw [Sensor.value, h.worldBuzzers]
    exact truth_congr (by simp [Sensor.holds])
  | anyBeepersInBeeperBag | noBeepersInBeeperBag =>
    rw [Sensor.value, h.bagBuzzers]
    exact truth_congr (by simp [Sensor.holds])
  | facingWest => exact truth_congr ((h.facing_iff w .west).trans beq_iff_eq.symm)
  | facingNorth => exact truth_congr ((h.facing_iff w .north).trans beq_iff_eq.symm)
  | facingEast => exact truth_congr ((h.facing_iff w .east).trans beq_iff_eq.symm)
  | facingSouth => exact truth_congr ((h.facing_iff w .south).trans beq_iff_eq.symm)
  | notFacingWest => exact truth_congr ((h.facing_iff w .west).not.trans bne_iff_ne.symm)
  | notFacingNorth => exact truth_congr ((h.facing_iff w .north).not.trans bne_iff_ne.symm)
  | notFacingEast => exact truth_congr ((h.facing_iff w .east).not.trans bne_iff_ne.symm)
  | notFacingSouth => exact truth_congr ((h.facing_iff w .south).not.trans bne_iff_ne.symm)

/-- The robot with its one argument under every name. -/
def Robot.bound (robot : Robot World) : Robot World :=
  { robot with argument := fun w _ => robot.slot w 0 }

/-- Resolving the parameter changes nothing about what the robot senses. -/
theorem Robot.Standard.bound (h : robot.Standard around) : robot.bound.Standard around :=
  ⟨h.walls, h.orientation, h.worldBuzzers, h.bagBuzzers, h.mask, h.rotl, h.rotr, h.and, h.or⟩

/-- With its names resolved, the value of a number is the amount it has for that argument. -/
theorem Integer.value_bound (robot : Robot World) (case : NameCase) (w : World) (n : Integer) :
    n.value robot.bound case w = n.amount (robot.slot w 0) := by
  induction n with
  | name | literal => rfl
  | succ _ _ _ _ ih | pred _ _ _ _ ih => rw [Integer.value, Integer.amount, ih]

/-- What a condition pushes is 1 if it holds and 0 if it does not, so that "and" and "or" can go on
with it. -/
theorem Condition.value_eq (h : robot.Standard around) (case : NameCase) (w : World)
    {level : Level} (c : Condition level) :
    c.value robot.bound case w = truth (c.holds (around w) (robot.slot w 0)) := by
  induction c with
  | conj _ ih | lit _ ih | plain _ ih | paren _ _ _ ih => exact ih
  | or left operator right ihl ihr =>
    rw [Condition.value, h.bound.or, ihl, ihr]
    exact truth_congr (by simp [Condition.holds])
  | and left operator right ihl ihr =>
    -- the bits of 0 and 1 are all that "and" ever sees here
    rw [Condition.value, h.bound.and, ihl, ihr, Condition.holds]
    cases left.holds (around w) (robot.slot w 0) <;>
      cases right.holds (around w) (robot.slot w 0) <;> rfl
  | not operator c ih => rw [Condition.value, ih, truth_truth_eq_zero, Condition.holds]
  | isZero keyword left number right =>
    rw [Condition.value, Integer.value_bound]
    exact truth_congr (by simp [Condition.holds])
  | sensor x keyword | sensorCall x keyword left right => exact x.value_eq h.bound w

/-! ## §4. Resolved code. -/

/-- Code that asks for nothing is opcodes. -/
theorem Fragment.exists_ofOps {line : Nat} {f : Fragment} (h : f.uses line = []) :
    ∃ ops, f = .ofOps ops := by
  induction f generalizing line with
  | nil => exact ⟨[], rfl⟩
  | cons instr f ih =>
    cases instr with
    | op op =>
      obtain ⟨ops, rfl⟩ := ih (uses_cons_op op ▸ h)
      exact ⟨op :: ops, rfl⟩
    | call => cases h
    | param => cases h

/-- Code whose parameter was resolved does what it does where every name is that of the argument.
No use is left in it, so each name was that of the parameter, and there is no call. -/
theorem Fragment.effect_map_bindParam {param : Option String} {line : Nat} {f : Fragment}
    (h : uses line (f.map (bindParam param)) = []) (s : List Int × World) :
    effect robot (f.map (bindParam param)) s = effect robot.bound f s := by
  induction f generalizing line s with
  | nil => rfl
  | cons instr f ih =>
    have hstep : (bindParam param instr).effect robot s = instr.effect robot.bound s := by
      cases instr with
      | op op => rfl
      | call => cases h
      | param name =>
        rw [List.map_cons, bindParam] at h
        split at h
        · next hname =>
          rw [bindParam, if_pos hname]
          rfl
        · cases h
    have hrest : uses (lineAfter line (bindParam param instr)) (f.map (bindParam param)) = [] :=
      (List.append_eq_nil_iff.mp h).2
    show Option.bind _ _ = Option.bind _ _
    rw [hstep]
    exact Option.bind_congr fun s' _ => ih hrest s'

/-! ## §5. What stays on the stack. -/

/-- The opcode changes the world. -/
def Opcode.changesWorld : Opcode → Bool
  | .forward | .left | .pickBuzzer | .leaveBuzzer | .call _ _ => true
  | _ => false

/-- An opcode does not look below what it takes from the stack, and most leave the world alone. -/
theorem Opcode.effect_below {op : Opcode} {stack stack' : List Int} {w w' : World}
    (h : op.effect robot (stack, w) = some (stack', w')) (below : List Int) :
    op.effect robot (stack ++ below, w) = some (stack' ++ below, w')
      ∧ (op.changesWorld = false → w' = w) := by
  -- no opcode takes more than two values, so the stack need only be known that far
  cases op <;> rcases stack with _ | ⟨a, _ | ⟨b, stack⟩⟩ <;> cases h <;>
    exact ⟨rfl, by simp [changesWorld]⟩

/-- The instruction changes the world, or may do so by a call. -/
def Instr.changesWorld : Instr → Bool
  | .op opcode => opcode.changesWorld
  | .call _ _ => true
  | .param _ => false

namespace Fragment

/-- No instruction of the fragment changes the world. -/
def OnlyReads (f : Fragment) : Prop :=
  f.any Instr.changesWorld = false

@[simp] theorem onlyReads_append {f g : Fragment} :
    OnlyReads (f ++ g) ↔ OnlyReads f ∧ OnlyReads g := by
  simp [OnlyReads]

@[simp] theorem onlyReads_cons {instr : Instr} {f : Fragment} :
    OnlyReads (instr :: f) ↔ instr.changesWorld = false ∧ OnlyReads f := by
  simp [OnlyReads]

@[simp] theorem onlyReads_nil : OnlyReads [] := rfl

theorem onlyReads_ofInteger (case : NameCase) (n : Integer) : OnlyReads (ofInteger case n) := by
  induction n with
  | name | literal => rfl
  | succ _ _ _ _ ih | pred _ _ _ _ ih =>
    simp [ofInteger, Instr.changesWorld, Opcode.changesWorld, ih]

/-- Neither numbers nor conditions act on the world. -/
theorem onlyReads_ofCondition (case : NameCase) {level : RobotLang.Level} (c : Condition level) :
    OnlyReads (ofCondition case c) := by
  induction c with
  | conj _ ih | lit _ ih | plain _ ih | paren _ _ _ ih => exact ih
  | or _ _ _ ihl ihr | and _ _ _ ihl ihr =>
    simp [ofCondition, Instr.changesWorld, Opcode.changesWorld, ihl, ihr]
  | not _ _ ih => simp [ofCondition, Instr.changesWorld, Opcode.changesWorld, ih]
  | isZero =>
    simp [ofCondition, Instr.changesWorld, Opcode.changesWorld, onlyReads_ofInteger]
  | sensor x | sensorCall x => cases x <;> rfl

/-- A parameter that is resolved reads the stack, and still changes nothing. -/
theorem OnlyReads.map_bindParam {f : Fragment} (h : OnlyReads f) (param : Option String) :
    OnlyReads (f.map (bindParam param)) := by
  have hbind : Instr.changesWorld ∘ bindParam param = Instr.changesWorld := by
    funext instr
    cases instr with
    | param name =>
      simp only [Function.comp_apply, bindParam]
      split <;> rfl
    | _ => rfl
  rwa [OnlyReads, List.any_map, hbind]

/-- Opcodes that only read go on with more below on the stack as they do without it. -/
theorem OnlyReads.effect_below {ops : List Opcode} (hops : OnlyReads (ofOps ops))
    {stack stack' : List Int} {w w' : World}
    (h : effect robot (ofOps ops) (stack, w) = some (stack', w')) (below : List Int) :
    effect robot (ofOps ops) (stack ++ below, w) = some (stack' ++ below, w) := by
  induction ops generalizing stack with
  | nil =>
    cases h
    rfl
  | cons op ops ih =>
    obtain ⟨hop, hops⟩ := onlyReads_cons.mp hops
    obtain ⟨⟨stack₁, w₁⟩, hfirst, hrest⟩ := Option.bind_eq_some_iff.mp h
    obtain ⟨hbelow, hworld⟩ := Opcode.effect_below hfirst below
    obtain rfl := hworld hop
    exact Option.bind_eq_some_iff.mpr ⟨_, hbelow, ih hops hrest⟩

/-- After every opcode the stack is what it was, with something above it, and the world is as it
was. -/
def KeepsBelow (robot : Robot World) (ops : List Opcode) : Prop :=
  ∀ before after, ops = before ++ after → ∀ stack w, ∃ above,
    effect robot (ofOps before) (stack, w) = some (above ++ stack, w)

/-- Code that pushes its value on the empty stack too takes nothing from below. -/
theorem OnlyReads.keepsBelow {ops : List Opcode} (hops : OnlyReads (ofOps ops))
    {value : World → Int} (h : Pushes robot (ofOps ops) value) : KeepsBelow robot ops := by
  rintro before after rfl stack w
  -- on the empty stack nothing goes wrong either, and then there is nothing below to touch
  have hempty := h [] w
  rw [ofOps, List.map_append] at hempty hops
  rw [effect_append] at hempty
  obtain ⟨⟨above, w'⟩, hbefore, -⟩ := Option.bind_eq_some_iff.mp hempty
  exact ⟨above, effect_below (onlyReads_append.mp hops).1 hbefore stack⟩

end Fragment

/-! ## §6. Conditions. -/

open Fragment

/-- **Conditions are computed.**  Let all names in a condition be that of the parameter.  Then its
code, with the parameter resolved, is made of opcodes; it pushes 1 if the condition holds in the
robot's surroundings for the argument that was passed, and 0 if it does not; and it never touches
what was on the stack, whatever that was. -/
theorem condition_pushes_truth (h : robot.Standard around) (case : NameCase)
    (param : Option String) {level : Level} (c : Condition level)
    (hbound : ∀ t ∈ c.variables, param = some (case.name t)) :
    ∃ ops, (ofCondition case c).map (bindParam param) = ofOps ops
      ∧ Pushes robot (ofOps ops) (fun w => truth (c.holds (around w) (robot.slot w 0)))
      ∧ KeepsBelow robot ops := by
  -- resolving the parameter leaves no name to ask for
  have huses : uses 1 ((ofCondition case c).map (bindParam param)) = [] := by
    rw [uses_map_bindParam, uses_ofCondition, NameCase.uses, List.filter_eq_nil_iff]
    rintro u hu
    obtain ⟨t, ht, rfl⟩ := List.mem_map.mp hu
    simp [Use.isBound, hbound t ht]
  obtain ⟨ops, hops⟩ := exists_ofOps huses
  have hpushes : Pushes robot (ofOps ops)
      (fun w => truth (c.holds (around w) (robot.slot w 0))) := by
    intro stack w
    -- the argument in slot 0 is the argument under every name
    rw [← hops, effect_map_bindParam huses]
    dsimp only
    rw [← Condition.value_eq h case]
    exact pushes_ofCondition case c stack w
  refine ⟨ops, hops, hpushes, OnlyReads.keepsBelow ?_ hpushes⟩
  rw [← hops]
  exact (onlyReads_ofCondition case c).map_bindParam param

/-- The walls of a place as a set of bits. -/
def Surroundings.wallSet (s : Surroundings) : Nat :=
  (s.wall .west).toNat + 2 * (s.wall .north).toNat + 4 * (s.wall .east).toNat
    + 8 * (s.wall .south).toNat

/-- The set of walls has a bit for each side. -/
theorem Surroundings.testBit_wallSet (s : Surroundings) (d : Direction) :
    s.wallSet.testBit d.number = s.wall d := by
  unfold wallSet
  cases d <;> cases s.wall .west <;> cases s.wall .north <;> cases s.wall .east <;>
    cases s.wall .south <;> rfl

/-- A robot that stands still; its argument is part of its world. -/
def stillRobot : Robot (Surroundings × Int) where
  walls w := w.1.wallSet
  orientation w := w.1.facing.number
  worldBuzzers w := w.1.beepers
  bagBuzzers w := w.1.bag
  argument _ _ := 0
  slot w _ := w.2
  mask a := (2 ^ a.toNat : Nat)
  rotl a := (a - 1) % 4
  rotr a := (a + 1) % 4
  and a b := truth (Int.land a b ≠ 0)
  or a b := truth (a ≠ 0 ∨ b ≠ 0)
  forward w := w
  left w := w
  pickBuzzer w := w
  leaveBuzzer w := w
  call _ _ _ w := w
  callAt _ _ w := w

/-- There is a robot that senses as it should: one that stands still. -/
theorem stillRobot_standard : stillRobot.Standard Prod.fst where
  walls w := ⟨w.1.wallSet, rfl, w.1.testBit_wallSet⟩
  orientation _ := rfl
  worldBuzzers _ := rfl
  bagBuzzers _ := rfl
  mask _ := rfl
  rotl _ := rfl
  rotr _ := rfl
  and _ _ := rfl
  or _ _ := rfl

/-- `iszero(pred(n)) && !leftIsBlocked || facingNorth` -/
def mayTurn : Condition .term :=
  let t : Token := .endOfInput 1 1 0
  let n : Integer := .name { t with kind := .identifier, image := "n" }
  let isOne : Condition .literal := .plain (.isZero t t (.pred t t n t) t)
  .or (.conj (.and (.lit isOne) t (.not t (.sensor .leftIsBlocked t)))) t
    (.lit (.plain (.sensor .facingNorth t)))

/-- A corner that the robot looks into from the west. -/
def corner : Surroundings where
  facing := .east
  wall d := d == .east || d == .south
  beepers := 3
  bag := 0

/-- In the corner the condition holds for the argument 1 and not for 2. -/
theorem mayTurn_computed :
    stillRobot.Standard Prod.fst
      ∧ (∀ t ∈ mayTurn.variables, some "n" = some (NameCase.sensitive.name t))
      ∧ ∃ ops, (ofCondition .sensitive mayTurn).map (bindParam (some "n")) = ofOps ops
        ∧ effect stillRobot (ofOps ops) ([9], corner, 1) = some ([1, 9], corner, 1)
        ∧ effect stillRobot (ofOps ops) ([9], corner, 2) = some ([0, 9], corner, 2)
        ∧ KeepsBelow stillRobot ops := by
  have hbound : ∀ t ∈ mayTurn.variables, some "n" = some (NameCase.sensitive.name t) := by decide
  obtain ⟨ops, hops, hpushes, hkeeps⟩ :=
    condition_pushes_truth stillRobot_standard .sensitive (some "n") mayTurn hbound
  exact ⟨stillRobot_standard, hbound, ops, hops, hpushes [9] (corner, 1),
    hpushes [9] (corner, 2), hkeeps⟩

end RobotLang
