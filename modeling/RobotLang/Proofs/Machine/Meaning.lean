/-
  RobotLang.Proofs.Machine.Meaning
  ────────────────────────────────
  **WHAT PROGRAMS MEAN, BY THEIR STRUCTURE.**

  A statement relates the world it starts in to the ways it can end: it comes
  to its end in some world, or it stops the run there.  A statement that runs
  forever does not end at all.  The meaning of a tree is put together from the
  meanings of its parts and knows nothing of instructions, jumps or stacks:

      branch      the first statement if the test is not zero, else the second
      Loop        the body again and again while the test is not zero
      times       the body as often as the count says; without end if the
                  count is negative
-/
import RobotLang.Braced.Lowering
import RobotLang.Proofs.Machine.Run
import RobotLang.Worded.Lowering

namespace RobotLang

/-! ## §1. Behaviours. -/

/-- How a statement ends. -/
inductive Ending (World : Type) where
  | ended (world : World)
  | stopped (cause : Cause) (world : World)

/-- In which ways a statement can end from each world. -/
abbrev Behaviour (World : Type) : Type := World → Ending World → Prop

namespace Behaviour

variable {World : Type}

/-- Does nothing. -/
def skip : Behaviour World :=
  fun w e => e = .ended w

/-- Changes the world. -/
def act (change : World → World) : Behaviour World :=
  fun w e => e = .ended (change w)

/-- Stops the run. -/
def stop (cause : Cause) : Behaviour World :=
  fun w e => e = .stopped cause w

/-- Stops the run with a fault if the value is zero. -/
def guard (value : World → Int) (fault : Fault) : Behaviour World :=
  fun w e => if value w = 0 then e = .stopped (.fault fault) w else e = .ended w

/-- One after the other, unless the first one stops the run. -/
def seq (first second : Behaviour World) : Behaviour World :=
  fun w e => (∃ w', first w (.ended w') ∧ second w' e)
    ∨ ∃ cause w', first w (.stopped cause w') ∧ e = .stopped cause w'

/-- One or the other. -/
def branch (test : World → Int) (yes no : Behaviour World) : Behaviour World :=
  fun w e => if test w = 0 then no w e else yes w e

/-- Again and again while the test is not zero. -/
inductive Loop (test : World → Int) (body : Behaviour World) : Behaviour World where
  | done {w : World} : test w = 0 → Loop test body w (.ended w)
  | again {w w' : World} {e : Ending World} :
      test w ≠ 0 → body w (.ended w') → Loop test body w' e → Loop test body w e
  | stopped {w w' : World} {cause : Cause} :
      test w ≠ 0 → body w (.stopped cause w') → Loop test body w (.stopped cause w')

/-- So many times. -/
def iterate (body : Behaviour World) : Nat → Behaviour World
  | 0 => skip
  | n + 1 => seq body (iterate body n)

/-- As often as the count says, which is asked once; a negative count never
runs out. -/
def times (count : World → Int) (body : Behaviour World) : Behaviour World :=
  fun w e => if 0 ≤ count w then iterate body (count w).toNat w e
    else Loop (fun _ => 1) body w e

end Behaviour

/-! ## §2. Values. -/

section Values

variable {World : Type} (robot : Robot World) (case : NameCase) (w : World)

/-- The value of a number. -/
def Integer.value : Integer → Int
  | .name token => robot.argument w (case.name token)
  | .literal _ value => value.toInt
  | .succ _ _ inner _ => inner.value + 1
  | .pred _ _ inner _ => inner.value - 1

/-- The wall in the direction that `turn` makes of the robot's own. -/
def Robot.wall (turn : Int → Int) : Int :=
  robot.and (robot.walls w) (robot.mask (turn (robot.orientation w)))

/-- What a sensor says. -/
def Sensor.value : Sensor → Int
  | .frontIsClear => truth (robot.wall w id = 0)
  | .frontIsBlocked => robot.wall w id
  | .leftIsClear => truth (robot.wall w robot.rotl = 0)
  | .leftIsBlocked => robot.wall w robot.rotl
  | .rightIsClear => truth (robot.wall w robot.rotr = 0)
  | .rightIsBlocked => robot.wall w robot.rotr
  | .nextToABeeper => truth (robot.worldBuzzers w ≠ 0)
  | .notNextToABeeper => truth (robot.worldBuzzers w = 0)
  | .anyBeepersInBeeperBag => truth (robot.bagBuzzers w ≠ 0)
  | .noBeepersInBeeperBag => truth (robot.bagBuzzers w = 0)
  | .facingWest => truth (robot.orientation w = 0)
  | .facingNorth => truth (robot.orientation w = 1)
  | .facingEast => truth (robot.orientation w = 2)
  | .facingSouth => truth (robot.orientation w = 3)
  | .notFacingWest => truth (robot.orientation w ≠ 0)
  | .notFacingNorth => truth (robot.orientation w ≠ 1)
  | .notFacingEast => truth (robot.orientation w ≠ 2)
  | .notFacingSouth => truth (robot.orientation w ≠ 3)

/-- The value of a condition. -/
def Condition.value {level : Level} : Condition level → Int
  | .conj c => c.value
  | .or left _ right => robot.or left.value right.value
  | .lit c => c.value
  | .and left _ right => robot.and left.value right.value
  | .plain c => c.value
  | .not _ c => truth (c.value = 0)
  | .isZero _ _ number _ => truth (number.value robot case w = 0)
  | .sensor x _ => x.value robot w
  | .sensorCall x _ _ _ => x.value robot w
  | .paren _ c _ => c.value

end Values

/-! ## §3. Statements. -/

section Statements

variable {World : Type} (robot : Robot World)

open Behaviour

/-- What a robot action does. -/
def Builtin.meaning : Builtin → Behaviour World
  | .move =>
    seq (guard (fun w => truth (robot.wall w id = 0)) .wall) (act robot.forward)
  | .turnLeft => act robot.left
  | .pickBeeper => seq (guard robot.worldBuzzers .worldUnderflow) (act robot.pickBuzzer)
  | .putBeeper => seq (guard robot.bagBuzzers .bagUnderflow) (act robot.leaveBuzzer)
  | .turnOff => stop .halt
  | .return_ => stop .ret

/-- What a call does; without an argument it passes zero. -/
def callMeaning (case : NameCase) (name : Token) (argument : Option Integer) : Behaviour World :=
  match argument with
  | none => act (robot.call (case.name name) 1 0)
  | some n => act fun w => robot.call (case.name name) 2 (n.value robot case w) w

/-- What code of the braced dialect does. -/
def Braced.Code.meaning {part : Braced.Part} : Braced.Code part → Behaviour World
  | .nil => skip
  | .cons head tail => seq head.meaning tail.meaning
  | .empty _ => skip
  | .builtin action _ _ _ _ => action.meaning robot
  | .call name _ argument _ _ => callMeaning robot Braced.nameCase name argument
  | .cond _ _ test _ yes =>
    branch (fun w => test.value robot Braced.nameCase w) yes.meaning skip
  | .condElse _ _ test _ yes _ no =>
    branch (fun w => test.value robot Braced.nameCase w) yes.meaning no.meaning
  | .whileDo _ _ test _ body =>
    Loop (fun w => test.value robot Braced.nameCase w) body.meaning
  | .times _ _ count _ body =>
    Behaviour.times (fun w => count.value robot Braced.nameCase w) body.meaning
  | .block _ body _ => body.meaning

/-- What code of the worded dialect does. -/
def Worded.Code.meaning {part : Worded.Part} : Worded.Code part → Behaviour World
  | .nil => skip
  | .cons head tail => seq head.meaning tail.meaning
  | .empty _ => skip
  | .ended command _ => command.meaning
  | .builtin action _ => action.meaning robot
  | .call name => callMeaning robot Worded.nameCase name none
  | .callWith name _ argument _ => callMeaning robot Worded.nameCase name (some argument)
  | .cond _ test _ yes =>
    branch (fun w => test.value robot Worded.nameCase w) yes.meaning skip
  | .condElse _ test _ yes _ no =>
    branch (fun w => test.value robot Worded.nameCase w) yes.meaning no.meaning
  | .whileDo _ test _ body =>
    Loop (fun w => test.value robot Worded.nameCase w) body.meaning
  | .times _ count _ body =>
    Behaviour.times (fun w => count.value robot Worded.nameCase w) body.meaning
  | .block _ body _ => body.meaning

end Statements

end RobotLang
