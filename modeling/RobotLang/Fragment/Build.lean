/-
  RobotLang.Fragment.Build
  ────────────────────────
  **THE CODE OF EACH CONSTRUCT.**

  What the constructs of both dialects compile to.  A construct starts with
  the line it stands on.  Jump offsets are computed from the lengths of the
  parts and count from the instruction after the jump:

      cond    LINE test JZ yes                      JZ over yes
      cond    LINE test JZ yes JMP no               JZ to no, JMP over no
      while   LINE test JZ body JMP                 JZ past the end, JMP back to test
      times   LINE count DUP LOAD 0 EQ NOT JZ       JZ to POP
              body DEC JMP POP                      JMP back to DUP
-/
import RobotLang.Expression
import RobotLang.Fragment
import RobotLang.Text

namespace RobotLang

/-! ## §1. Names. -/

/-- Whether names that differ in case are the same. -/
inductive NameCase where
  | sensitive
  | insensitive
  deriving DecidableEq, Repr

/-- The name that a token stands for. -/
def NameCase.name (case : NameCase) (t : Token) : String :=
  match case with
  | .sensitive => t.image
  | .insensitive => Text.lower t.image

namespace Fragment

/-! ## §2. Lines, actions, calls. -/

/-- The opcode for a line counted from 1. -/
def lineOp (line : Nat) : Opcode :=
  .line (UInt32.ofNat (line - 1))

/-- The line that a token starts on. -/
def lineOf (t : Token) : Instr :=
  .op (lineOp t.line)

/-- What a robot action does. -/
def actionOps : Builtin → List Opcode
  | .move => [.worldWalls, .orientation, .mask, .and, .not, .ez .wall, .forward]
  | .turnLeft => [.left]
  | .pickBeeper => [.worldBuzzers, .ez .worldUnderflow, .pickBuzzer]
  | .putBeeper => [.bagBuzzers, .ez .bagUnderflow, .leaveBuzzer]
  | .turnOff => [.halt]
  | .return_ => [.ret]

/-- A robot action. -/
def builtin (action : Builtin) (t : Token) : Fragment :=
  lineOf t :: ofOps (actionOps action)

/-- A call, after which the line is the caller's again.  A call without an
argument passes zero. -/
def call (name : String) (t : Token) : (argument : Option Fragment) → Fragment
  | some argument => lineOf t :: argument ++ [.call name 2, lineOf t]
  | none => [lineOf t, .op (.load 0), .call name 1, lineOf t]

/-! ## §3. Branches and loops. -/

/-- How far a jump over the fragment goes. -/
def span (f : Fragment) : Int32 :=
  Int32.ofNat f.length

/-- A conditional. -/
def cond (t : Token) (test yes : Fragment) : (no : Option Fragment) → Fragment
  | some no =>
    lineOf t :: test ++ [.op (.jz (1 + span yes))] ++ yes ++ [.op (.jmp (span no))] ++ no
  | none => lineOf t :: test ++ [.op (.jz (span yes))] ++ yes

/-- A loop that goes on while its test holds. -/
def whileDo (t : Token) (test body : Fragment) : Fragment :=
  lineOf t :: test ++ [.op (.jz (1 + span body))] ++ body
    ++ [.op (.jmp (-(span test + span body + 2)))]

/-- A loop that counts down.  The counter stays on the stack below the body. -/
def times (t : Token) (count body : Fragment) : Fragment :=
  lineOf t :: count ++ ofOps [.dup, .load 0, .eq, .not, .jz (span body + 2)] ++ body
    ++ ofOps [.dec, .jmp (-(span body + 7)), .pop]

/-! ## §4. Expressions. -/

/-- A number, left on the stack. -/
def ofInteger (case : NameCase) : Integer → Fragment
  | .name t => [.param (case.name t)]
  | .literal _ value => [.op (.load value)]
  | .succ _ _ inner _ => ofInteger case inner ++ [.op .inc]
  | .pred _ _ inner _ => ofInteger case inner ++ [.op .dec]

/-- What a sensor says, left on the stack as 0 or 1. -/
def sensorOps : Sensor → List Opcode
  | .frontIsClear => [.worldWalls, .orientation, .mask, .and, .not]
  | .frontIsBlocked => [.worldWalls, .orientation, .mask, .and]
  | .leftIsClear => [.worldWalls, .orientation, .rotl, .mask, .and, .not]
  | .leftIsBlocked => [.worldWalls, .orientation, .rotl, .mask, .and]
  | .rightIsClear => [.worldWalls, .orientation, .rotr, .mask, .and, .not]
  | .rightIsBlocked => [.worldWalls, .orientation, .rotr, .mask, .and]
  | .nextToABeeper => [.worldBuzzers, .load 0, .eq, .not]
  | .notNextToABeeper => [.worldBuzzers, .not]
  | .anyBeepersInBeeperBag => [.bagBuzzers, .load 0, .eq, .not]
  | .noBeepersInBeeperBag => [.bagBuzzers, .not]
  | .facingWest => [.orientation, .load 0, .eq]
  | .facingNorth => [.orientation, .load 1, .eq]
  | .facingEast => [.orientation, .load 2, .eq]
  | .facingSouth => [.orientation, .load 3, .eq]
  | .notFacingWest => [.orientation, .load 0, .eq, .not]
  | .notFacingNorth => [.orientation, .load 1, .eq, .not]
  | .notFacingEast => [.orientation, .load 2, .eq, .not]
  | .notFacingSouth => [.orientation, .load 3, .eq, .not]

/-- What a sensor says. -/
def ofSensor (sensor : Sensor) : Fragment :=
  ofOps (sensorOps sensor)

/-- A condition of any level, left on the stack as 0 or 1. -/
def ofCondition (case : NameCase) {level : Level} : Condition level → Fragment
  | .conj c => ofCondition case c
  | .or left _ right => ofCondition case left ++ ofCondition case right ++ [.op .or]
  | .lit c => ofCondition case c
  | .and left _ right => ofCondition case left ++ ofCondition case right ++ [.op .and]
  | .plain c => ofCondition case c
  | .not _ c => ofCondition case c ++ [.op .not]
  | .isZero _ _ number _ => ofInteger case number ++ [.op .not]
  | .sensor sensor _ => ofSensor sensor
  | .sensorCall sensor _ _ _ => ofSensor sensor
  | .paren _ c _ => ofCondition case c

/-! ## §5. Functions and the entry. -/

/-- The parameter of that name becomes slot 0; other names stay. -/
def bindParam (param : Option String) : Instr → Instr
  | .param name => if param = some name then .op (.param 0) else .param name
  | instr => instr

/-- The main code, ended by a halt on the line where `closing` ends. -/
def entry (main : Fragment) (closing : Token) : Fragment :=
  main ++ [.op (lineOp closing.endLine), .op .halt]

end Fragment

namespace Declaration

/-- A function with its body. -/
def function (case : NameCase) (name : Token) (param : Option Token) (body : Fragment) :
    Declaration where
  name := case.name name
  body := some (Fragment.lineOf name
    :: body.map (Fragment.bindParam (param.map case.name)) ++ [.op .ret])
  paramCount := if param.isSome then 1 else 0
  line := name.line

/-- A function announced ahead of its definition. -/
def prototype (case : NameCase) (name : Token) (hasParam : Bool) : Declaration where
  name := case.name name
  body := none
  paramCount := if hasParam then 1 else 0
  line := name.line

end Declaration
end RobotLang
