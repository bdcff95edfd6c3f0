/-
  RobotLang.Opcode
  ────────────────
  **INSTRUCTIONS OF THE STACK MACHINE.**

  A program is a flat list of opcodes; execution starts at index 0.  Jumps
  are relative to the instruction after them, calls go to an absolute index.
  An opcode is known by its mnemonic, which also fixes how many operands it
  has and of which type; every written form of programs follows from
  `Opcode.mnemonic` and `Opcode.operands`.
-/

namespace RobotLang

/-! ## §1. Faults and opcodes. -/

/-- What `EZ` stops the robot for. -/
inductive Fault where
  | wall
  | worldUnderflow
  | bagUnderflow
  deriving DecidableEq, Repr

namespace Fault

/-- All faults, in the order of their numbers. -/
def all : List Fault :=
  [.wall, .worldUnderflow, .bagUnderflow]

/-- The fault's name in listings and on the wire. -/
def name : Fault → String
  | .wall => "WALL"
  | .worldUnderflow => "WORLDUNDERFLOW"
  | .bagUnderflow => "BAGUNDERFLOW"

/-- The fault of that name. -/
def ofName? (name : String) : Option Fault :=
  all.find? fun fault => fault.name == name

/-- The fault's number in the binary form. -/
def index : Fault → UInt32
  | .wall => 0
  | .worldUnderflow => 1
  | .bagUnderflow => 2

/-- The fault of that number. -/
def ofIndex? (index : UInt32) : Option Fault :=
  all.find? fun fault => fault.index == index

theorem mem_all (fault : Fault) : fault ∈ all := by
  cases fault <;> decide

end Fault

/-- An instruction of a linked program. -/
inductive Opcode where
  /-- The source line, from 0, of what follows. -/
  | line (number : UInt32)
  | halt
  | forward
  | left
  | pickBuzzer
  | leaveBuzzer
  /-- An absolute index, and the function's name for whoever reads it. -/
  | call (target : UInt64) (name : String)
  | ret
  /-- Pushes the argument in that slot. -/
  | param (slot : UInt32)
  | load (value : Int64)
  | dup
  | pop
  | inc
  | dec
  | eq
  | and
  | or
  | not
  /-- Jumps by that much from the next instruction. -/
  | jmp (offset : Int32)
  /-- Pops a value and jumps if it is zero. -/
  | jz (offset : Int32)
  /-- Pops a value and stops with the fault if it is zero. -/
  | ez (fault : Fault)
  | worldWalls
  | orientation
  | mask
  | rotl
  | rotr
  | worldBuzzers
  | bagBuzzers
  deriving DecidableEq, Repr

/-- A linked program. -/
abbrev Executable : Type := List Opcode

/-! ## §2. Mnemonics. -/

/-- What an opcode does, apart from its operands. -/
inductive Mnemonic where
  | line | halt
  | forward | left | pickBuzzer | leaveBuzzer
  | call | ret | param
  | load | dup | pop | inc | dec
  | eq | and | or | not
  | jmp | jz | ez
  | worldWalls | orientation | mask | rotl | rotr | worldBuzzers | bagBuzzers
  deriving DecidableEq, Repr

namespace Mnemonic

/-- All mnemonics. -/
def all : List Mnemonic :=
  [.line, .halt, .forward, .left, .pickBuzzer, .leaveBuzzer, .call, .ret, .param, .load, .dup,
    .pop, .inc, .dec, .eq, .and, .or, .not, .jmp, .jz, .ez, .worldWalls, .orientation, .mask,
    .rotl, .rotr, .worldBuzzers, .bagBuzzers]

/-- The written mnemonic. -/
def name : Mnemonic → String
  | .line => "LINE"
  | .halt => "HALT"
  | .forward => "FORWARD"
  | .left => "LEFT"
  | .pickBuzzer => "PICKBUZZER"
  | .leaveBuzzer => "LEAVEBUZZER"
  | .call => "CALL"
  | .ret => "RET"
  | .param => "PARAM"
  | .load => "LOAD"
  | .dup => "DUP"
  | .pop => "POP"
  | .inc => "INC"
  | .dec => "DEC"
  | .eq => "EQ"
  | .and => "AND"
  | .or => "OR"
  | .not => "NOT"
  | .jmp => "JMP"
  | .jz => "JZ"
  | .ez => "EZ"
  | .worldWalls => "WORLDWALLS"
  | .orientation => "ORIENTATION"
  | .mask => "MASK"
  | .rotl => "ROTL"
  | .rotr => "ROTR"
  | .worldBuzzers => "WORLDBUZZERS"
  | .bagBuzzers => "BAGBUZZERS"

/-- The mnemonic of that name. -/
def ofName? (name : String) : Option Mnemonic :=
  all.find? fun mnemonic => mnemonic.name == name

end Mnemonic

/-! ## §3. Operands. -/

/-- An operand with its type. -/
inductive Operand where
  /-- A line or a slot. -/
  | natural (n : UInt32)
  /-- The offset of a jump. -/
  | offset (k : Int32)
  /-- A number on the stack. -/
  | number (v : Int64)
  /-- An index into the program. -/
  | target (n : UInt64)
  /-- The name of a function. -/
  | text (s : String)
  | fault (f : Fault)
  deriving DecidableEq, Repr

namespace Opcode

/-- The opcode apart from its operands. -/
def mnemonic : Opcode → Mnemonic
  | .line _ => .line
  | .halt => .halt
  | .forward => .forward
  | .left => .left
  | .pickBuzzer => .pickBuzzer
  | .leaveBuzzer => .leaveBuzzer
  | .call _ _ => .call
  | .ret => .ret
  | .param _ => .param
  | .load _ => .load
  | .dup => .dup
  | .pop => .pop
  | .inc => .inc
  | .dec => .dec
  | .eq => .eq
  | .and => .and
  | .or => .or
  | .not => .not
  | .jmp _ => .jmp
  | .jz _ => .jz
  | .ez _ => .ez
  | .worldWalls => .worldWalls
  | .orientation => .orientation
  | .mask => .mask
  | .rotl => .rotl
  | .rotr => .rotr
  | .worldBuzzers => .worldBuzzers
  | .bagBuzzers => .bagBuzzers

/-- The written mnemonic of the opcode. -/
def name (op : Opcode) : String :=
  op.mnemonic.name

/-- The operands, in order. -/
def operands : Opcode → List Operand
  | .line n => [.natural n]
  | .param n => [.natural n]
  | .call target name => [.target target, .text name]
  | .load v => [.number v]
  | .jmp k => [.offset k]
  | .jz k => [.offset k]
  | .ez f => [.fault f]
  | _ => []

/-- How many operands the opcode announces. -/
def operandCount : Opcode → Nat
  | .call _ _ => 2
  | .line _ | .param _ | .load _ | .jmp _ | .jz _ | .ez _ => 1
  | _ => 0

/-- How far a jump goes, if the opcode is one. -/
def jumpOffset? : Opcode → Option Int32
  | .jmp k => some k
  | .jz k => some k
  | _ => none

/-- Where a call goes and what it names, if the opcode is one. -/
def callee? : Opcode → Option (Nat × String)
  | .call target name => some (target.toNat, name)
  | _ => none

end Opcode

/-- An operand as text. -/
def Operand.render : Operand → String
  | .natural n => toString n.toNat
  | .offset k => toString k.toInt
  | .number v => toString v.toInt
  | .target n => toString n.toNat
  | .text s => s
  | .fault f => f.name

/-- The opcode on one line: its mnemonic and its operands, with blanks between. -/
def Opcode.render (op : Opcode) : String :=
  " ".intercalate (op.name :: op.operands.map Operand.render)

/-! ## §4. Opcodes from their parts. -/

/-- The types of operands. -/
inductive OperandType where
  | natural
  | offset
  | number
  | target
  | text
  | fault
  deriving DecidableEq, Repr

/-- The values of an operand type. -/
abbrev OperandType.Value : OperandType → Type
  | .natural => UInt32
  | .offset => Int32
  | .number => Int64
  | .target => UInt64
  | .text => String
  | .fault => Fault

/-- The opcode with that mnemonic, its operands read in order by `read`. -/
def Mnemonic.readOpcode {m : Type → Type} [Monad m] (read : (t : OperandType) → m t.Value) :
    Mnemonic → m Opcode
  | .line => return .line (← read .natural)
  | .halt => return .halt
  | .forward => return .forward
  | .left => return .left
  | .pickBuzzer => return .pickBuzzer
  | .leaveBuzzer => return .leaveBuzzer
  | .call => return .call (← read .target) (← read .text)
  | .ret => return .ret
  | .param => return .param (← read .natural)
  | .load => return .load (← read .number)
  | .dup => return .dup
  | .pop => return .pop
  | .inc => return .inc
  | .dec => return .dec
  | .eq => return .eq
  | .and => return .and
  | .or => return .or
  | .not => return .not
  | .jmp => return .jmp (← read .offset)
  | .jz => return .jz (← read .offset)
  | .ez => return .ez (← read .fault)
  | .worldWalls => return .worldWalls
  | .orientation => return .orientation
  | .mask => return .mask
  | .rotl => return .rotl
  | .rotr => return .rotr
  | .worldBuzzers => return .worldBuzzers
  | .bagBuzzers => return .bagBuzzers

end RobotLang
