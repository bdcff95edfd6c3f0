/-
  RobotLang.Binary
  ────────────────
  **PROGRAMS AS BYTES.**

      natural number   seven bits a byte, lowest first; every byte but the
                       last has its high bit set
      signed number    2 n, or -2 n - 1 when negative, as a natural number
      text             its length in bytes, then UTF-8
      fault            its number
      opcode           how many parts it has, its mnemonic, its operands
      program          how many opcodes it has, then they

  A reader takes a number of 32 bits from at most five bytes and one of 64
  bits from at most ten.  It reads as many operands as the mnemonic has; an
  opcode that announces fewer parts is refused, and parts that are announced
  beyond are not skipped.  Bytes after the program do not matter.
-/
import RobotLang.Opcode

namespace RobotLang.Binary

abbrev Bytes : Type := List UInt8

/-! ## §1. Numbers. -/

/-- The width of a number. -/
structure Width where
  /-- How many bytes it may take. -/
  bytes : Nat
  /-- The largest value of the last of these. -/
  top : Nat

/-- Numbers of 32 bits. -/
def word : Width := ⟨5, 0x0F⟩

/-- Numbers of 64 bits, which lengths are too. -/
def long : Width := ⟨10, 0x01⟩

/-- A natural number in at most that many bytes. -/
def naturalBytes : (bytes : Nat) → Nat → Bytes
  | 0, _ => []
  | bytes + 1, n =>
    if n < 128 then [UInt8.ofNat n]
    else UInt8.ofNat (n % 128 + 128) :: naturalBytes bytes (n / 128)

/-- A natural number. -/
def ofNat (width : Width) (n : Nat) : Bytes :=
  naturalBytes width.bytes n

/-- The natural number that a signed one is written as. -/
def zigzag (n : Int) : Nat :=
  if 0 ≤ n then 2 * n.toNat else 2 * (-n).toNat - 1

/-- The signed number that a natural one stands for. -/
def unzigzag (n : Nat) : Int :=
  if n % 2 = 0 then (n / 2 : Nat) else -((n / 2 : Nat) : Int) - 1

/-! ## §2. Writing. -/

/-- The bytes of a text. -/
def utf8 (s : String) : Bytes :=
  s.toUTF8.data.toList

/-- A text. -/
def ofText (s : String) : Bytes :=
  ofNat long (utf8 s).length ++ utf8 s

/-- An operand. -/
def ofOperand : Operand → Bytes
  | .natural n => ofNat word n.toNat
  | .offset k => ofNat word (zigzag k.toInt)
  | .number v => ofNat long (zigzag v.toInt)
  | .target n => ofNat long n.toNat
  | .text s => ofText s
  | .fault f => ofNat word f.index.toNat

/-- An opcode. -/
def ofOpcode (op : Opcode) : Bytes :=
  ofNat long (1 + op.operandCount) ++ ofText op.name ++ op.operands.flatMap ofOperand

/-- A program. -/
def ofExecutable (ops : Executable) : Bytes :=
  ofNat long ops.length ++ ops.flatMap ofOpcode

/-! ## §3. Reading. -/

/-- Why bytes were turned away. -/
inductive Error where
  /-- The bytes end early. -/
  | unexpectedEnd
  /-- A number is too long or too large. -/
  | badNumber
  /-- A text is not UTF-8. -/
  | badText
  /-- There is no such opcode or fault, or an opcode has too few parts. -/
  | badOpcode
  deriving DecidableEq, Repr

/-- Reads from the front of a byte list. -/
abbrev Reader : Type → Type :=
  StateT Bytes (Except Error)

/-- One byte. -/
def byte : Reader Nat := fun bytes =>
  match bytes with
  | [] => .error .unexpectedEnd
  | b :: rest => .ok (b.toNat, rest)

/-- A natural number from at most that many bytes, the last one at most `top`. -/
def readNatural (top : Nat) : (bytes : Nat) → Reader Nat
  | 0 => throw .badNumber
  | bytes + 1 => do
    let b ← byte
    if b < 128 then
      if bytes = 0 ∧ top < b then throw .badNumber else return b
    else
      return b - 128 + 128 * (← readNatural top bytes)

/-- A natural number. -/
def readNat (width : Width) : Reader Nat :=
  readNatural width.top width.bytes

/-- The next `n` bytes. -/
def take (n : Nat) : Reader Bytes := fun bytes =>
  if n ≤ bytes.length then .ok (bytes.take n, bytes.drop n) else .error .unexpectedEnd

/-- A text. -/
def readText : Reader String := do
  let bytes ← take (← readNat long)
  match String.fromUTF8? ⟨bytes.toArray⟩ with
  | some s => return s
  | none => throw .badText

/-- An operand of the wanted type. -/
def readOperand : (t : OperandType) → Reader t.Value
  | .natural => return UInt32.ofNat (← readNat word)
  | .offset => return Int32.ofInt (unzigzag (← readNat word))
  | .number => return Int64.ofInt (unzigzag (← readNat long))
  | .target => return UInt64.ofNat (← readNat long)
  | .text => readText
  | .fault => do
    match Fault.ofIndex? (UInt32.ofNat (← readNat word)) with
    | some f => return f
    | none => throw .badOpcode

/-- Reads while counting down the parts that are left. -/
abbrev Parts : Type → Type :=
  StateT Nat Reader

/-- The next part, which has to be announced. -/
def part {α : Type} (read : Reader α) : Parts α := fun left =>
  match left with
  | 0 => throw .badOpcode
  | left + 1 => return (← read, left)

/-- The mnemonic and its operands. -/
def opcodeParts : Parts Opcode := do
  match Mnemonic.ofName? (← part readText) with
  | some mnemonic => mnemonic.readOpcode fun t => part (readOperand t)
  | none => throw .badOpcode

/-- An opcode. -/
def readOpcode : Reader Opcode := do
  return (← opcodeParts (← readNat long)).1

/-- That many opcodes. -/
def readOpcodes : Nat → Reader Executable
  | 0 => return []
  | n + 1 => return (← readOpcode) :: (← readOpcodes n)

/-- A program; the bytes after it do not matter. -/
def toExecutable (bytes : Bytes) : Except Error Executable :=
  ((do readOpcodes (← readNat long)) : Reader Executable).run bytes |>.map (·.1)

end RobotLang.Binary
