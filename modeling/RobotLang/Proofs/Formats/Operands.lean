/-
  RobotLang.Proofs.Formats.Operands
  ─────────────────────────────────
  **OPCODES AND THEIR PARTS.**

  A mnemonic and its operands make up an opcode.  `Mnemonic.readOpcode` works
  in any monad; `Opcode.readOpcode_induction` says once, for all opcodes,
  that a relation which holds of reading one operand and passes through
  sequences holds of reading the opcode from its operands in order:

      R (read t) [t.operand a] a     for every operand of op
      ─────────────────────────────────────────────────────
      R (op.mnemonic.readOpcode read) op.operands op

  Names and numbers of mnemonics and faults lead back to them, and an opcode
  announces as many operands as it has (`Opcode.length_operands`).
-/
import RobotLang.Opcode

namespace RobotLang

/-! ## §1. Names and numbers. -/

/-- Every mnemonic is found again by its name. -/
@[simp] theorem Mnemonic.ofName?_name (mnemonic : Mnemonic) :
    ofName? mnemonic.name = some mnemonic := by
  cases mnemonic <;> decide

/-- What is found by a name has that name. -/
theorem Mnemonic.name_of_ofName? {s : String} {mnemonic : Mnemonic}
    (h : ofName? s = some mnemonic) : mnemonic.name = s := by
  unfold ofName? at h
  have hname := List.find?_some h
  exact eq_of_beq hname

/-- Every fault is found again by its name. -/
@[simp] theorem Fault.ofName?_name (fault : Fault) : ofName? fault.name = some fault := by
  cases fault <;> decide

theorem Fault.name_of_ofName? {s : String} {fault : Fault} (h : ofName? s = some fault) :
    fault.name = s := by
  unfold ofName? at h
  have hname := List.find?_some h
  exact eq_of_beq hname

/-- Every fault is found again by its number. -/
@[simp] theorem Fault.ofIndex?_index (fault : Fault) : ofIndex? fault.index = some fault := by
  cases fault <;> decide

/-! ## §2. Operands of a type. -/

/-- An opcode has as many operands as it announces, so that a reader which trusts the number it
was given finds them all and nothing else. -/
theorem Opcode.length_operands (op : Opcode) : op.operands.length = op.operandCount := by
  cases op <;> rfl

/-- The operand of that type with that value. -/
def OperandType.operand : (t : OperandType) → t.Value → Operand
  | .natural, n => .natural n
  | .offset, k => .offset k
  | .number, v => .number v
  | .target, n => .target n
  | .text, s => .text s
  | .fault, f => .fault f

/-- The types of the operands that follow the mnemonic. -/
def Mnemonic.signature : Mnemonic → List OperandType
  | .line | .param => [.natural]
  | .call => [.target, .text]
  | .load => [.number]
  | .jmp | .jz => [.offset]
  | .ez => [.fault]
  | _ => []

/-! ## §3. Reading in order. -/

section

variable {m : Type → Type} [Monad m] (read : (t : OperandType) → m t.Value)
  {R : {α : Type} → m α → List Operand → α → Prop}

/-- What holds of reading each operand, of reading none and of reading one after the other holds
of reading an opcode from its operands. -/
theorem Opcode.readOpcode_induction (op : Opcode)
    (hpure : ∀ {α : Type} (a : α), R (pure a) [] a)
    (hbind : ∀ {α β : Type} {x : m α} {f : α → m β} {front more : List Operand} {a : α} {b : β},
      R x front a → R (f a) more b → R (x >>= f) (front ++ more) b)
    (hread : ∀ (t : OperandType) (a : t.Value), t.operand a ∈ op.operands →
      R (read t) [t.operand a] a) :
    R (op.mnemonic.readOpcode read) op.operands op := by
  cases op with
  | line n | param n => exact hbind (hread .natural n (.head _)) (hpure _)
  | load v => exact hbind (hread .number v (.head _)) (hpure _)
  | jmp k | jz k => exact hbind (hread .offset k (.head _)) (hpure _)
  | ez f => exact hbind (hread .fault f (.head _)) (hpure _)
  | call target name =>
    -- two operands: the name is read with the target already at hand
    have htarget := hread .target target (.head _)
    have hname := hread .text name (.tail _ (.head _))
    exact hbind htarget (hbind hname (hpure _))
  | _ => exact hpure _

end

end RobotLang
