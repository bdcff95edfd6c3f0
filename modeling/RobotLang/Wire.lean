/-
  RobotLang.Wire
  ──────────────
  **PROGRAMS AND DIAGNOSTICS AS JSON.**

  An opcode is an array of its mnemonic and its operands, a program an array
  of opcodes.  A diagnostic is an object with its issue under `message` and,
  when it has one, its `location`.

  Reading takes elements and fields from left to right, and the first that
  does not fit decides the error.  A name may also be given as an object with
  the name as its only field and null in it, and a diagnostic or location as
  the array of its fields in order; null stands for what is left out.
-/
import RobotLang.Diagnostic
import RobotLang.Json
import RobotLang.Opcode

namespace RobotLang.Wire

/-- Why a JSON value was turned away. -/
inductive Error where
  /-- Another type of value is wanted. -/
  | invalidType
  /-- The integer is out of range. -/
  | invalidValue
  /-- The array is too short or too long. -/
  | invalidLength
  /-- There is no such name. -/
  | unknownVariant
  /-- A field is missing. -/
  | missingField
  deriving DecidableEq, Repr

/-- The error in two words. -/
def Error.message : Error → String
  | .invalidType => "invalid type"
  | .invalidValue => "invalid value"
  | .invalidLength => "invalid length"
  | .unknownVariant => "unknown variant"
  | .missingField => "missing field"

/-! ## §1. Writing. -/

/-- An operand. -/
def ofOperand : Operand → Json
  | .natural n => .int n.toNat
  | .offset k => .int k.toInt
  | .number v => .int v.toInt
  | .target n => .int n.toNat
  | .text s => .str s
  | .fault f => .str f.name

/-- An opcode: its mnemonic and its operands. -/
def ofOpcode (op : Opcode) : Json :=
  .arr (.str op.name :: op.operands.map ofOperand)

/-- A program. -/
def ofExecutable (ops : Executable) : Json :=
  .arr (ops.map ofOpcode)

/-- A field, unless its value is left out. -/
def field (name : String) (value : Option Json) : List (String × Json) :=
  match value with
  | some v => [(name, v)]
  | none => []

/-- A location. -/
def ofLocation (l : Location) : Json :=
  .obj (field "column" (l.column.map fun (n : Nat) => .int n)
    ++ field "expected" (l.expected.map fun words => .arr (words.map .str))
    ++ field "line" (l.line.map fun (n : Nat) => .int n)
    ++ [("text", .str l.text)])

/-- A diagnostic. -/
def ofDiagnostic (d : Diagnostic) : Json :=
  .obj (field "location" (d.location.map ofLocation) ++ [("message", .str d.issue.name)])

/-! ## §2. Reading values. -/

/-- A string. -/
def readString : Json → Except Error String
  | .str s => .ok s
  | _ => .error .invalidType

/-- An integer from `lo` to `hi`. -/
def readInt (lo hi : Int) : Json → Except Error Int
  | .int n => if lo ≤ n ∧ n ≤ hi then .ok n else .error .invalidValue
  | _ => .error .invalidType

/-- An integer that a place or a size can be. -/
def readNat (v : Json) : Except Error Nat :=
  (readInt 0 0xffffffffffffffff v).map Int.toNat

/-- A name that `find` knows. -/
def readName {α : Type} (find : String → Option α) : Json → Except Error α
  | .str s =>
    match find s with
    | some a => .ok a
    | none => .error .unknownVariant
  | .obj [(s, v)] =>
    match find s, v with
    | none, _ => .error .unknownVariant
    | some a, .null => .ok a
    | some _, _ => .error .invalidType
  | .obj _ => .error .invalidValue
  | _ => .error .invalidType

/-- A value that may be left out. -/
def readOptional {α : Type} (read : Json → Except Error α) : Json → Except Error (Option α)
  | .null => .ok none
  | v => (read v).map some

/-- An array of values. -/
def readList {α : Type} (read : Json → Except Error α) : Json → Except Error (List α)
  | .arr elements => elements.mapM read
  | _ => .error .invalidType

/-! ## §3. Reading programs. -/

/-- Reads elements from the front of an array. -/
abbrev Elements : Type → Type :=
  StateT (List Json) (Except Error)

/-- The next element, which has to be there. -/
def next {α : Type} (read : Json → Except Error α) : Elements α := fun elements =>
  match elements with
  | [] => .error .invalidLength
  | v :: rest => (read v).map fun a => (a, rest)

/-- An operand of the wanted type. -/
def readOperand : (t : OperandType) → Json → Except Error t.Value
  | .natural, v => (readInt 0 0xffffffff v).map fun n => UInt32.ofNat n.toNat
  | .offset, v => (readInt (-0x80000000) 0x7fffffff v).map Int32.ofInt
  | .number, v => (readInt (-0x8000000000000000) 0x7fffffffffffffff v).map Int64.ofInt
  | .target, v => (readInt 0 0xffffffffffffffff v).map fun n => UInt64.ofNat n.toNat
  | .text, v => readString v
  | .fault, v => readName Fault.ofName? v

/-- The mnemonic and its operands. -/
def opcodeElements : Elements Opcode := do
  match Mnemonic.ofName? (← next readString) with
  | some mnemonic => mnemonic.readOpcode fun t => next (readOperand t)
  | none => throw .unknownVariant

/-- A value read from all elements of an array. -/
def readAll {α : Type} (read : Elements α) (elements : List Json) : Except Error α :=
  match read elements with
  | .ok (a, []) => .ok a
  | .ok (_, _ :: _) => .error .invalidLength
  | .error e => .error e

/-- An opcode. -/
def toOpcode : Json → Except Error Opcode
  | .arr elements => readAll opcodeElements elements
  | _ => .error .invalidType

/-- A program. -/
def toExecutable (v : Json) : Except Error Executable :=
  readList toOpcode v

/-! ## §4. Reading diagnostics. -/

/-- The next element of an array, if there is one. -/
def nextOptional {α : Type} (read : Json → Except Error α) : Elements (Option α) :=
  fun elements =>
    match elements with
    | [] => .ok (none, [])
    | v :: rest => (readOptional read v).map fun a => (a, rest)

/-- Reads the fields of an object in order into a draft. -/
def readFields {α : Type} (readField : α → String → Json → Except Error α) (draft : α)
    (fields : List (String × Json)) : Except Error α :=
  fields.foldlM (fun draft (name, v) => readField draft name v) draft

/-- One field of a location; the text may still be missing. -/
def locationField (draft : Option String × Location) (name : String) (v : Json) :
    Except Error (Option String × Location) :=
  let (text, l) := draft
  match name with
  | "text" => (readString v).map fun s => (some s, l)
  | "line" => (readOptional readNat v).map fun n => (text, { l with line := n })
  | "column" => (readOptional readNat v).map fun n => (text, { l with column := n })
  | "expected" =>
    (readOptional (readList readString) v).map fun words => (text, { l with expected := words })
  | _ => .ok draft

/-- The fields of a location as elements of an array. -/
def locationElements : Elements Location := do
  return ⟨← next readString, ← nextOptional readNat, ← nextOptional readNat,
    ← nextOptional (readList readString)⟩

/-- A location. -/
def toLocation : Json → Except Error Location
  | .obj fields => do
    match ← readFields locationField (none, { text := "" }) fields with
    | (some text, l) => return { l with text := text }
    | (none, _) => throw .missingField
  | .arr elements => readAll locationElements elements
  | _ => .error .invalidType

/-- One field of a diagnostic; the issue may still be missing. -/
def diagnosticField (draft : Option Issue × Option Location) (name : String) (v : Json) :
    Except Error (Option Issue × Option Location) :=
  let (issue, location) := draft
  match name with
  | "message" => (readName Issue.ofName? v).map fun i => (some i, location)
  | "location" => (readOptional toLocation v).map fun l => (issue, l)
  | _ => .ok draft

/-- The fields of a diagnostic as elements of an array. -/
def diagnosticElements : Elements Diagnostic := do
  return ⟨← next (readName Issue.ofName?), ← nextOptional toLocation⟩

/-- A diagnostic. -/
def toDiagnostic : Json → Except Error Diagnostic
  | .obj fields => do
    match ← readFields diagnosticField (none, none) fields with
    | (some issue, location) => return ⟨issue, location⟩
    | (none, _) => throw .missingField
  | .arr elements => readAll diagnosticElements elements
  | _ => .error .invalidType

/-- A list of diagnostics. -/
def toDiagnostics (v : Json) : Except Error (List Diagnostic) :=
  readList toDiagnostic v

end RobotLang.Wire
