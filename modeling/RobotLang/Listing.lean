/-
  RobotLang.Listing
  ─────────────────
  **LISTINGS AND TALLIES OF A PROGRAM.**

  A listing shows every instruction under its index.  The main section comes
  first; every index that some call goes to starts a section of its own, named
  as the first of these calls names it.  A header says how many instructions
  stand before the next section.  Instructions that a jump goes to are marked.
-/
import RobotLang.Opcode
import RobotLang.Text

namespace RobotLang.Listing

/-! ## §1. Where jumps and calls go. -/

/-- Where a jump from index `i` goes; before the start counts as the start. -/
def jumpTarget (i : Nat) (offset : Int32) : Nat :=
  (i + 1 + offset.toInt).toNat

/-- The indices that jumps go to, where `ops` starts at index `i`. -/
def jumpTargets (i : Nat) : List Opcode → List Nat
  | [] => []
  | op :: ops =>
    match op.jumpOffset? with
    | some offset => jumpTarget i offset :: jumpTargets (i + 1) ops
    | none => jumpTargets (i + 1) ops

/-- The calls of a program: where they go and what they name. -/
def callees (ops : Executable) : List (Nat × String) :=
  ops.filterMap Opcode.callee?

/-- The least index at or after `start` that a call goes to. -/
def nextSection? (calls : List (Nat × String)) (start : Nat) : Option Nat :=
  ((calls.map (·.1)).filter (start ≤ ·)).min?

/-- The end of the section that the instruction before `start` belongs to. -/
def sectionEnd (ops : Executable) (calls : List (Nat × String)) (start : Nat) : Nat :=
  (nextSection? calls start).getD ops.length

/-! ## §2. Lines of a listing. -/

/-- The rule above and below the name of a section. -/
def ruler : String :=
  Text.repeatChar 40 '═'

/-- The lines that open a section. -/
def header (name : String) (length : Nat) : List String :=
  [ruler, " " ++ name, " " ++ toString length ++ " instructions", ruler]

/-- The line above an instruction that a jump goes to. -/
def targetMark : String :=
  Text.repeatChar 6 ' ' ++ "┌" ++ Text.repeatChar 34 '─'

/-- An index as it stands before its instruction. -/
def indexText (i : Nat) : String :=
  Text.zeroPadded 4 i

/-- A mnemonic and what follows it. -/
def columns (op : Opcode) (operands : String) : String :=
  Text.alignLeft 12 op.name ++ operands

/-- A jump from index `i`, with its direction and where it goes. -/
def jumpText (op : Opcode) (i : Nat) (offset : Int32) : String :=
  columns op <|
    Text.signed offset.toInt ++ (if offset.toInt < 0 then " ↑" else " ↓")
      ++ " (→ " ++ indexText (jumpTarget i offset) ++ ")"

/-- The instruction at index `i`. -/
def opText (op : Opcode) (i : Nat) : String :=
  match op with
  | .jmp offset => jumpText op i offset
  | .jz offset => jumpText op i offset
  | .call target name =>
    columns op ("\"" ++ name ++ "\" (→ " ++ indexText target.toNat ++ ")")
  | op =>
    match op.operands with
    | [] => op.name
    | operands => columns op (" ".intercalate (operands.map Operand.render))

/-- The lines for the instruction at index `i`. -/
def opLines (ops : Executable) (calls : List (Nat × String)) (targets : List Nat)
    (i : Nat) (op : Opcode) : List String :=
  let opening :=
    match calls.lookup i with
    | some name => "" :: header name (sectionEnd ops calls (i + 1) - i)
    | none => []
  if targets.contains i then
    opening ++ [targetMark, indexText i ++ " ► " ++ opText op i]
  else
    opening ++ [indexText i ++ "   " ++ opText op i]

/-- The listing of a program. -/
def disassemble (ops : Executable) : String :=
  let calls := callees ops
  let targets := jumpTargets 0 ops
  let lines := header "main" (sectionEnd ops calls 0)
    ++ (ops.zipIdx.flatMap fun (op, i) => opLines ops calls targets i op)
  String.join (lines.map (· ++ "\n"))

/-! ## §3. Tallies. -/

/-- How often each mnemonic occurs, the most frequent first; those that occur
equally often are in alphabetical order. -/
def tally (ops : Executable) : List (String × Nat) :=
  let counts := Mnemonic.all.map fun m => (m.name, ops.countP fun op => op.mnemonic == m)
  (counts.filter fun (_, n) => 0 < n).mergeSort fun (a, m) (b, n) =>
    n < m || (m == n && a ≤ b)

/-- The number of distinct indices that calls go to. -/
def functionCount (ops : Executable) : Nat :=
  ((callees ops).map (·.1)).eraseDups.length

/-- The size of a program and the tally of its opcodes. -/
def stats (ops : Executable) : String :=
  "Instructions:     " ++ toString ops.length ++ "\n"
    ++ "Functions:        " ++ toString (functionCount ops) ++ "\n\n"
    ++ String.join ((tally ops).map fun (name, n) =>
        "  " ++ Text.alignLeft 14 name ++ toString n ++ "\n")

end RobotLang.Listing
