/-
  RobotLang.Link
  ──────────────
  **PUTTING FRAGMENTS TOGETHER.**

  The entry comes first, then the bodies in the order of their declarations.
  Two passes do the work.  The first places bodies and keeps a table of the
  functions declared so far; a declaration that contradicts an earlier one is
  reported and leaves neither code nor an entry in the table.  The second
  turns calls by name into calls by index, with the finished table, so that
  functions may call each other in any order.

  Where functions have to be declared before they are called, the first pass
  also reports the calls of a body to names that are not in the table yet.

  Instructions do not carry lines; the line of a report is that of the last
  `LINE` before it.
-/
import RobotLang.Diagnostic
import RobotLang.Fragment

namespace RobotLang

/-! ## §1. The function table. -/

/-- What is known of a function. -/
structure Signature where
  /-- The index of its body, once it has one. -/
  index : Option Nat
  paramCount : Nat
  deriving DecidableEq, Repr

/-- The functions declared so far; of two entries for a name the first counts. -/
abbrev FunctionTable : Type := List (String × Signature)

namespace FunctionTable

/-- What is known of the function of that name. -/
def find? (table : FunctionTable) (name : String) : Option Signature :=
  table.lookup name

/-- The name was declared. -/
def knows (table : FunctionTable) (name : String) : Bool :=
  (table.find? name).isSome

/-- The table after a declaration whose body, if it has one, starts at `index`;
or what is wrong with it.  A function is announced at most once, before it is
defined, and defined at most once, with the parameters announced. -/
def declare (table : FunctionTable) (d : Declaration) (index : Nat) :
    Except Issue FunctionTable :=
  match d.body, table.find? d.name with
  | none, none => .ok ((d.name, ⟨none, d.paramCount⟩) :: table)
  | none, some _ => .error .prototypeRedefinition
  | some _, none => .ok ((d.name, ⟨some index, d.paramCount⟩) :: table)
  | some _, some known =>
    if known.index.isSome then .error .functionRedefinition
    else if known.paramCount ≠ d.paramCount then .error .prototypeParameterMismatch
    else .ok ((d.name, ⟨some index, d.paramCount⟩) :: table)

/-- The index that a call goes to, or what is wrong with the call. -/
def resolve (table : FunctionTable) (name : String) (arity : Nat) : Except Issue Nat :=
  match table.find? name with
  | some ⟨some index, paramCount⟩ =>
    if paramCount + 1 = arity then .ok index else .error .functionParameterMismatch
  | _ => .error .undefinedFunction

end FunctionTable

/-! ## §2. Lines. -/

/-- The source line, from 1, after an instruction that was read on `line`. -/
def lineAfter (line : Nat) : Instr → Nat
  | .op (.line number) => number.toNat + 1
  | _ => line

/-! ## §3. Placing. -/

/-- The calls of a body to names that the table does not know. -/
def undeclaredCalls (table : FunctionTable) (line : Nat) : Fragment → List Diagnostic
  | [] => []
  | instr :: rest =>
    let line := lineAfter line instr
    match instr with
    | .call name _ =>
      if table.knows name then undeclaredCalls table line rest
      else .atLine .undefinedFunction name line :: undeclaredCalls table line rest
    | _ => undeclaredCalls table line rest

/-- The state of the first pass. -/
structure Placement where
  table : FunctionTable
  code : Fragment
  diagnostics : List Diagnostic
  deriving DecidableEq, Repr

/-- The first pass over one declaration. -/
def Placement.add (declareFirst : Bool) (p : Placement) (d : Declaration) : Placement :=
  match p.table.declare d p.code.length with
  | .error issue => { p with diagnostics := p.diagnostics ++ [.atLine issue d.name d.line] }
  | .ok table =>
    match d.body with
    | none => { p with table := table }
    | some body =>
      { table := table
        code := p.code ++ body
        diagnostics :=
          if declareFirst then p.diagnostics ++ undeclaredCalls table 1 body
          else p.diagnostics }

/-- The first pass. -/
def Unlinked.place (u : Unlinked) (declareFirst : Bool) : Placement :=
  u.declarations.foldl (Placement.add declareFirst) ⟨[], u.entry, []⟩

/-! ## §4. Resolving. -/

/-- The instruction with its names resolved, or what is wrong with it. -/
def Instr.resolve (table : FunctionTable) (line : Nat) : Instr → Except Diagnostic Opcode
  | .op opcode => .ok opcode
  | .call name arity =>
    match table.resolve name arity with
    | .ok index => .ok (.call (UInt64.ofNat index) name)
    | .error issue => .error (.atLine issue name line)
  | .param name => .error (.atLine .undefinedVariable name line)

/-- The second pass, from source line `line`: the opcodes, and what is wrong. -/
def resolveFrom (table : FunctionTable) (line : Nat) :
    Fragment → List Opcode × List Diagnostic
  | [] => ([], [])
  | instr :: rest =>
    let line := lineAfter line instr
    let (ops, diagnostics) := resolveFrom table line rest
    match instr.resolve table line with
    | .ok op => (op :: ops, diagnostics)
    | .error d => (ops, d :: diagnostics)

/-- One program from all fragments.  With `declareFirst`, a body may only call
functions declared above it, or itself. -/
def link (u : Unlinked) (declareFirst : Bool) : Except Failure Executable :=
  let placed := u.place declareFirst
  let (ops, diagnostics) := resolveFrom placed.table 1 placed.code
  match placed.diagnostics ++ diagnostics with
  | [] => .ok ops
  | diagnostics => .error ⟨.linking, diagnostics⟩

end RobotLang
