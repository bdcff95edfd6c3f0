/-
  RobotLang.Fragment
  ──────────────────
  **CODE BEFORE LINKING.**

  A fragment is the code of one construct.  Its jumps stay inside it, so
  fragments can be put one after another; calls and parameters are still
  names.  A declaration gives a name to a fragment, or announces one.
-/
import RobotLang.Opcode

namespace RobotLang

/-- An instruction before linking. -/
inductive Instr where
  | op (op : Opcode)
  /-- A call by name.  The arity counts the slot that every call fills: 1
  without an argument, 2 with one. -/
  | call (name : String) (arity : Nat)
  /-- A parameter by name. -/
  | param (name : String)
  deriving DecidableEq, Repr

/-- The code of one construct. -/
abbrev Fragment : Type := List Instr

/-- A function that is defined, or announced when it has no body. -/
structure Declaration where
  name : String
  body : Option Fragment
  /-- How many parameters it has. -/
  paramCount : Nat
  /-- The line, from 1, of its name. -/
  line : Nat
  deriving DecidableEq, Repr

/-- What there is to link: the declarations and the code to start with. -/
structure Unlinked where
  declarations : List Declaration
  entry : Fragment
  deriving DecidableEq, Repr

/-- Opcodes as a fragment. -/
def Fragment.ofOps (ops : List Opcode) : Fragment :=
  ops.map .op

@[simp] theorem Fragment.length_ofOps (ops : List Opcode) :
    (Fragment.ofOps ops).length = ops.length := by
  simp [Fragment.ofOps]

end RobotLang
