/-
  RobotLang.Main
  ──────────────
  **THE COMMAND ON A DISK.**
-/
import RobotLang.CommandLine.Command

namespace RobotLang.CommandLine

/-- The error that the system words as `details` and knows by the number `code`. -/
def FileError.ofCode (code : UInt32) (details : String) : FileError :=
  .other (details ++ " (os error " ++ toString code.toNat ++ ")")

/-- What the system says about a file. -/
def FileError.ofSystem : IO.Error → FileError
  | .noFileOrDirectory _ code details | .permissionDenied _ code details
  | .inappropriateType _ code details | .invalidArgument _ code details
  | .resourceExhausted _ code details | .alreadyExists _ code details
  | .noSuchThing _ code details | .resourceBusy code details
  | .unsupportedOperation code details | .illegalOperation code details
  | .hardwareFault code details | .otherError code details => .ofCode code details
  | e => .other (toString e)

/-- Reading and writing on the disk. -/
def disk : Files IO where
  read path := do
    try
      return .ok (← (← IO.FS.Handle.mk path .read).readBinToEnd).data.toList
    catch e =>
      return .error (.ofSystem e)
  write path bytes := do
    try
      IO.FS.writeBinFile path ⟨bytes.toArray⟩
      return .ok ()
    catch e =>
      return .error (.ofSystem e)

/-- What the error output says when the arguments spell no options. -/
def usage : String :=
  "usage: INPUT [--dialect NAME] [--tokens] [--cst] [--disasm] [--stats] [--json]"
    ++ " [--out PATH] [--no-color] [--pretty]"

end RobotLang.CommandLine

open RobotLang.CommandLine in
/-- Runs the command and leaves with its status; arguments that spell no
options have status 2. -/
def main (arguments : List String) : IO UInt32 := do
  match ← run disk arguments with
  | some output =>
    IO.print output.stdout
    IO.eprint output.stderr
    return UInt32.ofNat output.status
  | none =>
    IO.eprintln usage
    return 2
