/-
  RobotLang.CommandLine.Command
  ─────────────────────────────
  **WHAT THE COMMAND DOES.**

  The command reads one source file.  It dumps the tokens or the tree and
  stops, or compiles the file and prints a listing, prints a tally, writes the
  bytes and prints the JSON form, in that order and as far as asked for; the
  JSON form is also printed when nothing else is asked for.

  A program that is turned away is reported on the error output; any other
  trouble is worded there as one line.  In both cases the status is 1.
-/
import RobotLang.CommandLine.Folder
import RobotLang.CommandLine.Options
import RobotLang.Listing
import RobotLang.Report
import RobotLang.TokenDump
import RobotLang.Wire

namespace RobotLang.CommandLine

/-- What the command leaves behind besides files. -/
structure Output where
  status : Nat
  stdout : String
  stderr : String
  deriving DecidableEq, Repr

namespace Output

/-- All went well. -/
def done (stdout : String) : Output :=
  ⟨0, stdout, ""⟩

/-- The program was turned away. -/
def rejected (report : String) : Output :=
  ⟨1, "", report⟩

/-- Some other trouble, after `stdout` was printed. -/
def trouble (stdout what : String) : Output :=
  ⟨1, stdout, "Error: " ++ what ++ "\n"⟩

end Output

/-- The dialect asked for, or else that of the file. -/
def Options.dialect? (o : Options) : Option Dialect :=
  o.dialect.or (Dialect.ofPath? o.input)

/-- The trouble with a file. -/
def fileTrouble (verb path : String) (e : FileError) : String :=
  "failed to " ++ verb ++ " '" ++ path ++ "': " ++ e.message

/-- A stray run, for the error output. -/
def strayLine (d : Diagnostic) : String :=
  "lexing-error " ++ Text.quoted (d.text.getD "") ++ " at " ++ toString (d.line.getD 0) ++ ":"
    ++ toString (d.column.getD 0) ++ "\n"

/-- The token dump.  Stray runs are told, but they are no failure here. -/
def dumpTokens (o : Options) (dialect : Dialect) (source : String) : Output :=
  let lexed := dialect.tokenize source
  ⟨0, TokenDump.dump ⟨!o.noColor, o.pretty⟩ lexed.tokens lexed.comments,
    String.join (lexed.errors.map strayLine)⟩

/-- A comment, after the tree. -/
def commentLine (t : Token) : String :=
  "comment " ++ Text.quoted t.image ++ " @" ++ toString t.line ++ ":" ++ toString t.column ++ "\n"

/-- The tree and the comments. -/
def dumpTree (o : Options) (dialect : Dialect) (source : String) : Output :=
  match dialect.parse source with
  | .error failure => .rejected (failure.report source (some o.input))
  | .ok parsed => .done (parsed.program.render ++ String.join (parsed.comments.map commentLine))

/-- The listing and the tally, as far as asked for. -/
def listings (o : Options) (ops : Executable) : String :=
  (if o.disasm then Listing.disassemble ops else "") ++ (if o.stats then Listing.stats ops else "")

/-- The JSON form, if asked for or if nothing else is. -/
def jsonLine (o : Options) (ops : Executable) : String :=
  if o.json || !(o.disasm || o.stats || o.out.isSome) then
    (Wire.ofExecutable ops).render ++ "\n"
  else ""

variable {m : Type → Type} [Monad m]

/-- Lists a program and writes it to where it is wanted. -/
def deliver (files : Files m) (o : Options) (ops : Executable) : m Output := do
  let text := listings o ops
  match o.out with
  | none => return .done (text ++ jsonLine o ops)
  | some path =>
    match ← files.write path (Binary.ofExecutable ops) with
    | .ok () => return .done (text ++ jsonLine o ops)
    | .error e => return .trouble text (fileTrouble "write" path e)

/-- The command on a source text. -/
def runOnSource (files : Files m) (o : Options) (dialect : Dialect) (source : String) :
    m Output := do
  if o.tokens then return dumpTokens o dialect source
  else if o.cst then return dumpTree o dialect source
  else
    match dialect.compile source with
    | .error failure => return .rejected (failure.report source (some o.input))
    | .ok ops => deliver files o ops

/-- The command with its options. -/
def runWith (files : Files m) (o : Options) : m Output := do
  match o.dialect? with
  | none =>
    return .trouble "" <| "cannot tell the dialect of '" ++ Path.displayName o.input
      ++ "': expected a .kj or .kp file, or --dialect"
  | some dialect =>
    match ← files.read o.input with
    | .error e => return .trouble "" (fileTrouble "read" o.input e)
    | .ok bytes =>
      match String.fromUTF8? ⟨bytes.toArray⟩ with
      | none =>
        return .trouble "" <|
          fileTrouble "read" o.input (.other "stream did not contain valid UTF-8")
      | some source => runOnSource files o dialect source

/-- The command with its arguments; `none` when they spell no options. -/
def run (files : Files m) (arguments : List String) : m (Option Output) := do
  match Options.parse arguments with
  | some o => return some (← runWith files o)
  | none => return none

end RobotLang.CommandLine
