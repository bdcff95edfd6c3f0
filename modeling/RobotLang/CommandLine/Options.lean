/-
  RobotLang.CommandLine.Options
  ─────────────────────────────
  **COMMAND LINE ARGUMENTS.**

      input               the source file
      --dialect NAME      the dialect, when the extension does not tell
      --tokens            dump the tokens and stop
      --cst               dump the syntax tree and stop
      --disasm            print a listing
      --stats             print a tally of opcodes
      --json              print the program as JSON
      --out PATH, -o PATH write the program as bytes
      --no-color          dump tokens without colours
      --pretty            dump tokens without their kinds

  Options may stand before and after the input; each may be given once.
  After `--` everything is an input.  Arguments are read one by one; an
  option that needs a value waits for the next argument, which must not look
  like an option.
-/
import RobotLang.Dialect

namespace RobotLang.CommandLine

/-- What the user asks for. -/
structure Options where
  input : String
  dialect : Option Dialect := none
  tokens : Bool := false
  cst : Bool := false
  disasm : Bool := false
  stats : Bool := false
  json : Bool := false
  out : Option String := none
  noColor : Bool := false
  pretty : Bool := false
  deriving DecidableEq, Repr

/-- The options that have no value. -/
inductive Flag where
  | tokens
  | cst
  | disasm
  | stats
  | json
  | noColor
  | pretty
  deriving DecidableEq, Repr

/-- The flag of that name. -/
def Flag.ofName? : String → Option Flag
  | "tokens" => some .tokens
  | "cst" => some .cst
  | "disasm" => some .disasm
  | "stats" => some .stats
  | "json" => some .json
  | "no-color" => some .noColor
  | "pretty" => some .pretty
  | _ => none

/-- The options that have a value. -/
inductive Valued where
  | dialect
  | out
  deriving DecidableEq, Repr

/-- The option of that name. -/
def Valued.ofName? : String → Option Valued
  | "dialect" => some .dialect
  | "out" => some .out
  | _ => none

/-- What the arguments read so far say. -/
structure Draft where
  input : Option String := none
  flags : List Flag := []
  dialect : Option Dialect := none
  out : Option String := none
  /-- The option whose value comes next. -/
  waiting : Option Valued := none
  /-- Whether `--` was read. -/
  inputsOnly : Bool := false
  deriving DecidableEq, Repr

namespace Draft

/-- A path, which must not be empty, for a place that is still free. -/
def freePath (taken : Option String) (path : String) : Option String :=
  if taken.isNone && path != "" then some path else none

/-- Takes the input. -/
def addInput (d : Draft) (path : String) : Option Draft :=
  (freePath d.input path).map fun path => { d with input := some path }

/-- Takes a flag. -/
def addFlag (d : Draft) (flag : Flag) : Option Draft :=
  if d.flags.contains flag then none else some { d with flags := flag :: d.flags }

/-- Takes the value of an option. -/
def addValue (d : Draft) (option : Valued) (value : String) : Option Draft :=
  match option with
  | .dialect =>
    if d.dialect.isSome then none
    else (Dialect.ofName? value).map fun dialect =>
      { d with dialect := some dialect, waiting := none }
  | .out =>
    (freePath d.out value).map fun path => { d with out := some path, waiting := none }

/-- Takes `--name` or `--name=value`. -/
def addLong (d : Draft) (body : List Char) : Option Draft :=
  let name := String.ofList (body.takeWhile (· != '='))
  match body.dropWhile (· != '='), Flag.ofName? name, Valued.ofName? name with
  | [], some flag, _ => d.addFlag flag
  | [], none, some option => some { d with waiting := some option }
  | _ :: value, none, some option => d.addValue option (String.ofList value)
  | _, _, _ => none

/-- Takes `-o` with its value attached or still to come. -/
def addShort (d : Draft) (body : List Char) : Option Draft :=
  match body with
  | ['o'] => some { d with waiting := some .out }
  | 'o' :: '=' :: value => d.addValue .out (String.ofList value)
  | 'o' :: value => d.addValue .out (String.ofList value)
  | _ => none

/-- Takes one argument. -/
def add (d : Draft) (argument : String) : Option Draft :=
  match d.inputsOnly, d.waiting, argument.toList with
  | true, _, _ => d.addInput argument
  | false, some option, cs =>
    match cs with
    | '-' :: _ :: _ => none
    | _ => d.addValue option argument
  | false, none, ['-', '-'] => some { d with inputsOnly := true }
  | false, none, '-' :: '-' :: body => d.addLong body
  | false, none, '-' :: c :: body => d.addShort (c :: body)
  | false, none, _ => d.addInput argument

/-- The options, if nothing is missing. -/
def finish (d : Draft) : Option Options :=
  match d.input, d.waiting with
  | some input, none =>
    some
      { input := input
        dialect := d.dialect
        tokens := d.flags.contains .tokens
        cst := d.flags.contains .cst
        disasm := d.flags.contains .disasm
        stats := d.flags.contains .stats
        json := d.flags.contains .json
        out := d.out
        noColor := d.flags.contains .noColor
        pretty := d.flags.contains .pretty }
  | _, _ => none

end Draft

/-- The options that the arguments spell, if they do. -/
def Options.parse (arguments : List String) : Option Options := do
  (← arguments.foldlM Draft.add {}).finish

end RobotLang.CommandLine
