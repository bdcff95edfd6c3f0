/-
  RobotLang.Report
  ────────────────
  **FAILURES AGAINST THE SOURCE TEXT.**

      parse errors detected
      hello.kj:2:17: mismatched-token
        2: class program ( foo
                           ^^^
      Expected one of "program"

  A report opens with the failure's message.  Every diagnostic has a header;
  when its line is one of the source, the line follows with carets under the
  offending text, and then the words that were expected.  An empty line ends
  every diagnostic.
-/
import RobotLang.Diagnostic
import RobotLang.Text

namespace RobotLang.Report

/-- The lines of a text: what stands between newlines. -/
def sourceLines (source : List Char) : List (List Char) :=
  source.splitOn '\n'

/-- File, line and column, as far as they are known, and the issue. -/
def header (filename : String) (d : Diagnostic) : String :=
  let place :=
    match d.line, d.column with
    | none, _ => ""
    | some line, none => ":" ++ toString line
    | some line, some column => ":" ++ toString line ++ ":" ++ toString column
  filename ++ place ++ ": " ++ d.issue.name

/-- What stands before a quoted line. -/
def margin (line : Nat) : String :=
  Text.alignRight 3 ' ' (toString line) ++ ": "

/-- Carets under the text that starts at `column` of the quoted line. -/
def carets (line column : Nat) (text : String) : String :=
  Text.repeatChar ((margin line).length + (column - 1)) ' ' ++ Text.repeatChar text.length '^'

/-- The words that were expected. -/
def expectation (words : List String) : String :=
  "Expected one of " ++ ", ".intercalate (words.map fun w => "\"" ++ w ++ "\"")

/-- The quoted line and what is said about it. -/
def context (d : Diagnostic) (line : Nat) (text : List Char) : List String :=
  [margin line ++ String.ofList text]
    ++ (match d.column, d.text with
        | some column, some text => [carets line column text]
        | _, _ => [])
    ++ (match d.expected with
        | some words => [expectation words]
        | none => [])

/-- The lines for one diagnostic. -/
def diagnosticLines (lines : List (List Char)) (filename : String) (d : Diagnostic) :
    List String :=
  let quoted :=
    match d.line with
    | none | some 0 => []
    | some (n + 1) =>
      match lines[n]? with
      | some text => context d (n + 1) text
      | none => []
  header filename d :: quoted ++ [""]

end Report

/-- The failure against the source text it was found in. -/
def Failure.report (failure : Failure) (source : String) (filename : Option String) : String :=
  let lines := Report.sourceLines source.toList
  "\n".intercalate (failure.message
    :: failure.diagnostics.flatMap
        (Report.diagnosticLines lines (filename.getD "<source>")))

end RobotLang
