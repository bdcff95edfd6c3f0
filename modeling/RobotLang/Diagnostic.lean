/-
  RobotLang.Diagnostic
  ────────────────────
  **WHAT IS WRONG WITH A PROGRAM, AND WHERE.**

  A diagnostic names an issue and, as far as the finding phase knows it, the
  offending text with its line, its column and the words that would have been
  accepted there.  A failure is the phase that found the issues together with
  all of them, in the order in which they were found.
-/
import RobotLang.Token

namespace RobotLang

/-! ## §1. Issues. -/

/-- The kinds of thing that can be wrong. -/
inductive Issue where
  /-- A run of characters that no lexical entry takes. -/
  | lexingError
  /-- A token other than those that can stand here. -/
  | mismatchedToken
  /-- Input goes on after the program. -/
  | expectedEof
  /-- A literal beyond the largest number. -/
  | parseError
  | functionRedefinition
  | prototypeRedefinition
  | prototypeParameterMismatch
  | functionParameterMismatch
  | undefinedFunction
  | undefinedVariable
  deriving DecidableEq, Repr

namespace Issue

/-- All issues. -/
def all : List Issue :=
  [.lexingError, .mismatchedToken, .expectedEof, .parseError, .functionRedefinition,
    .prototypeRedefinition, .prototypeParameterMismatch, .functionParameterMismatch,
    .undefinedFunction, .undefinedVariable]

/-- The issue's name in reports and on the wire. -/
def name : Issue → String
  | .lexingError => "lexing-error"
  | .mismatchedToken => "mismatched-token"
  | .expectedEof => "expected-eof"
  | .parseError => "parse-error"
  | .functionRedefinition => "function-redefinition"
  | .prototypeRedefinition => "prototype-redefinition"
  | .prototypeParameterMismatch => "prototype-parameter-mismatch"
  | .functionParameterMismatch => "function-parameter-mismatch"
  | .undefinedFunction => "undefined-function"
  | .undefinedVariable => "undefined-variable"

/-- The issue of that name. -/
def ofName? (name : String) : Option Issue :=
  all.find? fun issue => issue.name == name

end Issue

/-! ## §2. Diagnostics. -/

/-- Where a diagnostic points, as far as it is known. -/
structure Location where
  /-- The offending text. -/
  text : String
  line : Option Nat := none
  column : Option Nat := none
  /-- The words that would have been accepted. -/
  expected : Option (List String) := none
  deriving DecidableEq, Repr

/-- An issue and its place. -/
structure Diagnostic where
  issue : Issue
  location : Option Location := none
  deriving DecidableEq, Repr

namespace Diagnostic

/-- An issue with the token `t`, and the words accepted in its place. -/
def atToken (issue : Issue) (t : Token) (expected : Option (List String)) : Diagnostic :=
  ⟨issue, some ⟨t.image, some t.line, some t.column, expected⟩⟩

/-- An issue with a name, of which only the line is known. -/
def atLine (issue : Issue) (text : String) (line : Nat) : Diagnostic :=
  ⟨issue, some ⟨text, some line, none, none⟩⟩

/-- A token that stands where one of `expected` should. -/
def mismatch (t : Token) (expected : List String) : Diagnostic :=
  atToken .mismatchedToken t (some expected)

/-- A run of characters that no lexical entry takes. -/
def unrecognised (text : String) (line column : Nat) : Diagnostic :=
  ⟨.lexingError, some ⟨text, some line, some column, none⟩⟩

def text (d : Diagnostic) : Option String :=
  d.location.map (·.text)

def line (d : Diagnostic) : Option Nat :=
  d.location.bind (·.line)

def column (d : Diagnostic) : Option Nat :=
  d.location.bind (·.column)

def expected (d : Diagnostic) : Option (List String) :=
  d.location.bind (·.expected)

end Diagnostic

/-! ## §3. Failures. -/

/-- The phases that can fail. -/
inductive Phase where
  | lexing
  | parsing
  | linking
  deriving DecidableEq, Repr

/-- The line that opens a report. -/
def Phase.message : Phase → String
  | .lexing => "lexing errors detected"
  | .parsing => "parse errors detected"
  | .linking => "failed to parse"

/-- Why a program was turned away. -/
structure Failure where
  phase : Phase
  diagnostics : List Diagnostic
  deriving DecidableEq, Repr

/-- The failure in one line. -/
def Failure.message (failure : Failure) : String :=
  failure.phase.message

end RobotLang
