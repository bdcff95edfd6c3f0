/-
  RobotLang.Dialect
  ─────────────────
  **THE TWO DIALECTS, FROM SOURCE TEXT TO PROGRAM.**

  The braced dialect is strict: the first problem ends the parse.  The worded
  dialect goes on after a problem as long as it can repair it, and accepts a
  program whose only repairs are harmless.  Both compile to the same machine;
  in the worded dialect a function has to be declared before it is called.
-/
import RobotLang.Braced.Grammar
import RobotLang.Braced.Lowering
import RobotLang.Braced.Vocabulary
import RobotLang.Lexeme
import RobotLang.Link
import RobotLang.Path
import RobotLang.Worded.Grammar
import RobotLang.Worded.Lowering
import RobotLang.Worded.Terminator
import RobotLang.Worded.Vocabulary

namespace RobotLang

/-! ## §1. Parsing. -/

/-- A parsed program with its comments, which the grammar never sees. -/
structure Parsed (α : Type) where
  program : α
  comments : List Token

namespace Braced

/-- Parses the tokens of a source: no repairs, and sensors may have
parentheses. -/
def parseTokens (tokens : List Token) : Except Failure Program :=
  let o := program.run lexicon.label false true tokens
  match o.result, o.complaints with
  | some p, [] => .ok p
  | _, complaints => .error ⟨.parsing, complaints⟩

/-- Parses a source text. -/
def parse (source : String) : Except Failure (Parsed Program) :=
  let lexed := lexicon.tokenize source
  match lexed.errors with
  | [] => (parseTokens lexed.tokens).map fun p => ⟨p, lexed.comments⟩
  | errors => .error ⟨.lexing, errors⟩

/-- Compiles a source text. -/
def compile (source : String) : Except Failure Executable := do
  link (← parse source).program.lower false

end Braced

namespace Worded

/-- Parses the tokens of a source with repairs, and accepts the harmless ones.
A parse that had to give up reports all of its complaints. -/
def parseTokens (tokens : List Token) : Except Failure Program :=
  let o := program.run lexicon.label true false tokens
  match o.result with
  | none => .error ⟨.parsing, o.complaints⟩
  | some p =>
    match serious o.complaints with
    | [] => .ok (if o.complaints.isEmpty then p else p.settle)
    | complaints => .error ⟨.parsing, complaints⟩

/-- Parses a source text. -/
def parse (source : String) : Except Failure (Parsed Program) :=
  let lexed := lexicon.tokenize source
  match lexed.errors with
  | [] => (parseTokens lexed.tokens).map fun p => ⟨p, lexed.comments⟩
  | errors => .error ⟨.lexing, errors⟩

/-- Compiles a source text. -/
def compile (source : String) : Except Failure Executable := do
  link (← parse source).program.lower true

end Worded

/-! ## §2. Dialects. -/

/-- A way of writing programs. -/
inductive Dialect where
  /-- English words and braces; files end in `.kj`. -/
  | braced
  /-- Spanish words; files end in `.kp`. -/
  | worded
  deriving DecidableEq, Repr

namespace Dialect

/-- The name that users give to the dialect. -/
def name : Dialect → String
  | .braced => "java"
  | .worded => "pascal"

/-- The dialect of that name. -/
def ofName? : String → Option Dialect
  | "java" => some .braced
  | "pascal" => some .worded
  | _ => none

/-- The dialect of files with that extension. -/
def ofExtension? : String → Option Dialect
  | "kj" => some .braced
  | "kp" => some .worded
  | _ => none

/-- The dialect of the file at that path. -/
def ofPath? (path : String) : Option Dialect :=
  (Path.extension? path).bind ofExtension?

def lexicon : Dialect → Lexicon
  | .braced => Braced.lexicon
  | .worded => Worded.lexicon

/-- The tokens, comments and stray runs of a source text. -/
def tokenize (dialect : Dialect) (source : String) : Lexed :=
  dialect.lexicon.tokenize source

/-- The uniform view of a source text and its comments. -/
def parse (dialect : Dialect) (source : String) : Except Failure (Parsed Node) :=
  match dialect with
  | .braced => (Braced.parse source).map fun p => ⟨p.program.view, p.comments⟩
  | .worded => (Worded.parse source).map fun p => ⟨p.program.view, p.comments⟩

/-- What a source text gives to link. -/
def lower (dialect : Dialect) (source : String) : Except Failure Unlinked :=
  match dialect with
  | .braced => (Braced.parse source).map fun p => p.program.lower
  | .worded => (Worded.parse source).map fun p => p.program.lower

/-- Compiles a source text. -/
def compile (dialect : Dialect) (source : String) : Except Failure Executable :=
  match dialect with
  | .braced => Braced.compile source
  | .worded => Worded.compile source

end Dialect
end RobotLang
