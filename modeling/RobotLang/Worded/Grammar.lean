/-
  RobotLang.Worded.Grammar
  ────────────────────────
  **THE GRAMMAR OF THE WORDED DIALECT.**

      program     :=  'iniciar-programa' definition* main 'finalizar-programa'
      definition  :=  'define-nueva-instrucción' name parameter? 'como' statement
                   |  'define-prototipo-instrucción' name parameter? ';'
      main        :=  'inicia-ejecución' statement* 'termina-ejecución'
      statement   :=  command? ';'
      command     :=  action
                   |  name ('(' integer ')')?
                   |  'si' term 'entonces' command ('si-no' command)?
                   |  'mientras' term 'hacer' command
                   |  'repetir' integer 'veces' command
                   |  'inicio' statement* 'fin'

  What may follow the `;` of a statement depends on where it stands; with
  recovery, that is where a missing one is put in.  The two statement lists
  skip over garbage, up to anything that a rule around them could go on with.
-/
import RobotLang.Rule.Expression
import RobotLang.Worded.Program

namespace RobotLang.Worded

open Rule

/-! ## §1. First and follow sets. -/

/-- The kinds that start a command, in the order of the alternatives. -/
def commandFirst : List Kind :=
  Builtin.kinds ++ [.identifier, .if_, .while_, .repeat_, .begin_]

/-- The kinds that start a statement. -/
def statementFirst : List Kind :=
  commandFirst ++ [.semicolon]

/-- What may follow a statement inside a block. -/
def blockFollow : List Kind :=
  statementFirst ++ [.end_]

/-- What may follow a statement of the main list. -/
def mainFollow : List Kind :=
  statementFirst ++ [.endExecution]

/-- What may follow a definition. -/
def definitionFollow : List Kind :=
  [.define, .prototype, .beginExecution]

/-- Where the main list gives up skipping. -/
def mainResync : List Kind :=
  [.endProgram]

/-- Where a block gives up skipping. -/
def blockResync : List Kind :=
  [.else_, .end_, .endExecution, .define, .prototype, .beginExecution, .endProgram]

/-! ## §2. Commands and statements. -/

/-- `command? ;`, given the rule for a command and what may follow the `;`. -/
def statementOf (command : Rule Command) (follow : List Kind) : Rule Statement := do
  if ← isAtAny commandFirst then
    return .ended (← command) (← expectTerminator follow)
  else
    return .empty (← expectTerminator follow)

/-- `name` or `name ( argument )`. -/
def call : Rule Command := do
  let name ← expect .identifier
  match ← eat .leftParen with
  | some left => return .callWith name left (← integer) (← expect .rightParen)
  | none => return .call name

/-- `si test entonces yes` and perhaps `si-no no`. -/
def cond (command : Rule Command) : Rule Command := do
  let keyword ← expect .if_
  let test ← term
  let then_ ← expect .then_
  let yes ← command
  match ← eat .else_ with
  | some otherwise => return .condElse keyword test then_ yes otherwise (← command)
  | none => return .cond keyword test then_ yes

/-- `mientras test hacer body` -/
def whileDo (command : Rule Command) : Rule Command := do
  return .whileDo (← expect .while_) (← term) (← expect .do_) (← command)

/-- `repetir count veces body` -/
def times (command : Rule Command) : Rule Command := do
  return .times (← expect .repeat_) (← integer) (← expect .times) (← command)

/-- `inicio statement* fin` -/
def block (command : Rule Command) : Rule Command := do
  let opening ← expect .begin_
  let body ← list statementFirst .end_ blockResync (statementOf command blockFollow)
  return .block opening (.ofList body) (← expect .end_)

/-- A command, given the rule for a command nested in it. -/
def commandStep (inner : Rule Command) : Rule Command := do
  match ← peek with
  | .identifier => call
  | .if_ => cond inner
  | .while_ => whileDo inner
  | .repeat_ => times inner
  | .begin_ => block inner
  | kind =>
    match Builtin.ofKind? kind with
    | some action => return .builtin action (← advance)
    | none => noViable commandFirst

/-- A command. -/
def command : Rule Command :=
  nested commandStep commandFirst

/-- A statement. -/
def statement (follow : List Kind) : Rule Statement :=
  statementOf command follow

/-! ## §3. Definitions and programs. -/

/-- Parentheses after a name, if there are any. -/
def optionalParameter : Rule (Option Parameter) := do
  if ← isAt .leftParen then some <$> parameter else pure none

/-- A function with its body. -/
def fullDefinition : Rule Definition := do
  return .full (← expect .define) (← expect .identifier) (← optionalParameter) (← expect .as_)
    (← statement definitionFollow)

/-- A function declared ahead. -/
def prototype : Rule Definition := do
  return .prototype (← expect .prototype) (← expect .identifier) (← optionalParameter)
    (← expectTerminator definitionFollow)

/-- A function declared with or without a body. -/
def definition : Rule Definition := do
  match ← peek with
  | .define => fullDefinition
  | .prototype => prototype
  | _ => noViable [.define, .prototype]

/-- The statements to execute. -/
def mainPart : Rule Main := do
  let opening ← expect .beginExecution
  let body ← list statementFirst .endExecution mainResync (statement mainFollow)
  return ⟨opening, .ofList body, ← expect .endExecution⟩

/-- A whole program, up to the end of input. -/
def program : Rule Program := do
  let opening ← expect .beginProgram
  let definitions ← many [.define, .prototype] definition
  let main ← mainPart
  let closing ← expect .endProgram
  finish
  return ⟨opening, definitions, main, closing⟩

end RobotLang.Worded
