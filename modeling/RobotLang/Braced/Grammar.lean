/-
  RobotLang.Braced.Grammar
  ────────────────────────
  **THE GRAMMAR OF THE BRACED DIALECT.**

      program     :=  'class' 'program' '{' definition* main '}'
      definition  :=  'void' name parameter block
      main        :=  'program' '(' ')' block
      block       :=  '{' statement* '}'
      statement   :=  ';'
                   |  action '(' ')' ';'
                   |  name '(' integer? ')' ';'
                   |  'if' '(' term ')' statement ('else' statement)?
                   |  'while' '(' term ')' statement
                   |  'iterate' '(' integer ')' statement
                   |  block

  One token always tells which way to go; an `else` belongs to the nearest
  `if` that can take it.
-/
import RobotLang.Braced.Program
import RobotLang.Rule.Expression

namespace RobotLang.Braced

open Rule

/-- The kinds that start a statement, in the order of the alternatives. -/
def statementFirst : List Kind :=
  Builtin.kinds ++ [.identifier, .semicolon, .if_, .while_, .repeat_, .leftBrace]

/-- Statements in braces, given the rule for a statement. -/
def blockOf (statement : Rule Statement) : Rule Block := do
  return ⟨← expect .leftBrace, .ofList (← many statementFirst statement), ← expect .rightBrace⟩

/-- `name ( argument? ) ;` -/
def call : Rule Statement := do
  let name ← expect .identifier
  let left ← expect .leftParen
  let argument ← if ← isAt .rightParen then pure none else some <$> integer
  let right ← expect .rightParen
  return .call name left argument right (← expect .semicolon)

/-- `action ( ) ;` -/
def builtin (action : Builtin) : Rule Statement := do
  return .builtin action (← advance) (← expect .leftParen) (← expect .rightParen)
    (← expect .semicolon)

/-- `if ( test ) yes` and perhaps `else no`. -/
def cond (statement : Rule Statement) : Rule Statement := do
  let keyword ← expect .if_
  let left ← expect .leftParen
  let test ← term
  let right ← expect .rightParen
  let yes ← statement
  match ← eat .else_ with
  | some otherwise => return .condElse keyword left test right yes otherwise (← statement)
  | none => return .cond keyword left test right yes

/-- `while ( test ) body` -/
def whileDo (statement : Rule Statement) : Rule Statement := do
  return .whileDo (← expect .while_) (← expect .leftParen) (← term) (← expect .rightParen)
    (← statement)

/-- `iterate ( count ) body` -/
def times (statement : Rule Statement) : Rule Statement := do
  return .times (← expect .repeat_) (← expect .leftParen) (← integer) (← expect .rightParen)
    (← statement)

/-- A statement, given the rule for a statement nested in it. -/
def statementStep (inner : Rule Statement) : Rule Statement := do
  match ← peek with
  | .if_ => cond inner
  | .while_ => whileDo inner
  | .repeat_ => times inner
  | .leftBrace => do
    let b ← blockOf inner
    return .block b.left b.body b.right
  | .identifier => call
  | .semicolon => return .empty (← advance)
  | kind =>
    match Builtin.ofKind? kind with
    | some action => builtin action
    | none => noViable statementFirst

/-- A statement. -/
def statement : Rule Statement :=
  nested statementStep statementFirst

/-- Statements in braces. -/
def block : Rule Block :=
  blockOf statement

/-- `void name ( parameter? ) block` -/
def definition : Rule Definition := do
  return ⟨← expect .define, ← expect .identifier, ← parameter, ← block⟩

/-- `program ( ) block` -/
def mainPart : Rule Main := do
  return ⟨← expect .program, ← expect .leftParen, ← expect .rightParen, ← block⟩

/-- A whole program, up to the end of input. -/
def program : Rule Program := do
  let keyword ← expect .class_
  let name ← expect .program
  let left ← expect .leftBrace
  let definitions ← many [.define] definition
  let main ← mainPart
  let right ← expect .rightBrace
  finish
  return ⟨keyword, name, left, definitions, main, right⟩

end RobotLang.Braced
