/-
  RobotLang.Proofs.Unbounded.Braced
  ─────────────────────────────────
  **THE BRACED GRAMMAR WITHOUT BOUNDS FROM THE TOKENS.**

  The rules of the braced dialect that loop or nest, as readings that call
  each other.  A block notes where it starts a statement.  A statement takes
  the token that tells what it is before it reads what is nested in it, so the
  reading of a program returns, with what the grammar says
  (`agrees_program`).
-/
import RobotLang.Proofs.Unbounded.Expression

namespace RobotLang.Braced.Unbounded

open Rule RobotLang.Unbounded

/-! ## §1. Statements. -/

/-- `name ( argument? ) ;` -/
def call (depth : Nat) : Unbounded Statement := do
  let name ← expect .identifier
  let left ← expect .leftParen
  let argument ← if ← isAt .rightParen then pure none else some <$> Unbounded.integer depth
  let right ← expect .rightParen
  return .call name left argument right (← expect .semicolon)

mutual

/-- A statement. -/
def statement : (depth : Nat) → Unbounded Statement
  | 0 => never
  | depth + 1 => do
    match ← peek with
    | .if_ => cond depth
    | .while_ => whileDo depth
    | .repeat_ => times depth
    | .leftBrace => do
      let b ← block depth
      return .block b.left b.body b.right
    | .identifier => call depth
    | .semicolon => return .empty (← advance)
    | kind =>
      match Builtin.ofKind? kind with
      | some action => builtin action
      | none => noViable statementFirst

/-- `if ( test ) yes` and perhaps `else no`. -/
def cond : (depth : Nat) → Unbounded Statement
  | 0 => never
  | depth + 1 => do
    let keyword ← expect .if_
    let left ← expect .leftParen
    let test ← Unbounded.term depth
    let right ← expect .rightParen
    let yes ← statement depth
    match ← eat .else_ with
    | some otherwise => return .condElse keyword left test right yes otherwise (← statement depth)
    | none => return .cond keyword left test right yes

/-- `while ( test ) body` -/
def whileDo : (depth : Nat) → Unbounded Statement
  | 0 => never
  | depth + 1 => do
    return .whileDo (← expect .while_) (← expect .leftParen) (← Unbounded.term depth)
      (← expect .rightParen) (← statement depth)

/-- `iterate ( count ) body` -/
def times : (depth : Nat) → Unbounded Statement
  | 0 => never
  | depth + 1 => do
    return .times (← expect .repeat_) (← expect .leftParen) (← Unbounded.integer depth)
      (← expect .rightParen) (← statement depth)

/-- Statements in braces. -/
def block : (depth : Nat) → Unbounded Block
  | 0 => never
  | depth + 1 => do
    return ⟨← expect .leftBrace, .ofList (← statements depth), ← expect .rightBrace⟩

/-- A statement of a block. -/
def member : (depth : Nat) → Unbounded Statement
  | 0 => never
  | depth + 1 => do
    note .listed
    statement depth

/-- Statements, for as long as one starts. -/
def statements : (depth : Nat) → Unbounded (List Statement)
  | 0 => never
  | depth + 1 => do
    if ← isAtAny statementFirst then
      let head ← member depth
      let tail ← statements depth
      return head :: tail
    else
      return []

end

/-! ## §2. Definitions and programs. -/

/-- `void name ( parameter? ) block` -/
def definition (depth : Nat) : Unbounded Definition := do
  return ⟨← expect .define, ← expect .identifier, ← parameter, ← block depth⟩

/-- Functions, for as long as one starts. -/
def definitions : (depth : Nat) → Unbounded (List Definition)
  | 0 => never
  | depth + 1 => do
    if ← isAtAny [.define] then
      let head ← definition depth
      let tail ← definitions depth
      return head :: tail
    else
      return []

/-- `program ( ) block` -/
def mainPart (depth : Nat) : Unbounded Main := do
  return ⟨← expect .program, ← expect .leftParen, ← expect .rightParen, ← block depth⟩

/-- A whole program, up to the end of input. -/
def program (depth : Nat) : Unbounded Program := do
  let keyword ← expect .class_
  let name ← expect .program
  let left ← expect .leftBrace
  let definitions ← definitions depth
  let main ← mainPart depth
  let right ← expect .rightBrace
  finish
  return ⟨keyword, name, left, definitions, main, right⟩

/-! ## §3. They return what the rules say. -/

variable {x : Input} {n : Nat}

/-- A call nests nothing but its argument, a number. -/
theorem agrees_call : AgreesBelow x n call Braced.call := by
  refine .lift_bind (courses_expect _) fun name => .lift_bind (courses_expect _) fun left =>
    .lift_bind (courses_isAt _) fun b => ?_
  -- with or without an argument, the call goes on in the same way
  have hrest (argument : Option Integer) : AgreesBelow x n
      (fun _ => do
        let right ← expect .rightParen
        return Code.call name left argument right (← expect .semicolon))
      (do
        let right ← expect .rightParen
        return Code.call name left argument right (← expect .semicolon)) :=
    .lift_bind (courses_expect _) fun _ => .lift_bind (courses_expect _) fun _ => .pure _
  cases b with
  | true => exact (AgreesBelow.pure none).bind hrest
  | false => exact (agrees_integer.bind fun _ => .pure _).bind hrest

section Statements

variable {inner : Rule Statement} (hinner : AgreesBelow x n statement inner)

include hinner

/-- The branches of a conditional stand behind its word. -/
theorem agrees_cond : AgreesBelow x (n + 1) cond (Braced.cond inner) := by
  refine .of_succ (.expect_bind (by decide) fun _ => .lift_bind (courses_expect _) fun _ =>
    agrees_term.bind fun _ => .lift_bind (courses_expect _) fun _ => hinner.bind fun _ =>
    .lift_bind (courses_eat _) fun found => ?_)
  cases found with
  | some otherwise => exact hinner.bind fun _ => .pure _
  | none => exact .pure _

theorem agrees_whileDo : AgreesBelow x (n + 1) whileDo (Braced.whileDo inner) :=
  .of_succ (.expect_bind (by decide) fun _ => .lift_bind (courses_expect _) fun _ =>
    agrees_term.bind fun _ => .lift_bind (courses_expect _) fun _ => hinner.bind fun _ => .pure _)

theorem agrees_times : AgreesBelow x (n + 1) times (Braced.times inner) :=
  .of_succ (.expect_bind (by decide) fun _ => .lift_bind (courses_expect _) fun _ =>
    agrees_integer.bind fun _ => .lift_bind (courses_expect _) fun _ => hinner.bind fun _ =>
    .pure _)

variable (hx : x.starts = statementFirst) (hadvances : Advances n statementFirst inner x.setting)

include hx hadvances

/-- A block starts a statement where one can start.  Each takes a token, so the turns of the loop
come to an end. -/
theorem agrees_many : AgreesBelow x n statements (many statementFirst inner) := by
  refine .many (fun _ => rfl) (by decide) hadvances fun ts hts hn hin => ?_
  exact .of_succ (.note_bind (hinner hts hn) fun ms hms => .listed hts (hx ▸ hin) hms)

/-- The statements of a block stand behind its brace. -/
theorem agrees_blockOf : AgreesBelow x (n + 1) block (blockOf inner) :=
  .of_succ (.expect_bind (by decide) fun _ => (agrees_many hinner hx hadvances).bind fun _ =>
    .lift_bind (courses_expect _) fun _ => .pure _)

/-- Whatever is nested in a statement stands behind the token that tells what it is. -/
theorem agrees_statementStep : AgreesBelow x (n + 1) statement (statementStep inner) := by
  refine .of_succ (.peek_bind fun kind ts hts hn _ => ?_)
  cases kind with
  | if_ => exact agrees_cond hinner hts hn
  | while_ => exact agrees_whileDo hinner hts hn
  | repeat_ => exact agrees_times hinner hts hn
  | leftBrace => exact (agrees_blockOf hinner hx hadvances).bind (fun _ => .pure _) hts hn
  | identifier => exact agrees_call hts hn
  | semicolon => exact AgreesBelow.lift_bind courses_advance (fun _ => .pure _) hts hn
  | move | turnLeft | pickBeeper | putBeeper | turnOff | return_ =>
    exact .lift .nil (composes_builtin composes_courses _)
  | _ => exact .lift .nil (courses_noViable statementFirst)

end Statements

section Programs

variable (hx : x.starts = statementFirst)

include hx

/-- Statements of any depth are read as the rule says, since each layer has fewer tokens. -/
theorem agrees_statement : AgreesBelow x n statement Braced.statement :=
  .nested fun depth hinner =>
    agrees_statementStep hinner hx (advances_nestedUpTo x.stop_kind depth)

theorem agrees_block : AgreesBelow x n block Braced.block :=
  (agrees_blockOf (agrees_statement hx) hx (advances_statement x.stop_kind)).mono
    (Nat.le_succ n)

theorem agrees_definition : AgreesBelow x n definition Braced.definition :=
  .lift_bind (courses_expect _) fun _ => .lift_bind (courses_expect _) fun _ =>
    .lift_bind composes_courses.parameter fun _ => (agrees_block hx).bind fun _ => .pure _

/-- Each definition takes its word, so the turns of the loop come to an end. -/
theorem agrees_definitions : AgreesBelow x n definitions (many [.define] Braced.definition) :=
  .many (fun _ => rfl) (by decide) (advances_definition x.stop_kind)
    fun _ hts hn _ => agrees_definition hx hts hn

theorem agrees_mainPart : AgreesBelow x n mainPart Braced.mainPart :=
  .lift_bind (courses_expect _) fun _ => .lift_bind (courses_expect _) fun _ =>
    .lift_bind (courses_expect _) fun _ => (agrees_block hx).bind fun _ => .pure _

/-- A program is read to its end, or given up. -/
theorem agrees_program : AgreesBelow x n program Braced.program :=
  .lift_bind (courses_expect _) fun _ => .lift_bind (courses_expect _) fun _ =>
    .lift_bind (courses_expect _) fun _ => (agrees_definitions hx).bind fun _ =>
    (agrees_mainPart hx).bind fun _ => .lift_bind (courses_expect _) fun _ =>
    .lift_bind courses_finish fun _ => .pure _

end Programs

end RobotLang.Braced.Unbounded
