/-
  RobotLang.Proofs.Unbounded.Worded
  ─────────────────────────────────
  **THE WORDED GRAMMAR WITHOUT BOUNDS FROM THE TOKENS.**

  The rules of the worded dialect that loop or nest, as readings that call
  each other.  A list notes where it starts a statement and where it goes on
  behind garbage, a definition where it starts its body.  A command takes the
  token that tells what it is before it reads what is nested in it, so the
  reading of a program returns, with what the grammar says
  (`agrees_program`).
-/
import RobotLang.Proofs.Unbounded.Expression

namespace RobotLang.Worded.Unbounded

open Rule RobotLang.Unbounded

/-! ## §1. Commands and statements. -/

/-- `name` or `name ( argument )`. -/
def call (depth : Nat) : Unbounded Command := do
  let name ← expect .identifier
  match ← eat .leftParen with
  | some left => return .callWith name left (← Unbounded.integer depth) (← expect .rightParen)
  | none => return .call name

mutual

/-- A command. -/
def command : (depth : Nat) → Unbounded Command
  | 0 => never
  | depth + 1 => do
    match ← peek with
    | .identifier => call depth
    | .if_ => cond depth
    | .while_ => whileDo depth
    | .repeat_ => times depth
    | .begin_ => block depth
    | kind =>
      match Builtin.ofKind? kind with
      | some action => return .builtin action (← advance)
      | none => noViable commandFirst

/-- `si test entonces yes` and perhaps `si-no no`. -/
def cond : (depth : Nat) → Unbounded Command
  | 0 => never
  | depth + 1 => do
    let keyword ← expect .if_
    let test ← Unbounded.term depth
    let then_ ← expect .then_
    let yes ← command depth
    match ← eat .else_ with
    | some otherwise => return .condElse keyword test then_ yes otherwise (← command depth)
    | none => return .cond keyword test then_ yes

/-- `mientras test hacer body` -/
def whileDo : (depth : Nat) → Unbounded Command
  | 0 => never
  | depth + 1 => do
    return .whileDo (← expect .while_) (← Unbounded.term depth) (← expect .do_) (← command depth)

/-- `repetir count veces body` -/
def times : (depth : Nat) → Unbounded Command
  | 0 => never
  | depth + 1 => do
    return .times (← expect .repeat_) (← Unbounded.integer depth) (← expect .times)
      (← command depth)

/-- `inicio statement* fin` -/
def block : (depth : Nat) → Unbounded Command
  | 0 => never
  | depth + 1 => do
    let opening ← expect .begin_
    let body ← statements .end_ blockResync blockFollow depth
    return .block opening (.ofList body) (← expect .end_)

/-- `command? ;` -/
def statement (follow : List Kind) : (depth : Nat) → Unbounded Statement
  | 0 => never
  | depth + 1 => do
    if ← isAtAny commandFirst then
      return .ended (← command depth) (← expectTerminator follow)
    else
      return .empty (← expectTerminator follow)

/-- Statements up to the `closer`. -/
def statements (closer : Kind) (resync follow : List Kind) :
    (depth : Nat) → Unbounded (List Statement)
  | 0 => never
  | depth + 1 => do
    if ← isAtAny statementFirst then
      note .listed
      let head ← statement follow depth
      let tail ← statements closer resync follow depth
      return head :: tail
    else if ← resume statementFirst closer resync depth then
      note .resumed
      statements closer resync follow depth
    else
      return []

end

/-! ## §2. Definitions and programs. -/

/-- A function with its body. -/
def fullDefinition (depth : Nat) : Unbounded Definition := do
  let keyword ← expect .define
  let name ← expect .identifier
  let parameter ← optionalParameter
  let as_ ← expect .as_
  note .body
  return .full keyword name parameter as_ (← statement definitionFollow depth)

/-- A function declared with or without a body. -/
def definition (depth : Nat) : Unbounded Definition := do
  match ← peek with
  | .define => fullDefinition depth
  | .prototype => prototype
  | _ => noViable [.define, .prototype]

/-- Functions, for as long as one starts. -/
def definitions : (depth : Nat) → Unbounded (List Definition)
  | 0 => never
  | depth + 1 => do
    if ← isAtAny [.define, .prototype] then
      let head ← definition depth
      let tail ← definitions depth
      return head :: tail
    else
      return []

/-- The statements to execute. -/
def mainPart (depth : Nat) : Unbounded Main := do
  let opening ← expect .beginExecution
  let body ← statements .endExecution mainResync mainFollow depth
  return ⟨opening, .ofList body, ← expect .endExecution⟩

/-- A whole program, up to the end of input. -/
def program (depth : Nat) : Unbounded Program := do
  let opening ← expect .beginProgram
  let definitions ← definitions depth
  let main ← mainPart depth
  let closing ← expect .endProgram
  finish
  return ⟨opening, definitions, main, closing⟩

/-! ## §3. They return what the rules say. -/

variable {x : Input} {n : Nat}

/-- A call nests nothing but its argument, a number. -/
theorem agrees_call : AgreesBelow x n call Worded.call := by
  refine .lift_bind (courses_expect _) fun name => .lift_bind (courses_eat _) fun found => ?_
  cases found with
  | some left => exact agrees_integer.bind fun _ => .lift_bind (courses_expect _) fun _ => .pure _
  | none => exact .pure _

section Commands

variable {inner : Rule Command} (hinner : AgreesBelow x n command inner)

include hinner

/-- A statement may take nothing, so only as many tokens are asked of its command as of itself. -/
theorem agrees_statementOf (follow : List Kind) :
    AgreesBelow x n (statement follow) (statementOf inner follow) := by
  refine .of_succ (.lift_bind (courses_isAtAny _) fun b => ?_)
  cases b with
  | true =>
    exact hinner.bind fun _ => .lift_bind (courses_expectTerminator follow) fun _ => .pure _
  | false => exact .lift_bind (courses_expectTerminator follow) fun _ => .pure _

/-- The branches of a conditional stand behind its word. -/
theorem agrees_cond : AgreesBelow x (n + 1) cond (Worded.cond inner) := by
  refine .of_succ (.expect_bind (by decide) fun _ => agrees_term.bind fun _ =>
    .lift_bind (courses_expect _) fun _ => hinner.bind fun _ =>
    .lift_bind (courses_eat _) fun found => ?_)
  cases found with
  | some otherwise => exact hinner.bind fun _ => .pure _
  | none => exact .pure _

theorem agrees_whileDo : AgreesBelow x (n + 1) whileDo (Worded.whileDo inner) :=
  .of_succ (.expect_bind (by decide) fun _ => agrees_term.bind fun _ =>
    .lift_bind (courses_expect _) fun _ => hinner.bind fun _ => .pure _)

theorem agrees_times : AgreesBelow x (n + 1) times (Worded.times inner) :=
  .of_succ (.expect_bind (by decide) fun _ => agrees_integer.bind fun _ =>
    .lift_bind (courses_expect _) fun _ => hinner.bind fun _ => .pure _)

variable (hx : x.starts = statementFirst) (hadvances : Advances n commandFirst inner x.setting)

include hx hadvances

/-- A list starts a statement where one can start, and then each takes a token; a skip takes one
too. -/
theorem agrees_list (closer : Kind) (resync follow : List Kind) :
    AgreesBelow x n (statements closer resync follow)
      (list statementFirst closer resync (statementOf inner follow)) :=
  .list (fun _ => rfl) hx (advances_statementOf x.stop_kind hadvances follow)
    (agrees_statementOf hinner follow)

/-- The statements of a block stand behind its opening word. -/
theorem agrees_block : AgreesBelow x (n + 1) block (Worded.block inner) :=
  .of_succ (.expect_bind (by decide) fun _ => (agrees_list hinner hx hadvances _ _ _).bind fun _ =>
    .lift_bind (courses_expect _) fun _ => .pure _)

/-- Whatever is nested in a command stands behind the token that tells what it is. -/
theorem agrees_commandStep : AgreesBelow x (n + 1) command (commandStep inner) := by
  refine .of_succ (.peek_bind fun kind ts hts hn _ => ?_)
  cases kind with
  | identifier => exact agrees_call hts hn
  | if_ => exact agrees_cond hinner hts hn
  | while_ => exact agrees_whileDo hinner hts hn
  | repeat_ => exact agrees_times hinner hts hn
  | begin_ => exact agrees_block hinner hx hadvances hts hn
  | move | turnLeft | pickBeeper | putBeeper | turnOff | return_ =>
    exact AgreesBelow.lift_bind courses_advance (fun _ => .pure _) hts hn
  | _ => exact .lift .nil (courses_noViable commandFirst)

end Commands

section Programs

variable (hx : x.starts = statementFirst)

include hx

/-- Commands of any depth are read as the rule says, since each layer has fewer tokens. -/
theorem agrees_command : AgreesBelow x n command Worded.command :=
  .nested fun depth hinner =>
    agrees_commandStep hinner hx (advances_nestedUpTo x.stop_kind depth)

/-- Statements are read as the rule says, from wherever they are started. -/
theorem agrees_statement (follow : List Kind) :
    AgreesBelow x n (statement follow) (Worded.statement follow) :=
  agrees_statementOf (agrees_command hx) follow

/-- The body of a definition starts right behind `como`. -/
theorem agrees_fullDefinition : AgreesBelow x n fullDefinition Worded.fullDefinition := by
  refine .lift_bind (courses_expect _) fun _ => .lift_bind (courses_expect _) fun _ =>
    .lift_bind (composes_optionalParameter composesRepairs_courses) fun _ => ?_
  intro ts hts hn
  refine .bind_wellPlaced (.lift .nil (courses_expect _)) fun as_ rest ds has hrest => ?_
  -- a stray token may have been dropped before `como`, but none behind it
  obtain ⟨read, rfl, hkind⟩ := exists_eq_append_of_expect (by decide) has
  obtain ⟨before, hbefore⟩ := hts
  have htokens : x.tokens = (before ++ read) ++ as_ :: rest := by
    rw [← hbefore, List.append_assoc]
  refine .note_bind (Q := WellPlaced x) ?_ fun ms hms => .body htokens hkind hms
  exact (agrees_statement hx definitionFollow).bind (fun _ => .pure _)
    (hrest.trans ⟨before, hbefore⟩) (Nat.lt_of_le_of_lt hrest.length_le hn)

theorem agrees_definition : AgreesBelow x n definition Worded.definition := by
  have h := composesRepairs_courses (s := x.setting)
  refine .peek_bind fun kind ts hts hn _ => ?_
  cases kind with
  | define => exact agrees_fullDefinition hx hts hn
  | prototype =>
    exact .lift .nil (h.bind (h.expect _) fun _ => h.bind (h.expect _) fun _ =>
      h.bind (composes_optionalParameter h) fun _ => h.bind (h.expectTerminator _) fun _ =>
      h.pure _)
  | _ => exact .lift .nil (courses_noViable _)

/-- Each definition takes its word, so the turns of the loop come to an end. -/
theorem agrees_definitions :
    AgreesBelow x n definitions (many [.define, .prototype] Worded.definition) :=
  .many (fun _ => rfl) (by decide) (advances_definition x.stop_kind)
    fun _ hts hn _ => agrees_definition hx hts hn

/-- The list of the main part is read up to its closing word. -/
theorem agrees_mainPart : AgreesBelow x n mainPart Worded.mainPart := by
  have hadvances : Advances n commandFirst Worded.command x.setting :=
    fun ts _ => advances_nestedUpTo x.stop_kind (ts.length + 1) (Nat.lt_succ_self _)
  exact .lift_bind (courses_expect _) fun _ =>
    (agrees_list (agrees_command hx) hx hadvances _ _ _).bind fun _ =>
    .lift_bind (courses_expect _) fun _ => .pure _

/-- A program is read to its end, or given up. -/
theorem agrees_program : AgreesBelow x n program Worded.program :=
  .lift_bind (courses_expect _) fun _ => (agrees_definitions hx).bind fun _ =>
    (agrees_mainPart hx).bind fun _ => .lift_bind (courses_expect _) fun _ =>
    .lift_bind courses_finish fun _ => .pure _

end Programs

end RobotLang.Worded.Unbounded
