/-
  RobotLang.Proofs.Composition
  ────────────────────────────
  **WHAT HOLDS OF THE PARTS OF A GRAMMAR HOLDS OF WHOLE PROGRAMS.**

  A program of the braced dialect is read by sequences, choices by the token at
  hand, repetition and nesting of simple rules, so it has every property that
  composes (`Braced.composes_program`).  The worded dialect also repairs its
  statements, and has every property that these repairs pass on
  (`Worded.composes_program`).

  Taking a course is such a property.  So whether a parse repairs or not, and
  whether it goes through or gives up, what it reports is about tokens of the
  source or about its end (`exists_token_of_run`).
-/
import RobotLang.Braced.Grammar
import RobotLang.Proofs.Lexing.Token
import RobotLang.Proofs.Rule.Course
import RobotLang.Worded.Grammar

namespace RobotLang

open Rule

variable {P : ∀ {α : Type}, Rule α → Prop}

/-! ## §1. The braced dialect. -/

namespace Braced

variable (h : Composes P)

include h

section Statements

variable {statement : Rule Statement} (hstatement : P statement)

include hstatement

theorem composes_blockOf : P (blockOf statement) :=
  h.bind (h.expect _) fun _ => h.bind (h.many hstatement) fun _ => h.bind (h.expect _) fun _ =>
    h.pure _

/-- A conditional composes from its test and its branches, whether the second one is there or
not. -/
theorem composes_cond : P (cond statement) := by
  refine h.bind (h.expect _) fun _ => h.bind (h.expect _) fun _ => h.bind h.term fun _ =>
    h.bind (h.expect _) fun _ => h.bind hstatement fun _ => h.bind (h.eat _) fun found => ?_
  cases found with
  | some otherwise => exact h.bind hstatement fun _ => h.pure _
  | none => exact h.pure _

theorem composes_whileDo : P (whileDo statement) :=
  h.bind (h.expect _) fun _ => h.bind (h.expect _) fun _ => h.bind h.term fun _ =>
    h.bind (h.expect _) fun _ => h.bind hstatement fun _ => h.pure _

theorem composes_times : P (times statement) :=
  h.bind (h.expect _) fun _ => h.bind (h.expect _) fun _ => h.bind h.integer fun _ =>
    h.bind (h.expect _) fun _ => h.bind hstatement fun _ => h.pure _

end Statements

/-- A call composes, with an argument or without. -/
theorem composes_call : P call := by
  refine h.bind (h.expect _) fun name => h.bind (h.expect _) fun left =>
    h.bind (h.isAt _) fun b => ?_
  have hrest : ∀ argument : Option Integer, P
      (expect .rightParen >>= fun right => expect .semicolon >>= fun stop =>
        pure (Code.call name left argument right stop)) :=
    fun _ => h.bind (h.expect _) fun _ => h.bind (h.expect _) fun _ => h.pure _
  cases b with
  | true => exact h.bind (h.pure none) hrest
  | false => exact h.bind (h.map h.integer) hrest

theorem composes_builtin (action : Builtin) : P (builtin action) :=
  h.bind h.advance fun _ => h.bind (h.expect _) fun _ => h.bind (h.expect _) fun _ =>
    h.bind (h.expect _) fun _ => h.pure _

/-- Whatever the first token chooses composes, if what is nested in it has the property. -/
theorem composes_statementStep {inner : Rule Statement} (hinner : P inner) :
    P (statementStep inner) := by
  refine h.bind h.peek fun kind => ?_
  split
  · exact composes_cond h hinner
  · exact composes_whileDo h hinner
  · exact composes_times h hinner
  · exact h.bind (composes_blockOf h hinner) fun _ => h.pure _
  · exact composes_call h
  · exact h.bind h.advance fun _ => h.pure _
  · cases Builtin.ofKind? kind with
    | some action => exact composes_builtin h action
    | none => exact h.noViable _

/-- Statements of any depth have the property.  By induction on how deep they nest; where the bound
is used up the rule gives up, and giving up has the property. -/
theorem composes_statement : P statement :=
  h.nested fun _ hinner => composes_statementStep h hinner

theorem composes_block : P block :=
  composes_blockOf h (composes_statement h)

/-- A function composes from its parameter and its block. -/
theorem composes_definition : P definition :=
  h.bind (h.expect _) fun _ => h.bind (h.expect _) fun _ => h.bind h.parameter fun _ =>
    h.bind (composes_block h) fun _ => h.pure _

theorem composes_mainPart : P mainPart :=
  h.bind (h.expect _) fun _ => h.bind (h.expect _) fun _ => h.bind (h.expect _) fun _ =>
    h.bind (composes_block h) fun _ => h.pure _

/-- Every property that composes holds of reading a braced program. -/
theorem composes_program : P program :=
  h.bind (h.expect _) fun _ => h.bind (h.expect _) fun _ => h.bind (h.expect _) fun _ =>
    h.bind (h.many (composes_definition h)) fun _ => h.bind (composes_mainPart h) fun _ =>
    h.bind (h.expect _) fun _ => h.bind h.finish fun _ => h.pure _

end Braced

/-! ## §2. The worded dialect. -/

namespace Worded

variable (h : ComposesRepairs P)

include h

section Commands

variable {command : Rule Command} (hcommand : P command)

include hcommand

/-- A statement composes from its command and the `;` behind it, also one that is put in. -/
theorem composes_statementOf (follow : List Kind) : P (statementOf command follow) := by
  refine h.bind (h.isAtAny _) fun b => ?_
  cases b with
  | true => exact h.bind hcommand fun _ => h.bind (h.expectTerminator _) fun _ => h.pure _
  | false => exact h.bind (h.expectTerminator _) fun _ => h.pure _

/-- Both branches are commands, and the second one may be missing. -/
theorem composes_cond : P (cond command) := by
  refine h.bind (h.expect _) fun _ => h.bind h.term fun _ => h.bind (h.expect _) fun _ =>
    h.bind hcommand fun _ => h.bind (h.eat _) fun found => ?_
  cases found with
  | some otherwise => exact h.bind hcommand fun _ => h.pure _
  | none => exact h.pure _

theorem composes_whileDo : P (whileDo command) :=
  h.bind (h.expect _) fun _ => h.bind h.term fun _ => h.bind (h.expect _) fun _ =>
    h.bind hcommand fun _ => h.pure _

theorem composes_times : P (times command) :=
  h.bind (h.expect _) fun _ => h.bind h.integer fun _ => h.bind (h.expect _) fun _ =>
    h.bind hcommand fun _ => h.pure _

/-- A block composes from a list that may go on behind garbage. -/
theorem composes_block : P (block command) :=
  h.bind (h.expect _) fun _ => h.list_bind (composes_statementOf h hcommand _) fun _ _ => h.pure _

end Commands

theorem composes_call : P call := by
  refine h.bind (h.expect _) fun _ => h.bind (h.eat _) fun found => ?_
  cases found with
  | some left => exact h.bind h.integer fun _ => h.bind (h.expect _) fun _ => h.pure _
  | none => exact h.pure _

/-- Whatever the first token chooses composes, if what is nested in it has the property. -/
theorem composes_commandStep {inner : Rule Command} (hinner : P inner) :
    P (commandStep inner) := by
  refine h.bind h.peek fun kind => ?_
  split
  · exact composes_call h
  · exact composes_cond h hinner
  · exact composes_whileDo h hinner
  · exact composes_times h hinner
  · exact composes_block h hinner
  · cases Builtin.ofKind? kind with
    | some action => exact h.bind h.advance fun _ => h.pure _
    | none => exact h.noViable _

/-- Commands of any depth have the property. -/
theorem composes_command : P command :=
  h.nested fun _ hinner => composes_commandStep h hinner

theorem composes_statement (follow : List Kind) : P (statement follow) :=
  composes_statementOf h (composes_command h) follow

/-- The parentheses behind a function's name may be missing. -/
theorem composes_optionalParameter : P optionalParameter := by
  refine h.bind (h.isAt _) fun b => ?_
  cases b with
  | true => exact h.map h.parameter
  | false => exact h.pure none

theorem composes_definition : P definition := by
  refine h.bind h.peek fun kind => ?_
  split
  · exact h.bind (h.expect _) fun _ => h.bind (h.expect _) fun _ =>
      h.bind (composes_optionalParameter h) fun _ => h.bind (h.expect _) fun _ =>
      h.bind (composes_statement h _) fun _ => h.pure _
  · exact h.bind (h.expect _) fun _ => h.bind (h.expect _) fun _ =>
      h.bind (composes_optionalParameter h) fun _ => h.bind (h.expectTerminator _) fun _ =>
      h.pure _
  · exact h.noViable _

theorem composes_mainPart : P mainPart :=
  h.bind (h.expect _) fun _ => h.list_bind (composes_statement h _) fun _ _ => h.pure _

/-- Every property that the repairs pass on holds of reading a worded program. -/
theorem composes_program : P program :=
  h.bind (h.expect _) fun _ => h.bind (h.many (composes_definition h)) fun _ =>
    h.bind (composes_mainPart h) fun _ => h.bind (h.expect _) fun _ => h.bind h.finish fun _ =>
    h.pure _

end Worded

/-! ## §3. Blame falls on what stands in the source. -/

/-- Reading a braced program takes a course. -/
theorem Braced.courses_program {s : Setting} : Courses Braced.program s :=
  Braced.composes_program composes_courses

/-- Reading a worded program takes a course. -/
theorem Worded.courses_program {s : Setting} : Courses Worded.program s :=
  Worded.composes_program composesRepairs_courses

/-- Run on the tokens of a source, a rule reads all of them but the end of input. -/
theorem run_tokens {lexicon : Lexicon} (hlexicon : lexicon.EmitsNoEnd) {α : Type} (rule : Rule α)
    (label : Kind → String) (recovery sensorParens : Bool) (source : String) :
    rule.run label recovery sensorParens (lexicon.tokenize source).tokens
      = rule ⟨label, recovery, sensorParens, Lexicon.endOfText source.toList⟩
        (lexicon.bodyTokens source) := by
  have hstop : endToken (lexicon.tokenize source).tokens = Lexicon.endOfText source.toList :=
    endToken_append_stop rfl fun _ => Lexicon.kind_ne_eof_of_mem hlexicon
  unfold Rule.run Setting.forTokens
  rw [Lexicon.beforeEnd_tokens hlexicon, hstop]

/-- A run of a rule on the tokens of a source complains about those tokens, the end among them. -/
theorem exists_token_of_run {lexicon : Lexicon} (hlexicon : lexicon.EmitsNoEnd) {α : Type}
    {rule : Rule α} (hrule : ∀ s, Courses rule s) {label : Kind → String}
    {recovery sensorParens : Bool} {source : String} {d : Diagnostic}
    (hd : d ∈ (rule.run label recovery sensorParens (lexicon.tokenize source).tokens).complaints) :
    ∃ issue t expected, t ∈ (lexicon.tokenize source).tokens ∧ d = .atToken issue t expected := by
  rw [run_tokens hlexicon] at hd
  exact (hrule _ _).blames hd

end RobotLang
