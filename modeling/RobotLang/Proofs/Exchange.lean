/-
  RobotLang.Proofs.Exchange
  ─────────────────────────
  **NEITHER GRAMMAR LOOKS AT MORE THAN KINDS AND LITERALS.**

  If every token of a program is exchanged for another one of the same kind, and
  literals keep their texts, either grammar reads the exchanged program
  (`exchanges_program`).

  The grammars are taken rule by rule: each is a sequence, a choice by the kind
  at hand or a repetition of rules that go along with an exchange.
-/
import RobotLang.Braced.Grammar
import RobotLang.Proofs.Rule.Exchange
import RobotLang.Worded.Grammar

namespace RobotLang

open Rule

variable {e : Exchange} {s : Setting}

/-! ## §1. The braced dialect. -/

namespace Braced

section Statements

variable {statement : Rule Statement}
  (hstatement : Exchanges e (Code.map e) s statement statement)

include hstatement

/-- A block is exchanged if its statements are. -/
theorem exchanges_blockOf :
    Exchanges e (Block.map e) s (blockOf statement) (blockOf statement) := by
  refine (exchanges_expect _).bind fun left => hstatement.many.bind fun body =>
    (exchanges_expect _).bind fun right => ?_
  rw [← Code.map_ofList]
  exact .pure (Block.map e) ⟨left, .ofList body, right⟩

/-- The second branch is there for the exchanged tokens if it is there for the tokens. -/
theorem exchanges_cond : Exchanges e (Code.map e) s (cond statement) (cond statement) := by
  refine (exchanges_expect _).bind fun _ => (exchanges_expect _).bind fun _ =>
    exchanges_term.bind fun _ => (exchanges_expect _).bind fun _ =>
    hstatement.bind fun _ => (exchanges_eat _).bind fun found => ?_
  cases found with
  | some otherwise =>
    exact hstatement.bind fun _ => .pure (Code.map e) (.condElse _ _ _ _ _ _ _)
  | none => exact .pure (Code.map e) (.cond _ _ _ _ _)

theorem exchanges_whileDo :
    Exchanges e (Code.map e) s (whileDo statement) (whileDo statement) :=
  (exchanges_expect _).bind fun _ => (exchanges_expect _).bind fun _ =>
    exchanges_term.bind fun _ => (exchanges_expect _).bind fun _ =>
    hstatement.bind fun _ => .pure (Code.map e) (.whileDo _ _ _ _ _)

theorem exchanges_times : Exchanges e (Code.map e) s (times statement) (times statement) :=
  (exchanges_expect _).bind fun _ => (exchanges_expect _).bind fun _ =>
    exchanges_integer.bind fun _ => (exchanges_expect _).bind fun _ =>
    hstatement.bind fun _ => .pure (Code.map e) (.times _ _ _ _ _)

end Statements

/-- Whether a call has an argument shows in the kind behind its parenthesis. -/
theorem exchanges_call : Exchanges e (Code.map e) s call call := by
  refine (exchanges_expect _).bind fun name => (exchanges_expect _).bind fun left =>
    (exchanges_isAt _).bind fun b => ?_
  have hrest : ∀ argument : Option Integer, Exchanges e (Code.map e) s
      (expect .rightParen >>= fun right => expect .semicolon >>= fun stop =>
        pure (.call name left argument right stop))
      (expect .rightParen >>= fun right => expect .semicolon >>= fun stop =>
        pure (.call (e name) (e left) (argument.map (·.map e)) right stop)) :=
    fun argument => (exchanges_expect _).bind fun _ => (exchanges_expect _).bind fun _ =>
      .pure (Code.map e) (.call name left argument _ _)
  cases b with
  | true => exact .bind (.pure _ none) hrest
  | false => exact .bind (exchanges_integer.map fun _ => rfl) hrest

theorem exchanges_builtin (action : Builtin) :
    Exchanges e (Code.map e) s (builtin action) (builtin action) :=
  exchanges_advance.bind fun _ => (exchanges_expect _).bind fun _ =>
    (exchanges_expect _).bind fun _ => (exchanges_expect _).bind fun _ =>
    .pure (Code.map e) (.builtin action _ _ _ _)

/-- Statements are exchanged token by token; by induction on how deep they nest. -/
theorem exchanges_statement : Exchanges e (Code.map e) s statement statement := by
  refine .nested fun inner hinner => exchanges_peek.bind fun kind => ?_
  rw [id]
  split
  · exact exchanges_cond hinner
  · exact exchanges_whileDo hinner
  · exact exchanges_times hinner
  · exact (exchanges_blockOf hinner).bind fun b => .pure (Code.map e) (.block b.left b.body b.right)
  · exact exchanges_call
  · exact exchanges_advance.bind fun _ => .pure (Code.map e) (.empty _)
  · cases Builtin.ofKind? kind with
    | some action => exact exchanges_builtin action
    | none => exact exchanges_noViable _

/-- A block is exchanged with its list, which skips the same garbage. -/
theorem exchanges_block : Exchanges e (Block.map e) s block block :=
  exchanges_blockOf exchanges_statement

/-- A function is exchanged with its parameter and its block. -/
theorem exchanges_definition : Exchanges e (Definition.map e) s definition definition :=
  (exchanges_expect _).bind fun _ => (exchanges_expect _).bind fun _ =>
    exchanges_parameter.bind fun _ => exchanges_block.bind fun _ =>
    .pure (Definition.map e) ⟨_, _, _, _⟩

theorem exchanges_mainPart : Exchanges e (Main.map e) s mainPart mainPart :=
  (exchanges_expect _).bind fun _ => (exchanges_expect _).bind fun _ =>
    (exchanges_expect _).bind fun _ => exchanges_block.bind fun _ =>
    .pure (Main.map e) ⟨_, _, _, _⟩

/-- A program is read from exchanged tokens as it is read from the tokens. -/
theorem exchanges_program : Exchanges e (Program.map e) s program program :=
  (exchanges_expect _).bind fun _ => (exchanges_expect _).bind fun _ =>
    (exchanges_expect _).bind fun _ => exchanges_definition.many.bind fun _ =>
    exchanges_mainPart.bind fun _ => (exchanges_expect _).bind fun _ =>
    exchanges_finish.bind fun _ => .pure (Program.map e) ⟨_, _, _, _, _, _⟩

end Braced

/-! ## §2. The worded dialect. -/

namespace Worded

section Commands

variable {command : Rule Command} (hcommand : Exchanges e (Code.map e) s command command)

include hcommand

/-- A statement is exchanged with its `;`.  One that was put in is put in before the exchanged
token. -/
theorem exchanges_statementOf (follow : List Kind) :
    Exchanges e (Code.map e) s (statementOf command follow) (statementOf command follow) := by
  refine (exchanges_isAtAny _).bind fun b => ?_
  cases b with
  | true =>
    exact hcommand.bind fun _ => (exchanges_expectTerminator _).bind fun _ =>
      .pure (Code.map e) (.ended _ _)
  | false => exact (exchanges_expectTerminator _).bind fun _ => .pure (Code.map e) (.empty _)

/-- The second branch is there for the exchanged tokens if it is there for the tokens. -/
theorem exchanges_cond : Exchanges e (Code.map e) s (cond command) (cond command) := by
  refine (exchanges_expect _).bind fun _ => exchanges_term.bind fun _ =>
    (exchanges_expect _).bind fun _ => hcommand.bind fun _ =>
    (exchanges_eat _).bind fun found => ?_
  cases found with
  | some otherwise => exact hcommand.bind fun _ => .pure (Code.map e) (.condElse _ _ _ _ _ _)
  | none => exact .pure (Code.map e) (.cond _ _ _ _)

theorem exchanges_whileDo : Exchanges e (Code.map e) s (whileDo command) (whileDo command) :=
  (exchanges_expect _).bind fun _ => exchanges_term.bind fun _ =>
    (exchanges_expect _).bind fun _ => hcommand.bind fun _ =>
    .pure (Code.map e) (.whileDo _ _ _ _)

theorem exchanges_times : Exchanges e (Code.map e) s (times command) (times command) :=
  (exchanges_expect _).bind fun _ => exchanges_integer.bind fun _ =>
    (exchanges_expect _).bind fun _ => hcommand.bind fun _ => .pure (Code.map e) (.times _ _ _ _)

theorem exchanges_block : Exchanges e (Code.map e) s (block command) (block command) := by
  refine (exchanges_expect _).bind fun opening =>
    (exchanges_statementOf hcommand _).list.bind fun body =>
    (exchanges_expect _).bind fun closing => ?_
  rw [← Code.map_ofList]
  exact .pure (Code.map e) (.block opening (.ofList body) closing)

end Commands

theorem exchanges_call : Exchanges e (Code.map e) s call call := by
  refine (exchanges_expect _).bind fun name => (exchanges_eat _).bind fun found => ?_
  cases found with
  | some left =>
    exact exchanges_integer.bind fun _ => (exchanges_expect _).bind fun _ =>
      .pure (Code.map e) (.callWith _ _ _ _)
  | none => exact .pure (Code.map e) (.call name)

/-- Commands are exchanged token by token; by induction on how deep they nest. -/
theorem exchanges_command : Exchanges e (Code.map e) s command command := by
  refine .nested fun inner hinner => exchanges_peek.bind fun kind => ?_
  rw [id]
  split
  · exact exchanges_call
  · exact exchanges_cond hinner
  · exact exchanges_whileDo hinner
  · exact exchanges_times hinner
  · exact exchanges_block hinner
  · cases Builtin.ofKind? kind with
    | some action => exact exchanges_advance.bind fun _ => .pure (Code.map e) (.builtin action _)
    | none => exact exchanges_noViable _

theorem exchanges_statement (follow : List Kind) :
    Exchanges e (Code.map e) s (statement follow) (statement follow) :=
  exchanges_statementOf exchanges_command follow

/-- Whether a function has a parameter shows in the kind behind its name. -/
theorem exchanges_optionalParameter :
    Exchanges e (Option.map (Parameter.map e)) s optionalParameter optionalParameter := by
  refine (exchanges_isAt _).bind fun b => ?_
  cases b with
  | true => exact exchanges_parameter.map fun _ => rfl
  | false => exact .pure _ none

/-- The word in front of a function tells whether it has a body. -/
theorem exchanges_definition : Exchanges e (Definition.map e) s definition definition := by
  refine exchanges_peek.bind fun kind => ?_
  rw [id]
  split
  · exact (exchanges_expect _).bind fun _ => (exchanges_expect _).bind fun _ =>
      exchanges_optionalParameter.bind fun _ => (exchanges_expect _).bind fun _ =>
      (exchanges_statement _).bind fun _ => .pure (Definition.map e) (.full _ _ _ _ _)
  · exact (exchanges_expect _).bind fun _ => (exchanges_expect _).bind fun _ =>
      exchanges_optionalParameter.bind fun _ => (exchanges_expectTerminator _).bind fun _ =>
      .pure (Definition.map e) (.prototype _ _ _ _)
  · exact exchanges_noViable _

theorem exchanges_mainPart : Exchanges e (Main.map e) s mainPart mainPart := by
  refine (exchanges_expect _).bind fun opening => (exchanges_statement _).list.bind fun body =>
    (exchanges_expect _).bind fun closing => ?_
  rw [← Code.map_ofList]
  exact .pure (Main.map e) ⟨opening, .ofList body, closing⟩

/-- A program is read from exchanged tokens as it is read from the tokens. -/
theorem exchanges_program : Exchanges e (Program.map e) s program program :=
  (exchanges_expect _).bind fun _ => exchanges_definition.many.bind fun _ =>
    exchanges_mainPart.bind fun _ => (exchanges_expect _).bind fun _ =>
    exchanges_finish.bind fun _ => .pure (Program.map e) ⟨_, _, _, _⟩

end Worded
end RobotLang
