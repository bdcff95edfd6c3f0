/-
  RobotLang.Proofs.Fragment.Unplaced
  ──────────────────────────────────
  **WHERE TOKENS STAND IS IN THE LINES OF THE CODE AND NOWHERE ELSE.**

  A tree whose tokens forgot their places is lowered to what the tree is lowered
  to, without its lines (`Braced.Program.lower_unplaced`,
  `Worded.Program.lower_unplaced`):

      (p.map unplaced).lower  =  p.lower.unplaced

  Every construct is built from lines, from opcodes and from its parts, and the
  jumps count the instructions of the parts, whose number stays.
-/
import RobotLang.Braced.Lowering
import RobotLang.Proofs.Link.Unplaced
import RobotLang.Proofs.Rule.Exchange
import RobotLang.Worded.Lowering

namespace RobotLang

open Exchange

/-- A name is its text, folded or not, wherever it stands. -/
theorem NameCase.name_unplaced (case : NameCase) (t : Token) :
    case.name (unplaced t) = case.name t := by
  cases case <;> rfl

namespace Fragment

/-! ## §1. Constructs. -/

/-- The line of a token that has forgotten its place is forgotten too. -/
theorem unplaced_lineOf (t : Token) : (lineOf t).unplaced = lineOf (unplaced t) := rfl

/-- Jumps count instructions, and forgetting lines keeps their number. -/
theorem span_map_unplaced (f : Fragment) : span (f.map Instr.unplaced) = span f := by
  rw [span, List.length_map, span]

theorem map_unplaced_builtin (action : Builtin) (t : Token) :
    (builtin action t).map Instr.unplaced = builtin action (unplaced t) := by
  cases action <;> rfl

/-- A call states its line before and behind, and both are forgotten. -/
theorem map_unplaced_call (name : String) (t : Token) (argument : Option Fragment) :
    (call name t argument).map Instr.unplaced
      = call name (unplaced t) (argument.map (·.map Instr.unplaced)) := by
  cases argument with
  | none => rfl
  | some argument => simp [call, unplaced_lineOf]

/-- The offsets of a conditional are those of its branches, which keep their length. -/
theorem map_unplaced_cond (t : Token) (test yes : Fragment) (no : Option Fragment) :
    (cond t test yes no).map Instr.unplaced
      = cond (unplaced t) (test.map Instr.unplaced) (yes.map Instr.unplaced)
          (no.map (·.map Instr.unplaced)) := by
  cases no <;> simp [cond, span_map_unplaced, unplaced_lineOf, Opcode.unplaced]

/-- The offsets of a loop, forward and back, are those of its test and its body, which keep their
length. -/
theorem map_unplaced_whileDo (t : Token) (test body : Fragment) :
    (whileDo t test body).map Instr.unplaced
      = whileDo (unplaced t) (test.map Instr.unplaced) (body.map Instr.unplaced) := by
  simp [whileDo, span_map_unplaced, unplaced_lineOf, Opcode.unplaced]

/-- The offsets of a repetition are those of its body; its counting is made of opcodes only. -/
theorem map_unplaced_times (t : Token) (count body : Fragment) :
    (times t count body).map Instr.unplaced
      = times (unplaced t) (count.map Instr.unplaced) (body.map Instr.unplaced) := by
  simp [times, ofOps, span_map_unplaced, unplaced_lineOf, Opcode.unplaced]

/-- Numbers are lowered without lines. -/
theorem map_unplaced_ofInteger (case : NameCase) (n : Integer) :
    (ofInteger case n).map Instr.unplaced = ofInteger case (n.map unplaced) := by
  induction n with
  | name t =>
    rw [Integer.map, ofInteger, ofInteger, NameCase.name_unplaced]
    rfl
  | literal => rfl
  | succ _ _ _ _ ih | pred _ _ _ _ ih =>
    rw [Integer.map, ofInteger, ofInteger, List.map_append, ih]
    rfl

theorem map_unplaced_ofCondition (case : NameCase) {level : RobotLang.Level} (c : Condition level) :
    (ofCondition case c).map Instr.unplaced = ofCondition case (c.map unplaced) := by
  induction c with
  | conj _ ih | lit _ ih | plain _ ih | paren _ _ _ ih => exact ih
  | or _ _ _ ihl ihr | and _ _ _ ihl ihr =>
    rw [Condition.map, ofCondition, ofCondition, List.map_append, List.map_append, ihl, ihr]
    rfl
  | not _ _ ih =>
    rw [Condition.map, ofCondition, ofCondition, List.map_append, ih]
    rfl
  | isZero _ _ number _ =>
    rw [Condition.map, ofCondition, ofCondition, List.map_append, map_unplaced_ofInteger]
    rfl
  | sensor sensor | sensorCall sensor => cases sensor <;> rfl

theorem map_unplaced_entry (main : Fragment) (closing : Token) :
    (entry main closing).map Instr.unplaced
      = entry (main.map Instr.unplaced) (unplaced closing) := by
  rw [entry, List.map_append]
  rfl

/-- Resolving a parameter looks at names only. -/
theorem unplaced_bindParam (param : Option String) (instr : Instr) :
    (bindParam param instr).unplaced = bindParam param instr.unplaced := by
  cases instr with
  | op | call => rfl
  | param name =>
    rw [Instr.unplaced_param, bindParam]
    split <;> rfl

/-- A function that has forgotten its places keeps its name, its arity and its code up to lines. -/
theorem unplaced_function (case : NameCase) (name : Token) (param : Option Token)
    (body : Fragment) : (Declaration.function case name param body).unplaced
      = .function case (unplaced name) (param.map unplaced) (body.map Instr.unplaced) := by
  have hparam : (param.map unplaced).map case.name = param.map case.name := by
    cases param with
    | none => rfl
    | some t => exact congrArg some (case.name_unplaced t)
  have hbody : (body.map (bindParam (param.map case.name))).map Instr.unplaced
      = (body.map Instr.unplaced).map (bindParam (param.map case.name)) := by
    rw [List.map_map, List.map_map]
    exact List.map_congr_left fun instr _ => unplaced_bindParam _ instr
  unfold Declaration.function Declaration.unplaced
  rw [hparam, NameCase.name_unplaced, Option.isSome_map, ← hbody, ← unplaced_lineOf]
  dsimp only
  rw [Option.map_some, List.map_append]
  rfl

theorem unplaced_prototype (case : NameCase) (name : Token) (hasParam : Bool) :
    (Declaration.prototype case name hasParam).unplaced
      = .prototype case (unplaced name) hasParam := by
  unfold Declaration.prototype
  rw [NameCase.name_unplaced]
  rfl

end Fragment

/-! ## §2. Programs. -/

section Programs

open Fragment

namespace Braced

/-- Lowering commutes with erasing lines, by induction on the code, construct by construct. -/
theorem Code.lower_unplaced {part : Part} (c : Code part) :
    (c.map unplaced).lower = c.lower.map Instr.unplaced := by
  induction c with
  | nil | empty => rfl
  | cons _ _ ihhead ihtail => rw [Code.map, Code.lower, Code.lower, List.map_append, ihhead, ihtail]
  | builtin => exact (map_unplaced_builtin _ _).symm
  | call name _ argument =>
    rw [Code.map, Code.lower, Code.lower, map_unplaced_call, NameCase.name_unplaced]
    cases argument with
    | none => rfl
    | some n => simp [map_unplaced_ofInteger]
  | cond _ _ test _ _ ih =>
    rw [Code.map, Code.lower, Code.lower, map_unplaced_cond, map_unplaced_ofCondition, ih]
    rfl
  | condElse _ _ test _ _ _ _ ihyes ihno =>
    rw [Code.map, Code.lower, Code.lower, map_unplaced_cond, map_unplaced_ofCondition, ihyes, ihno]
    rfl
  | whileDo _ _ test _ _ ih =>
    rw [Code.map, Code.lower, Code.lower, map_unplaced_whileDo, map_unplaced_ofCondition, ih]
  | times _ _ count _ _ ih =>
    rw [Code.map, Code.lower, Code.lower, map_unplaced_times, map_unplaced_ofInteger, ih]
  | block _ _ _ ih => exact ih

theorem Definition.lower_unplaced (d : Definition) :
    (d.map unplaced).lower = d.lower.unplaced := by
  rw [Definition.lower, Definition.lower, unplaced_function, ← Code.lower_unplaced]
  rfl

/-- **Where the tokens of a braced program stand is seen in the lines of its code only.** -/
theorem Program.lower_unplaced (p : Program) : (p.map unplaced).lower = p.lower.unplaced := by
  simp [Program.lower, Program.map, Main.map, Block.map, Unlinked.unplaced, map_unplaced_entry,
    Code.lower_unplaced, Definition.lower_unplaced, Function.comp_def]

end Braced

namespace Worded

/-- Lowering commutes with erasing lines, by induction on the code, construct by construct.  A
statement is its command here. -/
theorem Code.lower_unplaced {part : Part} (c : Code part) :
    (c.map unplaced).lower = c.lower.map Instr.unplaced := by
  induction c with
  | nil | empty => rfl
  | cons _ _ ihhead ihtail => rw [Code.map, Code.lower, Code.lower, List.map_append, ihhead, ihtail]
  | builtin => exact (map_unplaced_builtin _ _).symm
  | call name =>
    rw [Code.map, Code.lower, Code.lower, map_unplaced_call, NameCase.name_unplaced]
    rfl
  | callWith name _ argument =>
    rw [Code.map, Code.lower, Code.lower, map_unplaced_call, NameCase.name_unplaced,
      ← map_unplaced_ofInteger]
    rfl
  | cond _ test _ _ ih =>
    rw [Code.map, Code.lower, Code.lower, map_unplaced_cond, map_unplaced_ofCondition, ih]
    rfl
  | condElse _ test _ _ _ _ ihyes ihno =>
    rw [Code.map, Code.lower, Code.lower, map_unplaced_cond, map_unplaced_ofCondition, ihyes, ihno]
    rfl
  | whileDo _ test _ _ ih =>
    rw [Code.map, Code.lower, Code.lower, map_unplaced_whileDo, map_unplaced_ofCondition, ih]
  | times _ count _ _ ih =>
    rw [Code.map, Code.lower, Code.lower, map_unplaced_times, map_unplaced_ofInteger, ih]
  | ended _ _ ih | block _ _ _ ih => exact ih

theorem Definition.lower_unplaced (d : Definition) :
    (d.map unplaced).lower = d.lower.unplaced := by
  cases d with
  | full _ name parameter _ body =>
    rw [Definition.map, Definition.lower, Definition.lower, unplaced_function,
      ← Code.lower_unplaced]
    cases parameter <;> rfl
  | prototype _ name parameter =>
    rw [Definition.map, Definition.lower, Definition.lower, unplaced_prototype,
      Option.isSome_map]

/-- **Where the tokens of a worded program stand is seen in the lines of its code only.** -/
theorem Program.lower_unplaced (p : Program) : (p.map unplaced).lower = p.lower.unplaced := by
  simp [Program.lower, Program.map, Main.map, Unlinked.unplaced, map_unplaced_entry,
    Code.lower_unplaced, Definition.lower_unplaced, Function.comp_def]

end Worded

end Programs

end RobotLang
