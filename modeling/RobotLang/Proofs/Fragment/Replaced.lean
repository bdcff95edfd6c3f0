/-
  RobotLang.Proofs.Fragment.Replaced
  ──────────────────────────────────
  **CODE TAKES NAMES AND LINES FROM TOKENS, AND NOTHING ELSE.**

  The code of a construct depends on its tokens through the line of its word
  only (`builtin_congr` and so on), and the code of an expression through its
  names only.  So the tokens of a program can be replaced by others with the
  same names and lines (`Worded.Program.lower_map`), and a `;` that was put in
  can be moved (`Worded.Program.lower_settle`), and the code stays.
-/
import RobotLang.Proofs.Replacing
import RobotLang.Worded.Lowering
import RobotLang.Worded.Terminator

namespace RobotLang

/-! ## §1. Constructs. -/

namespace Fragment

variable {t u : Token}

/-- Only the line of a token is in the code that states it. -/
theorem lineOf_congr (h : t.line = u.line) : lineOf t = lineOf u := by
  rw [lineOf, h, lineOf]

theorem builtin_congr (h : t.line = u.line) (action : Builtin) :
    builtin action t = builtin action u := by
  rw [builtin, lineOf_congr h, builtin]

/-- A call has its name and the line of its token, both before and behind it. -/
theorem call_congr (h : t.line = u.line) (name : String) (argument : Option Fragment) :
    call name t argument = call name u argument := by
  cases argument <;> rw [call, lineOf_congr h, call]

/-- A conditional has the line of its word, and of its parts only their code. -/
theorem cond_congr (h : t.line = u.line) (test yes : Fragment) (no : Option Fragment) :
    cond t test yes no = cond u test yes no := by
  cases no <;> rw [cond, lineOf_congr h, cond]

theorem whileDo_congr (h : t.line = u.line) (test body : Fragment) :
    whileDo t test body = whileDo u test body := by
  rw [whileDo, lineOf_congr h, whileDo]

theorem times_congr (h : t.line = u.line) (count body : Fragment) :
    times t count body = times u count body := by
  rw [times, lineOf_congr h, times]

/-- The entry halts on the line where the closing token ends. -/
theorem entry_congr (h : t.endLine = u.endLine) (main : Fragment) :
    entry main t = entry main u := by
  rw [entry, h, entry]

end Fragment

/-! ## §2. Replaced tokens. -/

/-- The replacement keeps what code is made from. -/
structure NameCase.Keeps (case : NameCase) (f : Token → Token) : Prop where
  name : ∀ t, case.name (f t) = case.name t
  line : ∀ t, (f t).line = t.line
  endLine : ∀ t, (f t).endLine = t.endLine

section Replaced

variable {case : NameCase} {f : Token → Token}

/-- Names that count the same before and after are the same parameter. -/
theorem NameCase.Keeps.map_name (h : case.Keeps f) (name : Option Token) :
    (name.map f).map case.name = name.map case.name := by
  cases name with
  | none => rfl
  | some t => exact congrArg some (h.name t)

/-- A number has names and literals in its code, and no lines. -/
theorem Fragment.ofInteger_map (h : case.Keeps f) (n : Integer) :
    ofInteger case (n.map f) = ofInteger case n := by
  induction n with
  | name t => rw [Integer.map, ofInteger, h.name, ofInteger]
  | literal => rfl
  | succ _ _ _ _ ih | pred _ _ _ _ ih => rw [Integer.map, ofInteger, ofInteger, ih]

theorem Fragment.ofCondition_map (h : case.Keeps f) {level : RobotLang.Level}
    (c : Condition level) : ofCondition case (c.map f) = ofCondition case c := by
  induction c with
  | conj _ ih | lit _ ih | plain _ ih | paren _ _ _ ih => exact ih
  | or _ _ _ ihl ihr | and _ _ _ ihl ihr =>
    rw [Condition.map, ofCondition, ofCondition, ihl, ihr]
  | not _ _ ih => rw [Condition.map, ofCondition, ofCondition, ih]
  | isZero => rw [Condition.map, ofCondition, ofCondition, ofInteger_map h]
  | sensor | sensorCall => rfl

/-- A function is declared by what its name counts as, on the line of that name. -/
theorem Declaration.function_map (h : case.Keeps f) (name : Token) (param : Option Token)
    (body : Fragment) :
    Declaration.function case (f name) (param.map f) body = .function case name param body := by
  unfold Declaration.function
  rw [h.map_name, h.name, h.line, Fragment.lineOf_congr (h.line name), Option.isSome_map]

theorem Declaration.prototype_map (h : case.Keeps f) (name : Token) (hasParam : Bool) :
    Declaration.prototype case (f name) hasParam = .prototype case name hasParam := by
  unfold Declaration.prototype
  rw [h.name, h.line]

end Replaced

/-! ## §3. The worded dialect. -/

namespace Worded

open Fragment

section Replaced

variable {f : Token → Token}

/-- Code whose tokens are replaced by others with the same names and lines is the same code.  By
induction on the code, construct by construct. -/
theorem Code.lower_map (h : nameCase.Keeps f) {part : Part} (c : Code part) :
    (c.map f).lower = c.lower := by
  induction c with
  | nil | empty => rfl
  | cons _ _ ihhead ihtail => rw [Code.map, Code.lower, Code.lower, ihhead, ihtail]
  | builtin => exact builtin_congr (h.line _) _
  | call =>
    rw [Code.map, Code.lower, Code.lower, h.name, call_congr (h.line _)]
  | callWith =>
    rw [Code.map, Code.lower, Code.lower, h.name, ofInteger_map h, call_congr (h.line _)]
  | cond _ _ _ _ ih =>
    rw [Code.map, Code.lower, Code.lower, ofCondition_map h, ih, cond_congr (h.line _)]
  | condElse _ _ _ _ _ _ ihyes ihno =>
    rw [Code.map, Code.lower, Code.lower, ofCondition_map h, ihyes, ihno, cond_congr (h.line _)]
  | whileDo _ _ _ _ ih =>
    rw [Code.map, Code.lower, Code.lower, ofCondition_map h, ih, whileDo_congr (h.line _)]
  | times _ _ _ _ ih =>
    rw [Code.map, Code.lower, Code.lower, ofInteger_map h, ih, times_congr (h.line _)]
  | ended _ _ ih | block _ _ _ ih => exact ih

theorem Definition.lower_map (h : nameCase.Keeps f) (d : Definition) :
    (d.map f).lower = d.lower := by
  cases d with
  | full _ name parameter _ body =>
    have hparameter : (parameter.map (·.map f)).bind (·.name)
        = (parameter.bind (·.name)).map f := by
      cases parameter <;> rfl
    rw [Definition.map, Definition.lower, Definition.lower, Code.lower_map h, hparameter,
      Declaration.function_map h]
  | prototype _ name parameter =>
    rw [Definition.map, Definition.lower, Definition.lower, Option.isSome_map,
      Declaration.prototype_map h]

/-- A program whose tokens are replaced by others with the same names and lines has the same
code. -/
theorem Program.lower_map (h : nameCase.Keeps f) (p : Program) : (p.map f).lower = p.lower := by
  have hdefinitions : (p.definitions.map (·.map f)).map Definition.lower
      = p.definitions.map Definition.lower := by
    rw [List.map_map]
    exact List.map_congr_left fun d _ => d.lower_map h
  rw [Program.map, Program.lower, Program.lower, Main.map, hdefinitions, Code.lower_map h,
    entry_congr (h.endLine _)]

end Replaced

/-- A `;` has no code, wherever it stands. -/
theorem Code.lower_settle {part : Part} (c : Code part) : c.settle.lower = c.lower := by
  induction c with
  | nil | empty | builtin | call | callWith => rfl
  | cons _ _ ihhead ihtail => rw [Code.settle, Code.lower, Code.lower, ihhead, ihtail]
  | cond _ _ _ _ ih | whileDo _ _ _ _ ih | times _ _ _ _ ih =>
    rw [Code.settle, Code.lower, Code.lower, ih]
  | condElse _ _ _ _ _ _ ihyes ihno => rw [Code.settle, Code.lower, Code.lower, ihyes, ihno]
  | ended _ _ ih | block _ _ _ ih => exact ih

/-- Settling a program leaves its code as it is. -/
theorem Program.lower_settle (p : Program) : p.settle.lower = p.lower := by
  have hdefinition (d : Definition) : d.settle.lower = d.lower := by
    cases d with
    | full => rw [Definition.settle, Definition.lower, Definition.lower, Code.lower_settle]
    | prototype => rfl
  simp [Program.settle, Program.lower, Code.lower_settle, hdefinition]

end Worded
end RobotLang
