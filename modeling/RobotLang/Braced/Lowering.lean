/-
  RobotLang.Braced.Lowering
  ─────────────────────────
  **THE CODE OF A BRACED PROGRAM.**

  Case matters in names.  Blocks and empty statements add nothing of their
  own; the program halts on the line of the brace that closes the class.
-/
import RobotLang.Braced.Program
import RobotLang.Fragment.Build

namespace RobotLang.Braced

/-- Names that differ in case differ. -/
def nameCase : NameCase := .sensitive

/-- The code of a statement or of a list of statements. -/
def Code.lower {part : Part} : Code part → Fragment
  | .nil => []
  | .cons head tail => head.lower ++ tail.lower
  | .empty _ => []
  | .builtin action keyword _ _ _ => .builtin action keyword
  | .call name _ argument _ _ =>
    .call (nameCase.name name) name (argument.map (.ofInteger nameCase))
  | .cond keyword _ test _ yes => .cond keyword (.ofCondition nameCase test) yes.lower none
  | .condElse keyword _ test _ yes _ no =>
    .cond keyword (.ofCondition nameCase test) yes.lower (some no.lower)
  | .whileDo keyword _ test _ body => .whileDo keyword (.ofCondition nameCase test) body.lower
  | .times keyword _ count _ body => .times keyword (.ofInteger nameCase count) body.lower
  | .block _ body _ => body.lower

/-- The declaration of a function. -/
def Definition.lower (d : Definition) : Declaration :=
  .function nameCase d.name d.parameter.name d.block.body.lower

/-- What a program gives to link. -/
def Program.lower (p : Program) : Unlinked :=
  ⟨p.definitions.map Definition.lower, .entry p.main.block.body.lower p.right⟩

end RobotLang.Braced
