/-
  RobotLang.Worded.Lowering
  ─────────────────────────
  **THE CODE OF A WORDED PROGRAM.**

  Case does not matter in names.  Blocks and empty statements add nothing of
  their own; the program halts on the line of its closing word.  Parentheses
  after the name of a prototype announce a parameter even when they are
  empty; a definition has one only when it names it.
-/
import RobotLang.Fragment.Build
import RobotLang.Worded.Program

namespace RobotLang.Worded

/-- Names that differ in case are the same. -/
def nameCase : NameCase := .insensitive

/-- The code of a command, of a statement or of a list of statements. -/
def Code.lower {part : Part} : Code part → Fragment
  | .nil => []
  | .cons head tail => head.lower ++ tail.lower
  | .empty _ => []
  | .ended command _ => command.lower
  | .builtin action keyword => .builtin action keyword
  | .call name => .call (nameCase.name name) name none
  | .callWith name _ argument _ =>
    .call (nameCase.name name) name (some (.ofInteger nameCase argument))
  | .cond keyword test _ yes => .cond keyword (.ofCondition nameCase test) yes.lower none
  | .condElse keyword test _ yes _ no =>
    .cond keyword (.ofCondition nameCase test) yes.lower (some no.lower)
  | .whileDo keyword test _ body => .whileDo keyword (.ofCondition nameCase test) body.lower
  | .times keyword count _ body => .times keyword (.ofInteger nameCase count) body.lower
  | .block _ body _ => body.lower

/-- The declaration of a function. -/
def Definition.lower : Definition → Declaration
  | .full _ name parameter _ body =>
    .function nameCase name (parameter.bind (·.name)) body.lower
  | .prototype _ name parameter _ => .prototype nameCase name parameter.isSome

/-- What a program gives to link. -/
def Program.lower (p : Program) : Unlinked :=
  ⟨p.definitions.map Definition.lower, .entry p.main.body.lower p.closing⟩

end RobotLang.Worded
