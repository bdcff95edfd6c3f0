/-
  RobotLang.Worded.Terminator
  ───────────────────────────
  **THE `;` THAT MAY BE LEFT OUT.**

  Right before `fin` and `termina-ejecución` the `;` of a statement may be
  missing.  The repair puts one in and complains; such complaints are
  harmless and are dropped.  The `;` it put in stands at the word that
  follows; `Program.settle` moves it to where it belongs, right after the
  last source token of the statement it ends.
-/
import RobotLang.Worded.Program
import RobotLang.Diagnostic

namespace RobotLang.Worded

/-! ## §1. Harmless complaints. -/

/-- The spellings of the words that close a list of statements. -/
def closers : List String :=
  ["fin", "termina-ejecución", "termina-ejecucion"]

/-- The complaint only says that a `;` is missing before a closing word. -/
def isHarmless (d : Diagnostic) : Bool :=
  d.issue == .mismatchedToken
    && d.text.any (closers.contains ·)
    && d.expected == some [";"]

/-- The complaints that are not harmless. -/
def serious (ds : List Diagnostic) : List Diagnostic :=
  ds.filter fun d => !isHarmless d

/-! ## §2. The place of a `;` that was put in. -/

/-- The token moved to just past `last`. -/
def movedAfter (t last : Token) : Token :=
  { t with
    line := last.endLine
    column := last.endColumn
    endLine := last.endLine
    offset := last.endOffset + 1
    endOffset := last.endOffset + 1 }

/-- The `;` of a command, moved if it was put in. -/
def settledTerminator (command : Command) (semicolon : Token) : Token :=
  if semicolon.inserted then
    match (commandView command).lastSourceToken? with
    | some last => movedAfter semicolon last
    | none => semicolon
  else semicolon

/-- Moves every `;` that was put in to just past the statement it ends. -/
def Code.settle {part : Part} : Code part → Code part
  | .nil => .nil
  | .cons head tail => .cons head.settle tail.settle
  | .empty semicolon => .empty semicolon
  | .ended command semicolon =>
    let settled := command.settle
    .ended settled (settledTerminator settled semicolon)
  | .builtin action keyword => .builtin action keyword
  | .call name => .call name
  | .callWith name left argument right => .callWith name left argument right
  | .cond keyword test then_ yes => .cond keyword test then_ yes.settle
  | .condElse keyword test then_ yes otherwise no =>
    .condElse keyword test then_ yes.settle otherwise no.settle
  | .whileDo keyword test do_ body => .whileDo keyword test do_ body.settle
  | .times keyword count unit body => .times keyword count unit body.settle
  | .block opening body closing => .block opening body.settle closing

/-- Settles the body of a function; a prototype stays as it is. -/
def Definition.settle : Definition → Definition
  | .full keyword name parameter as_ body => .full keyword name parameter as_ body.settle
  | .prototype keyword name parameter semicolon => .prototype keyword name parameter semicolon

/-- Settles all statements of a program. -/
def Program.settle (p : Program) : Program :=
  { p with
    definitions := p.definitions.map Definition.settle
    main := { p.main with body := p.main.body.settle } }

end RobotLang.Worded
