/-
  RobotLang.Worded.Program
  ────────────────────────
  **PROGRAMS OF THE WORDED DIALECT.**

  A program declares functions and then lists the statements to execute.  A
  statement is a command with the `;` after it, or a `;` alone; the branches
  of a conditional and the bodies of loops are commands without a `;`.
  Commands, statements and lists of statements are the three parts of one
  inductive type.  Every node keeps all of its tokens, also a `;` that a
  repair put in.
-/
import RobotLang.Expression

namespace RobotLang.Worded

/-! ## §1. Code. -/

/-- The three forms of code. -/
inductive Part where
  | command
  | statement
  | statements
  deriving DecidableEq, Repr

/-- A command, a statement, or a list of statements. -/
inductive Code : Part → Type where
  /-- The empty list. -/
  | nil : Code .statements
  | cons (head : Code .statement) (tail : Code .statements) : Code .statements
  /-- A lone `;`. -/
  | empty (semicolon : Token) : Code .statement
  /-- A command and its `;`. -/
  | ended (command : Code .command) (semicolon : Token) : Code .statement
  | builtin (action : Builtin) (keyword : Token) : Code .command
  /-- A function without an argument. -/
  | call (name : Token) : Code .command
  /-- `name ( argument )` -/
  | callWith (name left : Token) (argument : Integer) (right : Token) : Code .command
  /-- `si test entonces yes` -/
  | cond (keyword : Token) (test : Condition .term) (then_ : Token)
      (yes : Code .command) : Code .command
  /-- `si test entonces yes si-no no` -/
  | condElse (keyword : Token) (test : Condition .term) (then_ : Token)
      (yes : Code .command) (otherwise : Token) (no : Code .command) : Code .command
  /-- `mientras test hacer body` -/
  | whileDo (keyword : Token) (test : Condition .term) (do_ : Token)
      (body : Code .command) : Code .command
  /-- `repetir count veces body` -/
  | times (keyword : Token) (count : Integer) (unit : Token)
      (body : Code .command) : Code .command
  /-- `inicio statement* fin` -/
  | block (opening : Token) (body : Code .statements) (closing : Token) : Code .command
  deriving DecidableEq

abbrev Command : Type := Code .command

abbrev Statement : Type := Code .statement

abbrev Statements : Type := Code .statements

namespace Code

/-- A list of statements as code. -/
def ofList : List Statement → Statements
  | [] => .nil
  | s :: ss => .cons s (ofList ss)

/-- The view of the parts of a command or statement, or of the members of a
list. -/
def children {part : Part} : Code part → Forest
  | .nil => .nil
  | .cons head tail => .branch "statement" "statement" head.children tail.children
  | .empty semicolon => .ofToken "Semicolon" semicolon
  | .ended command semicolon =>
    .branch "singleStatement" "singleStatement" command.children <| .ofToken "Semicolon" semicolon
  | .builtin _ keyword =>
    .branch "statementFun" "statementFun" (.ofToken "StatementFun" keyword) .nil
  | .call name => .branch "call" "call" (.ofToken "Identifier" name) .nil
  | .callWith name left argument right =>
    .branch "call" "call"
      (.leaf "Identifier" name <| .leaf "LeftParen" left <|
        .branch "integer" "integer" argument.children <| .ofToken "RightParen" right)
      .nil
  | .cond keyword test then_ yes =>
    .branch "cond" "cond"
      (.leaf "If" keyword <| .branch "term" "term" test.children <| .leaf "Then" then_ <|
        .branch "singleStatement" "singleStatement" yes.children .nil)
      .nil
  | .condElse keyword test then_ yes otherwise no =>
    .branch "cond" "cond"
      (.leaf "If" keyword <| .branch "term" "term" test.children <| .leaf "Then" then_ <|
        .branch "singleStatement" "singleStatement" yes.children <| .leaf "Else" otherwise <|
        .branch "singleStatement" "singleStatement" no.children .nil)
      .nil
  | .whileDo keyword test do_ body =>
    .branch "loop" "loop"
      (.leaf "While" keyword <| .branch "term" "term" test.children <| .leaf "Do" do_ <|
        .branch "singleStatement" "singleStatement" body.children .nil)
      .nil
  | .times keyword count unit body =>
    .branch "repeat" "repeat"
      (.leaf "Repeat" keyword <| .branch "integer" "integer" count.children <|
        .leaf "Times" unit <| .branch "singleStatement" "singleStatement" body.children .nil)
      .nil
  | .block opening body closing =>
    .branch "block" "block"
      (.leaf "Begin" opening (body.children ++ .ofToken "End" closing)) .nil

end Code

/-- The view of a command. -/
def commandView (c : Command) : Node :=
  ⟨"singleStatement", c.children⟩

/-! ## §2. Declarations and programs. -/

/-- A function declared with or without a body. -/
inductive Definition where
  /-- `define-nueva-instrucción name parameter? como body` -/
  | full (keyword name : Token) (parameter : Option Parameter) (as_ : Token) (body : Statement)
  /-- `define-prototipo-instrucción name parameter? ;` -/
  | prototype (keyword name : Token) (parameter : Option Parameter) (semicolon : Token)
  deriving DecidableEq

/-- `inicia-ejecución statement* termina-ejecución` -/
structure Main where
  opening : Token
  body : Statements
  closing : Token
  deriving DecidableEq

/-- `iniciar-programa definition* main finalizar-programa` -/
structure Program where
  opening : Token
  definitions : List Definition
  main : Main
  /-- The closing word, where the program halts. -/
  closing : Token
  deriving DecidableEq

/-- The view of what may stand in parentheses after a name. -/
def parameterForest : Option Parameter → Forest
  | none => .nil
  | some p => .ofNode "defParam" p.view

/-- The view of a definition. -/
def Definition.view : Definition → Node
  | .full keyword name parameter as_ body =>
    ⟨"defOrProto",
      .branch "def" "def"
        (.leaf "Define" keyword <| .leaf "Identifier" name <|
          parameterForest parameter
            ++ .leaf "As" as_ (.branch "statement" "statement" body.children .nil))
        .nil⟩
  | .prototype keyword name parameter semicolon =>
    ⟨"defOrProto",
      .branch "proto" "proto"
        (.leaf "Proto" keyword <| .leaf "Identifier" name <|
          parameterForest parameter ++ .ofToken "Semicolon" semicolon)
        .nil⟩

/-- The definitions of a program, one child each. -/
def Definition.forest : List Definition → Forest
  | [] => .nil
  | d :: ds => .branch "defOrProto" "defOrProto" d.view.children (forest ds)

/-- The view of the statements to execute. -/
def Main.view (m : Main) : Node :=
  ⟨"programDef",
    .leaf "BeginExecution" m.opening (m.body.children ++ .ofToken "EndExecution" m.closing)⟩

/-- The uniform view of a program. -/
def Program.view (p : Program) : Node :=
  ⟨"program",
    .leaf "BeginProgram" p.opening <|
      Definition.forest p.definitions ++ .ofNode "programDef" p.main.view
        ++ .ofToken "EndProgram" p.closing⟩

/-! ## §3. Tokens. -/

/-- A list has the tokens of its statements, one after the other. -/
@[simp] theorem Code.tokens_ofList (ss : List Statement) :
    (Code.ofList ss).children.tokens = ss.flatMap (·.children.tokens) := by
  induction ss with
  | nil => rfl
  | cons s ss ih => simp [Code.ofList, Code.children, ih]

@[simp] theorem Definition.tokens_forest (ds : List Definition) :
    (Definition.forest ds).tokens = ds.flatMap (·.view.tokens) := by
  induction ds with
  | nil => rfl
  | cons d ds ih => simp [Definition.forest, Node.tokens, ih]

theorem Main.tokens_view (m : Main) :
    m.view.tokens = m.opening :: m.body.children.tokens ++ [m.closing] := by
  simp [Main.view, Node.tokens]

/-- The tokens of a program, from its first word to its last. -/
theorem Program.tokens_view (p : Program) :
    p.view.tokens = p.opening :: p.definitions.flatMap (·.view.tokens) ++ p.main.view.tokens
      ++ [p.closing] := by
  simp [Program.view, Node.tokens]

end RobotLang.Worded
