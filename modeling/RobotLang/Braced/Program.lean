/-
  RobotLang.Braced.Program
  ────────────────────────
  **PROGRAMS OF THE BRACED DIALECT.**

  A program is a class with function definitions and a main block.  Statements
  and lists of statements are the two parts of one inductive type, so that
  whatever is said of code is said by one recursion.  Every node keeps all of
  its tokens; `Code.children` lists them in source order.
-/
import RobotLang.Expression

namespace RobotLang.Braced

/-! ## §1. Code. -/

/-- The two forms of code. -/
inductive Part where
  | statement
  | statements
  deriving DecidableEq, Repr

/-- A statement, or a list of statements. -/
inductive Code : Part → Type where
  /-- The empty list. -/
  | nil : Code .statements
  | cons (head : Code .statement) (tail : Code .statements) : Code .statements
  /-- A lone `;`. -/
  | empty (semicolon : Token) : Code .statement
  /-- `action ( ) ;` -/
  | builtin (action : Builtin) (keyword left right semicolon : Token) : Code .statement
  /-- `name ( argument? ) ;` -/
  | call (name left : Token) (argument : Option Integer) (right semicolon : Token) :
      Code .statement
  /-- `if ( test ) yes` -/
  | cond (keyword left : Token) (test : Condition .term) (right : Token)
      (yes : Code .statement) : Code .statement
  /-- `if ( test ) yes else no` -/
  | condElse (keyword left : Token) (test : Condition .term) (right : Token)
      (yes : Code .statement) (otherwise : Token) (no : Code .statement) : Code .statement
  /-- `while ( test ) body` -/
  | whileDo (keyword left : Token) (test : Condition .term) (right : Token)
      (body : Code .statement) : Code .statement
  /-- `iterate ( count ) body` -/
  | times (keyword left : Token) (count : Integer) (right : Token)
      (body : Code .statement) : Code .statement
  /-- Statements in braces. -/
  | block (left : Token) (body : Code .statements) (right : Token) : Code .statement
  deriving DecidableEq

abbrev Statement : Type := Code .statement

abbrev Statements : Type := Code .statements

namespace Code

/-- A list of statements as code. -/
def ofList : List Statement → Statements
  | [] => .nil
  | s :: ss => .cons s (ofList ss)

/-- The view of a call. -/
def callView (name left : Token) (argument : Option Integer) (right : Token) : Node :=
  ⟨"call",
    match argument with
    | none => .leaf "Identifier" name <| .leaf "LeftParen" left <| .ofToken "RightParen" right
    | some n =>
      .leaf "Identifier" name <| .leaf "LeftParen" left <| .branch "integer" "integer" n.children <|
        .ofToken "RightParen" right⟩

/-- The view of the parts of a statement, or of the members of a list. -/
def children {part : Part} : Code part → Forest
  | .nil => .nil
  | .cons head tail => .branch "statement" "statement" head.children tail.children
  | .empty semicolon =>
    .branch "singleStatement" "singleStatement" (.ofToken "Semicolon" semicolon) .nil
  | .builtin _ keyword left right semicolon =>
    .branch "singleStatement" "singleStatement"
      (.branch "statementFun" "statementFun" (.ofToken "StatementFun" keyword) <|
        .leaf "LeftParen" left <| .leaf "RightParen" right <| .ofToken "Semicolon" semicolon)
      .nil
  | .call name left argument right semicolon =>
    .branch "singleStatement" "singleStatement"
      (.ofNode "call" (callView name left argument right) ++ .ofToken "Semicolon" semicolon)
      .nil
  | .cond keyword left test right yes =>
    .branch "cond" "cond"
      (.leaf "If" keyword <| .leaf "LeftParen" left <| .branch "term" "term" test.children <|
        .leaf "RightParen" right <| .branch "statement" "statement" yes.children .nil)
      .nil
  | .condElse keyword left test right yes otherwise no =>
    .branch "cond" "cond"
      (.leaf "If" keyword <| .leaf "LeftParen" left <| .branch "term" "term" test.children <|
        .leaf "RightParen" right <| .branch "statement" "statement" yes.children <|
        .leaf "Else" otherwise <| .branch "statement" "statement" no.children .nil)
      .nil
  | .whileDo keyword left test right body =>
    .branch "loop" "loop"
      (.leaf "While" keyword <| .leaf "LeftParen" left <| .branch "term" "term" test.children <|
        .leaf "RightParen" right <| .branch "statement" "statement" body.children .nil)
      .nil
  | .times keyword left count right body =>
    .branch "repeat" "repeat"
      (.leaf "Iterate" keyword <| .leaf "LeftParen" left <|
        .branch "integer" "integer" count.children <|
        .leaf "RightParen" right <| .branch "statement" "statement" body.children .nil)
      .nil
  | .block left body right =>
    .branch "block" "block"
      (.leaf "LeftBrace" left (body.children ++ .ofToken "RightBrace" right)) .nil

end Code

/-! ## §2. Definitions and programs. -/

/-- Statements in braces. -/
structure Block where
  left : Token
  body : Statements
  right : Token
  deriving DecidableEq

/-- `void name ( parameter? ) block` -/
structure Definition where
  keyword : Token
  name : Token
  parameter : Parameter
  block : Block
  deriving DecidableEq

/-- `program ( ) block` -/
structure Main where
  keyword : Token
  left : Token
  right : Token
  block : Block
  deriving DecidableEq

/-- `class program { definition* main }` -/
structure Program where
  keyword : Token
  name : Token
  left : Token
  definitions : List Definition
  main : Main
  /-- The brace that closes the class, where the program halts. -/
  right : Token
  deriving DecidableEq

/-- The view of a block. -/
def Block.view (b : Block) : Node :=
  ⟨"block", .leaf "LeftBrace" b.left (b.body.children ++ .ofToken "RightBrace" b.right)⟩

/-- The view of a definition. -/
def Definition.view (d : Definition) : Node :=
  ⟨"def",
    .leaf "Define" d.keyword <| .leaf "Identifier" d.name <|
      .ofNode "defParam" d.parameter.view ++ .ofNode "block" d.block.view⟩

/-- The view of the main block. -/
def Main.view (m : Main) : Node :=
  ⟨"programDef",
    .leaf "Program" m.keyword <| .leaf "LeftParen" m.left <| .leaf "RightParen" m.right <|
      .ofNode "block" m.block.view⟩

/-- The definitions of a class, one child each. -/
def Definition.forest : List Definition → Forest
  | [] => .nil
  | d :: ds => .branch "def" "def" d.view.children (forest ds)

/-- The uniform view of a program. -/
def Program.view (p : Program) : Node :=
  ⟨"programClass",
    .leaf "Class" p.keyword <| .leaf "Program" p.name <| .leaf "LeftBrace" p.left <|
      Definition.forest p.definitions ++ .ofNode "programDef" p.main.view
        ++ .ofToken "RightBrace" p.right⟩

/-! ## §3. Tokens. -/

/-- A list has the tokens of its statements, one after the other. -/
@[simp] theorem Code.tokens_ofList (ss : List Statement) :
    (Code.ofList ss).children.tokens = ss.flatMap (·.children.tokens) := by
  induction ss with
  | nil => rfl
  | cons s ss ih => simp [Code.ofList, Code.children, ih]

@[simp] theorem Definition.tokens_forest (ds : List Definition) :
    (Definition.forest ds).tokens = ds.flatMap (·.view.tokens) := by
  induction ds with
  | nil => rfl
  | cons d ds ih => simp [Definition.forest, Node.tokens, ih]

theorem Block.tokens_view (b : Block) :
    b.view.tokens = b.left :: b.body.children.tokens ++ [b.right] := by
  simp [Block.view, Node.tokens]

theorem Definition.tokens_view (d : Definition) :
    d.view.tokens = d.keyword :: d.name :: d.parameter.children.tokens ++ d.block.view.tokens := by
  simp [Definition.view, Parameter.view, Node.tokens]

theorem Main.tokens_view (m : Main) :
    m.view.tokens = m.keyword :: m.left :: m.right :: m.block.view.tokens := by
  simp [Main.view, Node.tokens]

/-- The tokens of a program, from its first word to the brace that closes it. -/
theorem Program.tokens_view (p : Program) :
    p.view.tokens = p.keyword :: p.name :: p.left :: p.definitions.flatMap (·.view.tokens)
      ++ p.main.view.tokens ++ [p.right] := by
  simp [Program.view, Node.tokens]

end RobotLang.Braced
