/-
  RobotLang.Expression
  ────────────────────
  **NUMBERS, CONDITIONS AND PARAMETERS, AS BOTH DIALECTS WRITE THEM.**

  Every node keeps all of its tokens.  Conditions come in four levels, from
  the loosest to the tightest: terms are joined by "or", conjunctions by
  "and", literals may be negated, clauses stand alone.  The level is part of
  the type, so only a parenthesis leads from a clause back to a term, and one
  recursion over `Condition` serves all four levels.

  `Integer.children` and `Condition.children` are the uniform view.
-/
import RobotLang.Forest

namespace RobotLang

/-! ## §1. Robot actions. -/

/-- A primitive robot action. -/
inductive Builtin where
  | move
  | turnLeft
  | pickBeeper
  | putBeeper
  | turnOff
  | return_
  deriving DecidableEq, Repr

namespace Builtin

/-- The kinds of the words for actions, in grammar order. -/
def kinds : List Kind :=
  [.move, .turnLeft, .pickBeeper, .putBeeper, .turnOff, .return_]

/-- The action that a word names. -/
def ofKind? : Kind → Option Builtin
  | .move => some .move
  | .turnLeft => some .turnLeft
  | .pickBeeper => some .pickBeeper
  | .putBeeper => some .putBeeper
  | .turnOff => some .turnOff
  | .return_ => some .return_
  | _ => none

/-- The kinds listed are those of the actions, and no other. -/
theorem ofKind?_isSome_iff (kind : Kind) : (ofKind? kind).isSome ↔ kind ∈ kinds := by
  cases kind <;> simp [ofKind?, kinds]

end Builtin

/-! ## §2. Numbers. -/

/-- An expression for a number. -/
inductive Integer where
  /-- The enclosing function's parameter. -/
  | name (token : Token)
  /-- A literal with its value. -/
  | literal (token : Token) (value : Int64)
  /-- One more than `inner`. -/
  | succ (keyword left : Token) (inner : Integer) (right : Token)
  /-- One less than `inner`. -/
  | pred (keyword left : Token) (inner : Integer) (right : Token)
  deriving DecidableEq, Repr

namespace Integer

/-- The view of a number's parts. -/
def children : Integer → Forest
  | .name token => .ofToken "Identifier" token
  | .literal token _ => .ofToken "IntegerLiteral" token
  | .succ keyword left inner right =>
    .branch "succPred" "succPred" (.ofToken "Succ" keyword) <|
      .leaf "LeftParen" left <| .branch "integer" "integer" inner.children <|
      .ofToken "RightParen" right
  | .pred keyword left inner right =>
    .branch "succPred" "succPred" (.ofToken "Pred" keyword) <|
      .leaf "LeftParen" left <| .branch "integer" "integer" inner.children <|
      .ofToken "RightParen" right

/-- The uniform view. -/
def view (n : Integer) : Node :=
  ⟨"integer", n.children⟩

end Integer

/-! ## §3. Conditions. -/

/-- How tightly a condition binds. -/
inductive Level where
  | term
  | conjunction
  | literal
  | clause
  deriving DecidableEq, Repr

/-- The rule that a condition of this level is parsed by. -/
def Level.rule : Level → String
  | .term => "term"
  | .conjunction => "andTerm"
  | .literal => "notTerm"
  | .clause => "clause"

/-- A condition that binds as tightly as its level says. -/
inductive Condition : Level → Type where
  /-- A conjunction alone. -/
  | conj (c : Condition .conjunction) : Condition .term
  | or (left : Condition .term) (operator : Token) (right : Condition .conjunction) :
      Condition .term
  /-- A literal alone. -/
  | lit (c : Condition .literal) : Condition .conjunction
  | and (left : Condition .conjunction) (operator : Token) (right : Condition .literal) :
      Condition .conjunction
  /-- A clause that is not negated. -/
  | plain (c : Condition .clause) : Condition .literal
  | not (operator : Token) (c : Condition .clause) : Condition .literal
  /-- Whether a number is zero. -/
  | isZero (keyword left : Token) (number : Integer) (right : Token) : Condition .clause
  /-- What a sensor says. -/
  | sensor (sensor : Sensor) (keyword : Token) : Condition .clause
  /-- What a sensor says, written with empty parentheses. -/
  | sensorCall (sensor : Sensor) (keyword left right : Token) : Condition .clause
  /-- A term in parentheses. -/
  | paren (left : Token) (c : Condition .term) (right : Token) : Condition .clause
  deriving DecidableEq

namespace Condition

/-- The view of a sensor's word. -/
def sensorWord (keyword : Token) (rest : Forest) : Forest :=
  .branch "boolFun" "boolFun" (.ofToken "BoolFun" keyword) rest

/-- The view of a condition's parts. -/
def children {level : Level} : Condition level → Forest
  | .conj c => .branch "andTerm" "andTerm" c.children .nil
  | .or left operator right =>
    left.children ++ .leaf "Or" operator (.branch "andTerm" "andTerm" right.children .nil)
  | .lit c => .branch "notTerm" "notTerm" c.children .nil
  | .and left operator right =>
    left.children ++ .leaf "And" operator (.branch "notTerm" "notTerm" right.children .nil)
  | .plain c => .branch "clause" "clause" c.children .nil
  | .not operator c => .leaf "Not" operator (.branch "clause" "clause" c.children .nil)
  | .isZero keyword left number right =>
    .branch "isZeroClause" "isZeroClause"
      (.leaf "IsZero" keyword <| .leaf "LeftParen" left <|
        .branch "integer" "integer" number.children <| .ofToken "RightParen" right)
      .nil
  | .sensor _ keyword =>
    .branch "boolFunClause" "boolFunClause" (sensorWord keyword .nil) .nil
  | .sensorCall _ keyword left right =>
    .branch "boolFunClause" "boolFunClause"
      (sensorWord keyword <| .leaf "LeftParen" left <| .ofToken "RightParen" right) .nil
  | .paren left c right =>
    .leaf "LeftParen" left <| .branch "term" "term" c.children <| .ofToken "RightParen" right

/-- The uniform view. -/
def view {level : Level} (c : Condition level) : Node :=
  ⟨level.rule, c.children⟩

end Condition

/-! ## §4. Parameters. -/

/-- What stands in parentheses after the name of a new function. -/
structure Parameter where
  left : Token
  name : Option Token
  right : Token
  deriving DecidableEq, Repr

namespace Parameter

/-- The view of a parameter's parts. -/
def children (p : Parameter) : Forest :=
  match p.name with
  | none => .leaf "LeftParen" p.left <| .ofToken "RightParen" p.right
  | some name =>
    .leaf "LeftParen" p.left <| .leaf "Identifier" name <| .ofToken "RightParen" p.right

/-- The uniform view. -/
def view (p : Parameter) : Node :=
  ⟨"defParam", p.children⟩

end Parameter
end RobotLang
