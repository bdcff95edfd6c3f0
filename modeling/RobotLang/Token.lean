/-
  RobotLang.Token
  ───────────────
  **SENSORS, TOKEN KINDS AND TOKENS.**

  Both dialects spell their words differently and share one set of kinds: a
  kind says what a word does, the token's image says how it was written.
  Terminators that a repair put in are tokens too, told apart by `inserted`.
-/

namespace RobotLang

/-! ## §1. Sensors. -/

/-- One of the eighteen questions a robot can answer about its surroundings. -/
inductive Sensor where
  | frontIsClear
  | frontIsBlocked
  | leftIsClear
  | leftIsBlocked
  | rightIsClear
  | rightIsBlocked
  | nextToABeeper
  | notNextToABeeper
  | anyBeepersInBeeperBag
  | noBeepersInBeeperBag
  | facingNorth
  | facingSouth
  | facingEast
  | facingWest
  | notFacingNorth
  | notFacingSouth
  | notFacingEast
  | notFacingWest
  deriving DecidableEq, Repr

namespace Sensor

/-- All sensors in grammar order, the order in which expected words are listed. -/
def all : List Sensor :=
  [.frontIsClear, .frontIsBlocked, .leftIsClear, .leftIsBlocked, .rightIsClear, .rightIsBlocked,
    .nextToABeeper, .notNextToABeeper, .anyBeepersInBeeperBag, .noBeepersInBeeperBag,
    .facingNorth, .facingSouth, .facingEast, .facingWest,
    .notFacingNorth, .notFacingSouth, .notFacingEast, .notFacingWest]

/-- The sensor's name in token dumps. -/
def name : Sensor → String
  | .frontIsClear => "FrontIsClear"
  | .frontIsBlocked => "FrontIsBlocked"
  | .leftIsClear => "LeftIsClear"
  | .leftIsBlocked => "LeftIsBlocked"
  | .rightIsClear => "RightIsClear"
  | .rightIsBlocked => "RightIsBlocked"
  | .nextToABeeper => "NextToABeeper"
  | .notNextToABeeper => "NotNextToABeeper"
  | .anyBeepersInBeeperBag => "AnyBeepersInBeeperBag"
  | .noBeepersInBeeperBag => "NoBeepersInBeeperBag"
  | .facingNorth => "FacingNorth"
  | .facingSouth => "FacingSouth"
  | .facingEast => "FacingEast"
  | .facingWest => "FacingWest"
  | .notFacingNorth => "NotFacingNorth"
  | .notFacingSouth => "NotFacingSouth"
  | .notFacingEast => "NotFacingEast"
  | .notFacingWest => "NotFacingWest"

/-- The sensor of that name. -/
def ofName? (name : String) : Option Sensor :=
  all.find? fun sensor => sensor.name == name

theorem mem_all (sensor : Sensor) : sensor ∈ all := by
  cases sensor <;> decide

end Sensor

/-! ## §2. Kinds. -/

/-- What a token does in a program, whichever dialect spells it. -/
inductive Kind where
  | class_ | program
  | beginProgram | endProgram
  | beginExecution | endExecution
  | define | prototype | as_
  | begin_ | end_
  | move | turnLeft | pickBeeper | putBeeper | turnOff | return_
  | if_ | then_ | else_ | while_ | do_ | repeat_ | times
  | pred | succ | isZero | integerLiteral | identifier
  | sensor (sensor : Sensor)
  | not_ | and_ | or_
  | leftParen | rightParen | leftBrace | rightBrace | semicolon
  | lineComment | blockComment
  | eof
  deriving DecidableEq, Repr

namespace Kind

/-- The kinds that carry no sensor. -/
def plain : List Kind :=
  [.class_, .program, .beginProgram, .endProgram, .beginExecution, .endExecution, .define,
    .prototype, .as_, .begin_, .end_, .move, .turnLeft, .pickBeeper, .putBeeper, .turnOff,
    .return_, .if_, .then_, .else_, .while_, .do_, .repeat_, .times, .pred, .succ, .isZero,
    .integerLiteral, .identifier, .not_, .and_, .or_, .leftParen, .rightParen, .leftBrace,
    .rightBrace, .semicolon, .lineComment, .blockComment, .eof]

/-- The sensor kinds, in grammar order. -/
def sensors : List Kind :=
  Sensor.all.map .sensor

/-- The kind's name in token dumps. -/
def name : Kind → String
  | .class_ => "Class"
  | .program => "Program"
  | .beginProgram => "BeginProgram"
  | .endProgram => "EndProgram"
  | .beginExecution => "BeginExecution"
  | .endExecution => "EndExecution"
  | .define => "Define"
  | .prototype => "Prototype"
  | .as_ => "As"
  | .begin_ => "Begin"
  | .end_ => "End"
  | .move => "Move"
  | .turnLeft => "TurnLeft"
  | .pickBeeper => "PickBeeper"
  | .putBeeper => "PutBeeper"
  | .turnOff => "TurnOff"
  | .return_ => "Return"
  | .if_ => "If"
  | .then_ => "Then"
  | .else_ => "Else"
  | .while_ => "While"
  | .do_ => "Do"
  | .repeat_ => "Repeat"
  | .times => "Times"
  | .pred => "Pred"
  | .succ => "Succ"
  | .isZero => "IsZero"
  | .integerLiteral => "IntegerLiteral"
  | .identifier => "Identifier"
  | .sensor s => "Predicate(" ++ s.name ++ ")"
  | .not_ => "Not"
  | .and_ => "And"
  | .or_ => "Or"
  | .leftParen => "LeftParen"
  | .rightParen => "RightParen"
  | .leftBrace => "LeftBrace"
  | .rightBrace => "RightBrace"
  | .semicolon => "Semicolon"
  | .lineComment => "LineComment"
  | .blockComment => "BlockComment"
  | .eof => "Eof"

/-- The kind of that name. -/
def ofName? (name : String) : Option Kind :=
  (plain ++ sensors).find? fun kind => kind.name == name

/-- Comments never reach the parser. -/
def isComment : Kind → Bool
  | .lineComment | .blockComment => true
  | _ => false

end Kind

/-! ## §3. Tokens. -/

/-- A stretch of source text with its place, or a terminator a repair put in. -/
structure Token where
  kind : Kind
  /-- The text as written; of an inserted terminator, its spelling. -/
  image : String
  /-- Line of the first character, from 1. -/
  line : Nat
  /-- Column of the first character, from 1. -/
  column : Nat
  /-- Line of the last character. -/
  endLine : Nat
  /-- Offset of the first character, from 0. -/
  offset : Nat
  /-- Offset of the last character. -/
  endOffset : Nat
  /-- Whether a repair put the token in. -/
  inserted : Bool
  deriving DecidableEq, Repr

namespace Token

/-- The column just past the last character of a token on one line. -/
def endColumn (t : Token) : Nat :=
  t.column + t.image.length

/-- A token of `kind` put in just before `t`. -/
def insertedBefore (t : Token) (kind : Kind) (image : String) : Token where
  kind := kind
  image := image
  line := t.line
  column := t.column
  endLine := t.line
  offset := t.offset
  endOffset := t.offset
  inserted := true

/-- The end of input, at the given place. -/
def endOfInput (line column offset : Nat) : Token where
  kind := .eof
  image := ""
  line := line
  column := column
  endLine := line
  offset := offset
  endOffset := offset
  inserted := false

/-- The end of input just past `t`. -/
def endAfter (t : Token) : Token :=
  endOfInput t.endLine t.endColumn (t.endOffset + 1)

@[simp] theorem endOfInput_kind (line column offset : Nat) :
    (endOfInput line column offset).kind = .eof := rfl

@[simp] theorem endAfter_kind (t : Token) : t.endAfter.kind = .eof := rfl

end Token
end RobotLang
