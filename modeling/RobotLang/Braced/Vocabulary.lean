/-
  RobotLang.Braced.Vocabulary
  ───────────────────────────
  **THE WORDS OF THE BRACED DIALECT.**

  English words, with blocks in braces.  Names are made of
  ASCII letters, digits and underscores; every word is also the head of a
  longer name.  A character that starts no word is an error.
-/
import RobotLang.Lexicon

namespace RobotLang.Braced

/-- The word for a sensor. -/
def sensorLabel : Sensor → String
  | .frontIsClear => "frontIsClear"
  | .frontIsBlocked => "frontIsBlocked"
  | .leftIsClear => "leftIsClear"
  | .leftIsBlocked => "leftIsBlocked"
  | .rightIsClear => "rightIsClear"
  | .rightIsBlocked => "rightIsBlocked"
  | .nextToABeeper => "nextToABeeper"
  | .notNextToABeeper => "notNextToABeeper"
  | .anyBeepersInBeeperBag => "anyBeepersInBeeperBag"
  | .noBeepersInBeeperBag => "noBeepersInBeeperBag"
  | .facingNorth => "facingNorth"
  | .facingSouth => "facingSouth"
  | .facingEast => "facingEast"
  | .facingWest => "facingWest"
  | .notFacingNorth => "notFacingNorth"
  | .notFacingSouth => "notFacingSouth"
  | .notFacingEast => "notFacingEast"
  | .notFacingWest => "notFacingWest"

/-- How a kind is called in lists of expected words. -/
def label : Kind → String
  | .class_ => "class"
  | .program => "program"
  | .define => "void"
  | .return_ => "return"
  | .turnOff => "turnoff"
  | .turnLeft => "turnleft"
  | .move => "move"
  | .pickBeeper => "pickbeeper"
  | .putBeeper => "putbeeper"
  | .while_ => "while"
  | .repeat_ => "iterate"
  | .pred => "pred"
  | .succ => "succ"
  | .isZero => "iszero"
  | .sensor s => sensorLabel s
  | .else_ => "else"
  | .if_ => "if"
  | .integerLiteral => "<int>"
  | .identifier => "<var>"
  | .not_ => "!"
  | .or_ => "||"
  | .and_ => "&&"
  | .leftParen => "("
  | .rightParen => ")"
  | .leftBrace => "\x7b"
  | .rightBrace => "\x7d"
  | .semicolon => ";"
  | .lineComment => "LineComment"
  | .blockComment => "BlockComment"
  | .eof => "EOF"
  | .beginProgram | .endProgram | .beginExecution | .endExecution | .prototype | .as_ | .begin_
  | .end_ | .then_ | .do_ | .times => "<unused>"

/-- The words that are whole keywords. -/
def keywords : List Entry :=
  [.keyword ["class"] .class_,
    .keyword ["program"] .program,
    .keyword ["define", "void"] .define,
    .keyword ["return"] .return_,
    .keyword ["turnoff"] .turnOff,
    .keyword ["turnleft"] .turnLeft,
    .keyword ["move"] .move,
    .keyword ["pickbeeper"] .pickBeeper,
    .keyword ["putbeeper"] .putBeeper,
    .keyword ["while"] .while_,
    .keyword ["iterate"] .repeat_,
    .keyword ["pred"] .pred,
    .keyword ["succ"] .succ,
    .keyword ["iszero"] .isZero]
  ++ Sensor.all.map (fun s => .sensor [sensorLabel s] s)
  ++ [.keyword ["else"] .else_,
    .keyword ["if"] .if_]

/-- Operators and punctuation. -/
def signs : List Entry :=
  [.sign ["!"] .not_,
    .sign ["||"] .or_,
    .sign ["&&", "&"] .and_,
    .sign ["("] .leftParen,
    .sign [")"] .rightParen,
    .sign ["\x7b"] .leftBrace,
    .sign ["\x7d"] .rightBrace,
    .sign [";"] .semicolon]

/-- Comments to the end of the line, and comments over several lines. -/
def comments : List Entry :=
  [.comment (.toLineEnd "//") .lineComment,
    .comment (.enclosed "/*" "*/") .blockComment]

/-- The lexicon of the braced dialect. -/
def lexicon : Lexicon where
  entries :=
    [.skip .blanks] ++ keywords
      ++ [.emit .digits .integerLiteral, .emit .name .identifier] ++ signs ++ comments
  names :=
    { start := Text.isAsciiLetter
      continue_ := fun c => Text.isAsciiLetter c || Text.isDigit c || c == '_' }
  label := label

end RobotLang.Braced
