/-
  RobotLang.Worded.Vocabulary
  ───────────────────────────
  **THE WORDS OF THE WORDED DIALECT.**

  Spanish words, with blocks between `inicio` and `fin`.  A word that is
  written with an accent may also be written without it.  Names are made of
  Latin letters, digits, underscores and hyphens.  A character that starts no
  word is passed over in silence.
-/
import RobotLang.Lexicon

namespace RobotLang.Worded

/-- The word for a sensor. -/
def sensorLabel : Sensor → String
  | .frontIsClear => "frente-libre"
  | .frontIsBlocked => "frente-bloqueado"
  | .leftIsClear => "izquierda-libre"
  | .leftIsBlocked => "izquierda-bloqueada"
  | .rightIsClear => "derecha-libre"
  | .rightIsBlocked => "derecha-bloqueada"
  | .nextToABeeper => "junto-a-zumbador"
  | .notNextToABeeper => "no-junto-a-zumbador"
  | .anyBeepersInBeeperBag => "algún-zumbador-en-la-mochila"
  | .noBeepersInBeeperBag => "ningún-zumbador-en-la-mochila"
  | .facingNorth => "orientado-al-norte"
  | .facingSouth => "orientado-al-sur"
  | .facingEast => "orientado-al-este"
  | .facingWest => "orientado-al-oeste"
  | .notFacingNorth => "no-orientado-al-norte"
  | .notFacingSouth => "no-orientado-al-sur"
  | .notFacingEast => "no-orientado-al-este"
  | .notFacingWest => "no-orientado-al-oeste"

/-- All spellings of a sensor, the accented one first. -/
def sensorSpellings : Sensor → List String
  | .anyBeepersInBeeperBag => ["algún-zumbador-en-la-mochila", "algun-zumbador-en-la-mochila"]
  | .noBeepersInBeeperBag => ["ningún-zumbador-en-la-mochila", "ningun-zumbador-en-la-mochila"]
  | s => [sensorLabel s]

/-- How a kind is called in lists of expected words. -/
def label : Kind → String
  | .beginProgram => "iniciar-programa"
  | .beginExecution => "inicia-ejecución"
  | .endExecution => "termina-ejecución"
  | .endProgram => "finalizar-programa"
  | .define => "define-nueva-instrucción"
  | .prototype => "define-prototipo-instrucción"
  | .return_ => "sal-de-instrucción"
  | .as_ => "como"
  | .turnOff => "apágate"
  | .turnLeft => "gira-izquierda"
  | .move => "avanza"
  | .pickBeeper => "coge-zumbador"
  | .putBeeper => "deja-zumbador"
  | .begin_ => "inicio"
  | .end_ => "fin"
  | .then_ => "entonces"
  | .while_ => "mientras"
  | .do_ => "hacer"
  | .repeat_ => "repetir"
  | .times => "veces"
  | .pred => "precede"
  | .succ => "sucede"
  | .isZero => "si-es-cero"
  | .sensor s => sensorLabel s
  | .else_ => "si-no"
  | .if_ => "si"
  | .not_ => "no"
  | .or_ => "o"
  | .and_ => "y"
  | .integerLiteral => "<int>"
  | .identifier => "<var>"
  | .leftParen => "("
  | .rightParen => ")"
  | .semicolon => ";"
  | .lineComment => "LineComment"
  | .blockComment => "BlockComment"
  | .eof => "EOF"
  | .class_ | .program | .leftBrace | .rightBrace => "<unused>"

/-- The words that are whole keywords. -/
def keywords : List Entry :=
  [.keyword ["iniciar-programa"] .beginProgram,
    .keyword ["inicia-ejecución", "inicia-ejecucion"] .beginExecution,
    .keyword ["termina-ejecución", "termina-ejecucion"] .endExecution,
    .keyword ["finalizar-programa"] .endProgram,
    .keyword ["define-nueva-instrucción", "define-nueva-instruccion"] .define,
    .keyword ["define-prototipo-instrucción", "define-prototipo-instruccion"] .prototype,
    .keyword ["sal-de-instrucción", "sal-de-instruccion"] .return_,
    .keyword ["como"] .as_,
    .keyword ["apágate", "apagate"] .turnOff,
    .keyword ["gira-izquierda"] .turnLeft,
    .keyword ["avanza"] .move,
    .keyword ["coge-zumbador"] .pickBeeper,
    .keyword ["deja-zumbador"] .putBeeper,
    .keyword ["inicio"] .begin_,
    .keyword ["fin"] .end_,
    .keyword ["entonces"] .then_,
    .keyword ["mientras"] .while_,
    .keyword ["hacer"] .do_,
    .keyword ["repetir"] .repeat_,
    .keyword ["veces"] .times,
    .keyword ["precede"] .pred,
    .keyword ["sucede"] .succ,
    .keyword ["si-es-cero"] .isZero]
  ++ Sensor.all.map (fun s => .sensor (sensorSpellings s) s)
  ++ [.keyword ["si-no", "sino"] .else_,
    .keyword ["si"] .if_,
    .keyword ["no"] .not_,
    .keyword ["o", "u"] .or_,
    .keyword ["y", "e"] .and_]

/-- Comments in braces, and comments in starred parentheses. -/
def comments : List Entry :=
  [.comment (.enclosed "\x7b" "\x7d") .lineComment,
    .comment (.enclosed "(*" "*)") .blockComment]

/-- Punctuation. -/
def signs : List Entry :=
  [.sign ["("] .leftParen,
    .sign [")"] .rightParen,
    .sign [";"] .semicolon]

/-- The lexicon of the worded dialect.  Its last entry takes any character. -/
def lexicon : Lexicon where
  entries :=
    [.skip .blanks] ++ keywords
      ++ [.emit .digits .integerLiteral, .emit .name .identifier] ++ comments ++ signs
      ++ [.skip .anyChar]
  names :=
    { start := fun c => Text.isLatinLetter c || c == '_'
      continue_ := fun c => Text.isLatinLetter c || Text.isDigit c || c == '_' || c == '-' }
  label := label

end RobotLang.Worded
