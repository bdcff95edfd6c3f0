/-
  RobotLang.TokenDump
  ───────────────────
  **TOKENS AND COMMENTS, ONE ON A LINE.**

  The dump shows tokens and comments in source order, each with its place and
  its category.  It may be coloured for a terminal, and it may show the text
  alone or the kind as well.
-/
import RobotLang.Text
import RobotLang.Token

namespace RobotLang.TokenDump

/-- What a dump looks like. -/
structure Style where
  /-- Whether categories are coloured. -/
  color : Bool := true
  /-- Whether the text is shown as it is, without the kind. -/
  pretty : Bool := false
  deriving DecidableEq, Repr

/-- The category of a kind. -/
def category : Kind → String
  | .lineComment | .blockComment => "COMMENT"
  | .eof => "EOF"
  | .integerLiteral => "INT"
  | .identifier => "IDENT"
  | .sensor _ => "SENSOR"
  | .not_ | .and_ | .or_ => "OP"
  | .leftParen | .rightParen | .leftBrace | .rightBrace | .semicolon => "PUNCT"
  | _ => "KEYWORD"

/-- The terminal sequence for a display attribute. -/
def escape (code : String) : String :=
  "\x1b[" ++ code ++ "m"

/-- The terminal sequence that ends all attributes. -/
def reset : String :=
  escape "0"

/-- The terminal sequence for a kind: dim, cyan, yellow, magenta or plain. -/
def colorOf : Kind → String
  | .lineComment | .blockComment | .eof => escape "2"
  | .integerLiteral => escape "36"
  | .identifier => escape "33"
  | .sensor _ | .not_ | .and_ | .or_ => escape "35"
  | _ => reset

/-- What the dump shows of a token besides its place and category. -/
def describe (style : Style) (t : Token) : String :=
  if style.pretty then
    if t.kind = .eof then "<eof>" else t.image
  else t.kind.name ++ " " ++ Text.quoted t.image

/-- One token. -/
def line (style : Style) (t : Token) : String :=
  "[" ++ Text.zeroPadded 2 t.line ++ ":" ++ Text.zeroPadded 2 t.column ++ "] "
    ++ (if style.color then colorOf t.kind else "")
    ++ Text.alignLeft 8 (category t.kind) ++ " " ++ describe style t
    ++ (if style.color then reset else "") ++ "\n"

/-- The order of a dump: by offset, and the end of input after all else. -/
def before (a b : Token) : Bool :=
  a.offset < b.offset
    || (a.offset == b.offset && (a.kind != .eof || b.kind == .eof))

/-- Tokens and comments in source order, one on a line. -/
def dump (style : Style) (tokens comments : List Token) : String :=
  String.join (((tokens ++ comments).mergeSort before).map (line style))

end RobotLang.TokenDump
