/-
  RobotLang.Json
  ──────────────
  **JSON VALUES.**

  Integers from −2^63 to 2^64 − 1 are held exactly; any other number is
  `real` and only known to be a number.  The fields of an object stand in the
  order of their names.  `Json.render` writes a value without blanks.
-/
import RobotLang.Text

namespace RobotLang

/-- A JSON value. -/
inductive Json where
  | null
  | bool (b : Bool)
  /-- An integer from −2^63 to 2^64 − 1. -/
  | int (n : Int)
  /-- Any other number, as it is written. -/
  | real (text : String)
  | str (s : String)
  | arr (elements : List Json)
  | obj (fields : List (String × Json))

namespace Json

/-- How a character stands in a JSON string. -/
def escapedChar (c : Char) : List Char :=
  if c = '"' then ['\\', '"']
  else if c = '\\' then ['\\', '\\']
  else if c = '\x08' then ['\\', 'b']
  else if c = '\x0c' then ['\\', 'f']
  else if c = '\n' then ['\\', 'n']
  else if c = '\r' then ['\\', 'r']
  else if c = '\t' then ['\\', 't']
  else if c.toNat < 0x20 then
    ['\\', 'u'] ++ (Text.alignRight 4 '0' (String.ofList (Nat.toDigits 16 c.toNat))).toList
  else [c]

/-- A JSON string. -/
def renderString (s : String) : String :=
  String.ofList ('"' :: s.toList.flatMap escapedChar ++ ['"'])

mutual

/-- The value without blanks. -/
def render : Json → String
  | .null => "null"
  | .bool b => if b then "true" else "false"
  | .int n => toString n
  | .real text => text
  | .str s => renderString s
  | .arr elements => "[" ++ ",".intercalate (renderList elements) ++ "]"
  | .obj fields => "\x7b" ++ ",".intercalate (renderFields fields) ++ "\x7d"

/-- The elements of an array. -/
def renderList : List Json → List String
  | [] => []
  | v :: vs => render v :: renderList vs

/-- The fields of an object. -/
def renderFields : List (String × Json) → List String
  | [] => []
  | (name, v) :: fields => (renderString name ++ ":" ++ render v) :: renderFields fields

end

end Json
end RobotLang
