/-
  RobotLang.Position
  ──────────────────
  **PLACES IN A SOURCE TEXT.**

  A place is known by its line and column, both counted from 1, and by its
  offset, counted from 0.  All three count characters.  Reading a character
  moves one place on, and a newline starts the next line:

      (p.after c).offset = p.offset + 1
      (p.advance cs).offset = p.offset + cs.length

  Positions are never computed in any other way, so a token's line, column
  and offset always speak of the same character.
-/

namespace RobotLang

/-- A place between two characters of a source text. -/
structure Position where
  /-- Line, from 1. -/
  line : Nat
  /-- Column, from 1. -/
  column : Nat
  /-- Number of characters before this place. -/
  offset : Nat
  deriving DecidableEq, Repr

namespace Position

/-- The place before the first character. -/
def start : Position := ⟨1, 1, 0⟩

/-- The place after reading `c`. -/
def after (p : Position) (c : Char) : Position :=
  if c = '\n' then ⟨p.line + 1, 1, p.offset + 1⟩
  else ⟨p.line, p.column + 1, p.offset + 1⟩

/-- The place after reading all of `text`. -/
def advance (p : Position) (text : List Char) : Position :=
  text.foldl after p

/-! ## §1. Reading in parts. -/

@[simp] theorem after_offset (p : Position) (c : Char) :
    (p.after c).offset = p.offset + 1 := by
  unfold after; split <;> rfl

@[simp] theorem advance_nil (p : Position) : p.advance [] = p := rfl

@[simp] theorem advance_cons (p : Position) (c : Char) (text : List Char) :
    p.advance (c :: text) = (p.after c).advance text := rfl

/-- Text in two parts is passed part by part. -/
@[simp] theorem advance_append (p : Position) (a b : List Char) :
    p.advance (a ++ b) = (p.advance a).advance b := by
  simp [advance]

/-- Each character passed is one place, whatever it does to line and column. -/
@[simp] theorem advance_offset (p : Position) (text : List Char) :
    (p.advance text).offset = p.offset + text.length := by
  induction text generalizing p with
  | nil => rfl
  | cons c text ih => simp [ih]; omega

end Position
end RobotLang
