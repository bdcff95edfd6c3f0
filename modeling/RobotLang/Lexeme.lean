/-
  RobotLang.Lexeme
  ────────────────
  **CUTTING A SOURCE TEXT INTO LEXEMES.**

  A lexicon cuts a source into consecutive lexemes: pieces that an entry
  takes, and single stray characters that none takes.  Nothing is lost and
  nothing is made up,

      (lexicon.cut source).flatMap Lexeme.text = source

  and each lexeme knows where it starts.  Tokens and comments are the
  lexemes of the corresponding entries; adjacent strays are reported
  together, as one run.

  The cut walks the text one character at a time and carries how many
  characters the current lexeme still covers, so it needs no bound.
-/
import RobotLang.Diagnostic
import RobotLang.Lexicon
import RobotLang.Position

namespace RobotLang

/-! ## §1. Lexemes. -/

/-- A piece of source text. -/
structure Lexeme where
  /-- What the entry that took it says; `none` of a stray character. -/
  action : Option Action
  text : List Char
  /-- The place of the first character. -/
  start : Position
  deriving DecidableEq, Repr

namespace Lexeme

/-- No entry takes it. -/
def isStray (l : Lexeme) : Bool :=
  l.action.isNone

/-- The lexeme as a token of `kind`.  Its last line is that of its last
character; a newline belongs to the line it ends. -/
def toToken (l : Lexeme) (kind : Kind) : Token where
  kind := kind
  image := String.ofList l.text
  line := l.start.line
  column := l.start.column
  endLine := (l.start.advance l.text.dropLast).line
  offset := l.start.offset
  endOffset := l.start.offset + l.text.length - 1
  inserted := false

/-- The token that the lexeme stands for, if it is one. -/
def token? (l : Lexeme) : Option Token :=
  match l.action with
  | some (.emit kind) => some (l.toToken kind)
  | _ => none

/-- The comment that the lexeme stands for, if it is one. -/
def comment? (l : Lexeme) : Option Token :=
  match l.action with
  | some (.comment kind) => some (l.toToken kind)
  | _ => none

/-- The runs of adjacent strays, each with its place and its whole text.  A
run starts at a stray that no stray stands before. -/
def strayRuns (afterStray : Bool) : List Lexeme → List (Position × List Char)
  | [] => []
  | l :: ls =>
    if l.isStray then
      if afterStray then strayRuns true ls
      else (l.start, ((l :: ls).takeWhile isStray).flatMap text) :: strayRuns true ls
    else strayRuns false ls

end Lexeme

/-! ## §2. The cut. -/

/-- The source after the lexicon has gone over it. -/
structure Lexed where
  /-- The tokens; the last one is the end of input. -/
  tokens : List Token
  comments : List Token
  /-- One diagnostic per run of strays. -/
  errors : List Diagnostic
  deriving DecidableEq, Repr

namespace Lexicon

/-- The lexemes of `cs` that start after its first `covered` characters, where
`cs` stands at place `p`. -/
def cutFrom (lexicon : Lexicon) : (covered : Nat) → Position → List Char → List Lexeme
  | _, _, [] => []
  | covered + 1, p, c :: cs => cutFrom lexicon covered (p.after c) cs
  | 0, p, c :: cs =>
    match lexicon.next (c :: cs) with
    | some (action, n) =>
      ⟨some action, (c :: cs).take n, p⟩ :: cutFrom lexicon (n - 1) (p.after c) cs
    | none => ⟨none, [c], p⟩ :: cutFrom lexicon 0 (p.after c) cs

/-- The lexemes of a source text. -/
def cut (lexicon : Lexicon) (cs : List Char) : List Lexeme :=
  lexicon.cutFrom 0 .start cs

/-- The end of input of a source text. -/
def endOfText (cs : List Char) : Token :=
  let finish := Position.start.advance cs
  .endOfInput finish.line finish.column finish.offset

/-- The tokens, the comments and the stray runs of a source text. -/
def scan (lexicon : Lexicon) (cs : List Char) : Lexed :=
  let lexemes := lexicon.cut cs
  { tokens := lexemes.filterMap Lexeme.token? ++ [endOfText cs]
    comments := lexemes.filterMap Lexeme.comment?
    errors := (Lexeme.strayRuns false lexemes).map fun (place, text) =>
      .unrecognised (String.ofList text) place.line place.column }

/-- `scan` of a string. -/
def tokenize (lexicon : Lexicon) (source : String) : Lexed :=
  lexicon.scan source.toList

/-! ## §3. The cut loses nothing. -/

/-- Characters that are covered already are passed over, so the cut goes on behind them as from
anywhere. -/
theorem cutFrom_eq_cutFrom_zero (lexicon : Lexicon) (covered : Nat) (p : Position)
    (cs : List Char) :
    lexicon.cutFrom covered p cs
      = lexicon.cutFrom 0 (p.advance (cs.take covered)) (cs.drop covered) := by
  induction covered generalizing p cs with
  | zero => simp
  | succ covered ih =>
    cases cs with
    | nil => simp [cutFrom]
    | cons c cs => simpa [cutFrom] using ih (p.after c) cs

/-- A lexeme that an entry takes is followed by the cut of the rest. -/
theorem cutFrom_of_next {lexicon : Lexicon} {p : Position} {cs : List Char} {action : Action}
    {n : Nat} (h : lexicon.next cs = some (action, n)) :
    lexicon.cutFrom 0 p cs
      = ⟨some action, cs.take n, p⟩ :: lexicon.cutFrom 0 (p.advance (cs.take n)) (cs.drop n) := by
  obtain ⟨hpos, hle⟩ := next_pos h
  cases cs with
  | nil => simp at hle; omega
  | cons c cs =>
    obtain ⟨m, rfl⟩ : ∃ m, n = m + 1 := ⟨n - 1, by omega⟩
    rw [cutFrom, h]
    simp only [Nat.add_sub_cancel, List.take_succ_cons, List.drop_succ_cons, Position.advance_cons]
    rw [cutFrom_eq_cutFrom_zero]

/-- Put together, the lexemes are the text. -/
theorem flatMap_text_cutFrom (lexicon : Lexicon) (covered : Nat) (p : Position)
    (cs : List Char) :
    (lexicon.cutFrom covered p cs).flatMap Lexeme.text = cs.drop covered := by
  induction cs generalizing covered p with
  | nil => simp [cutFrom]
  | cons c cs ih =>
    cases covered with
    | succ covered => simp [cutFrom, ih]
    | zero =>
      rw [cutFrom]
      split
      · next action n h =>
        obtain ⟨hpos, hle⟩ := next_pos h
        obtain ⟨m, rfl⟩ : ∃ m, n = m + 1 := ⟨n - 1, by omega⟩
        simp [ih]
      · simp [ih]

/-- **The lexemes of a text are the text**, character by character: nothing is lost and nothing
repeated. -/
theorem flatMap_text_cut (lexicon : Lexicon) (cs : List Char) :
    (lexicon.cut cs).flatMap Lexeme.text = cs := by
  simp [cut, flatMap_text_cutFrom]

end Lexicon
end RobotLang
