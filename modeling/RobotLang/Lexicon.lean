/-
  RobotLang.Lexicon
  ─────────────────
  **LEXICAL TABLES.**

  A lexicon is an ordered table of entries.  At each place of the source the
  first entry whose pattern matches wins; the one exception is an entry that
  yields to names: when a name matches strictly more text, the name wins, so
  that `moveAhead` is one name and not `move` followed by `Ahead`.

  A pattern answers with the length of the text it takes.  No answer is ever
  zero and none exceeds the text (`Pattern.matchLength_pos`,
  `Pattern.matchLength_le`), so a table always makes progress.
-/
import RobotLang.Text
import RobotLang.Token

namespace RobotLang

/-! ## §1. Patterns. -/

/-- Which characters a name starts with and goes on with. -/
structure NameShape where
  start : Char → Bool
  continue_ : Char → Bool

/-- The length of the name at the head of `cs`; zero when there is none. -/
def NameShape.length (shape : NameShape) : List Char → Nat
  | [] => 0
  | c :: cs => if shape.start c then 1 + (cs.takeWhile shape.continue_).length else 0

/-- The shape of text that a lexical entry takes. -/
inductive Pattern where
  /-- A run of blanks. -/
  | blanks
  /-- The first listed spelling that the text starts with. -/
  | words (spellings : List String)
  /-- A name of the lexicon's shape. -/
  | name
  /-- A run of decimal digits. -/
  | digits
  /-- `opening`, then everything before the next newline. -/
  | toLineEnd (opening : String)
  /-- `opening`, then everything up to and with the first `closing`. -/
  | enclosed (opening closing : String)
  /-- Any one character. -/
  | anyChar
  deriving DecidableEq, Repr

namespace Pattern

/-- How many characters of `cs` stand before the end of the first `closing`
that starts before the end of the text. -/
def throughClosing (closing : List Char) : List Char → Option Nat
  | [] => none
  | c :: cs =>
    if closing.isPrefixOf (c :: cs) then some closing.length
    else (throughClosing closing cs).map (· + 1)

/-- The length of the text the pattern takes at the head of `cs`, where an
answer of zero means no match. -/
def rawLength (shape : NameShape) (cs : List Char) : Pattern → Option Nat
  | .blanks => some (cs.takeWhile Text.isBlank).length
  | .words spellings =>
    (spellings.find? fun w => w.toList.isPrefixOf cs).map (·.length)
  | .name => some (shape.length cs)
  | .digits => some (cs.takeWhile Text.isDigit).length
  | .toLineEnd opening =>
    if opening.toList.isPrefixOf cs then
      some (opening.length + ((cs.drop opening.length).takeWhile (· != '\n')).length)
    else none
  | .enclosed opening closing =>
    if opening.toList.isPrefixOf cs then
      (throughClosing closing.toList (cs.drop opening.length)).map (opening.length + ·)
    else none
  | .anyChar => some (cs.take 1).length

/-- The length of the text the pattern takes at the head of `cs`. -/
def matchLength (shape : NameShape) (pattern : Pattern) (cs : List Char) : Option Nat :=
  (pattern.rawLength shape cs).filter (0 < ·)

end Pattern

/-! ## §2. Entries and lexicons. -/

/-- What becomes of the text that an entry takes. -/
inductive Action where
  /-- It is dropped. -/
  | skip
  /-- It is a token. -/
  | emit (kind : Kind)
  /-- It is a comment. -/
  | comment (kind : Kind)
  deriving DecidableEq, Repr

/-- One line of a lexical table. -/
structure Entry where
  pattern : Pattern
  action : Action
  /-- Whether a strictly longer name wins over this entry. -/
  yieldsToName : Bool := false
  deriving DecidableEq, Repr

namespace Entry

/-- A word that is a keyword unless a longer name stands there. -/
def keyword (spellings : List String) (kind : Kind) : Entry :=
  ⟨.words spellings, .emit kind, true⟩

/-- The word for a sensor. -/
def sensor (spellings : List String) (sensor : Sensor) : Entry :=
  keyword spellings (.sensor sensor)

/-- A sign made of other characters than names are. -/
def sign (spellings : List String) (kind : Kind) : Entry :=
  ⟨.words spellings, .emit kind, false⟩

def emit (pattern : Pattern) (kind : Kind) : Entry :=
  ⟨pattern, .emit kind, false⟩

def comment (pattern : Pattern) (kind : Kind) : Entry :=
  ⟨pattern, .comment kind, false⟩

def skip (pattern : Pattern) : Entry :=
  ⟨pattern, .skip, false⟩

/-- What the entry makes of the head of `cs`, and of how much of it. -/
def apply (shape : NameShape) (entry : Entry) (cs : List Char) : Option (Action × Nat) :=
  (entry.pattern.matchLength shape cs).map fun n =>
    if entry.yieldsToName && n < shape.length cs then (.emit .identifier, shape.length cs)
    else (entry.action, n)

end Entry

/-- The lexical side of a dialect. -/
structure Lexicon where
  entries : List Entry
  names : NameShape
  /-- How a kind is called in lists of expected words. -/
  label : Kind → String

/-- The first entry that applies at the head of `cs`. -/
def Lexicon.next (lexicon : Lexicon) (cs : List Char) : Option (Action × Nat) :=
  lexicon.entries.findSome? fun entry => entry.apply lexicon.names cs

/-! ## §3. Progress. -/

/-- A name is no longer than the text it starts. -/
theorem NameShape.length_le (shape : NameShape) (cs : List Char) :
    shape.length cs ≤ cs.length := by
  cases cs with
  | nil => simp [NameShape.length]
  | cons c cs =>
    have := List.Sublist.length_le (List.takeWhile_sublist (l := cs) shape.continue_)
    simp only [NameShape.length, List.length_cons]
    split <;> omega

namespace Pattern

theorem length_le_of_isPrefixOf {w : String} {cs : List Char}
    (h : w.toList.isPrefixOf cs = true) : w.length ≤ cs.length := by
  rw [← String.length_toList]
  exact (List.isPrefixOf_iff_prefix.mp h).length_le

/-- A closing that was found stands inside the text. -/
theorem throughClosing_le {closing cs : List Char} {n : Nat}
    (h : throughClosing closing cs = some n) : n ≤ cs.length := by
  induction cs generalizing n with
  | nil => simp [throughClosing] at h
  | cons c cs ih =>
    rw [throughClosing] at h
    split at h
    · next hp =>
      simp only [Option.some.injEq] at h
      subst h
      exact (List.isPrefixOf_iff_prefix.mp hp).length_le
    · obtain ⟨m, hm, rfl⟩ := Option.map_eq_some_iff.mp h
      have := ih hm
      simp only [List.length_cons]
      omega

/-- A match takes at least one character. -/
theorem matchLength_pos {shape : NameShape} {pattern : Pattern} {cs : List Char} {n : Nat}
    (h : pattern.matchLength shape cs = some n) : 0 < n := by
  simpa using (Option.filter_eq_some_iff.mp h).2

/-- A match stays inside the text.  Each pattern counts characters of the text, or those of a
spelling or an opening that the text starts with. -/
theorem matchLength_le {shape : NameShape} {pattern : Pattern} {cs : List Char} {n : Nat}
    (h : pattern.matchLength shape cs = some n) : n ≤ cs.length := by
  have h := (Option.filter_eq_some_iff.mp h).1
  cases pattern with
  | blanks =>
    simp only [rawLength, Option.some.injEq] at h
    exact h ▸ (List.takeWhile_sublist _).length_le
  | words spellings =>
    obtain ⟨w, hw, rfl⟩ := Option.map_eq_some_iff.mp h
    exact length_le_of_isPrefixOf (by simpa using List.find?_some hw)
  | name =>
    simp only [rawLength, Option.some.injEq] at h
    exact h ▸ shape.length_le cs
  | digits =>
    simp only [rawLength, Option.some.injEq] at h
    exact h ▸ (List.takeWhile_sublist _).length_le
  | toLineEnd opening =>
    simp only [rawLength] at h
    split at h
    · next hp =>
      have ho := length_le_of_isPrefixOf hp
      have ht := (List.takeWhile_sublist (l := cs.drop opening.length) (· != '\n')).length_le
      simp only [Option.some.injEq, List.length_drop] at h ht
      omega
    · simp at h
  | enclosed opening closing =>
    simp only [rawLength] at h
    split at h
    · next hp =>
      have ho := length_le_of_isPrefixOf hp
      obtain ⟨m, hm, rfl⟩ := Option.map_eq_some_iff.mp h
      have := throughClosing_le hm
      simp only [List.length_drop] at this
      omega
    · simp at h
  | anyChar =>
    simp only [rawLength, Option.some.injEq, List.length_take] at h
    omega

end Pattern

/-- An entry that applies takes at least one character and no more than there are. -/
theorem Entry.apply_pos {shape : NameShape} {entry : Entry} {cs : List Char} {a : Action} {n : Nat}
    (h : entry.apply shape cs = some (a, n)) : 0 < n ∧ n ≤ cs.length := by
  obtain ⟨m, hm, he⟩ := Option.map_eq_some_iff.mp h
  have hpos := Pattern.matchLength_pos hm
  have hle := Pattern.matchLength_le hm
  split at he <;> simp only [Prod.mk.injEq] at he
  · next hy =>
    have := shape.length_le cs
    simp only [Bool.and_eq_true, decide_eq_true_eq] at hy
    omega
  · omega

/-- Whatever entry applies, it takes at least one character and no more than
there are. -/
theorem Lexicon.next_pos {lexicon : Lexicon} {cs : List Char} {a : Action} {n : Nat}
    (h : lexicon.next cs = some (a, n)) : 0 < n ∧ n ≤ cs.length := by
  obtain ⟨_, _, he⟩ := List.exists_of_findSome?_eq_some h
  exact Entry.apply_pos he

end RobotLang
