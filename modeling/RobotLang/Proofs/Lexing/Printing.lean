/-
  RobotLang.Proofs.Lexing.Printing
  ────────────────────────────────
  **TOKENS CAN BE PRINTED WITH BLANKS BETWEEN THEM.**

  Printed tokens are cut apart again if nothing that is not a token gets in the
  way.  Comments could: `(` is a token, and `(*` starts a comment.  But what
  starts a comment has a character in it that no token has (`Foreign`), so a
  token and a blank never look like one:

      t ∈ lexicon.bodyTokens source  →  lexicon.Stands t.kind t.image.toList

  With tokens that stand on their own, the tokens of the printed text are those
  that were printed (`Lexicon.tokenize_intercalate`).
-/
import RobotLang.Proofs.Lexing.Spacing

namespace RobotLang

/-! ## §1. The texts of tokens. -/

variable {lexicon : Lexicon} {c : Char}

theorem take_length_takeWhile {α : Type} (p : α → Bool) (as : List α) :
    as.take (as.takeWhile p).length = as.takeWhile p :=
  (List.prefix_iff_eq_take.mp (List.takeWhile_prefix p)).symm

/-- What the pattern takes has the property, if names have it. -/
def Pattern.Yields (P : List Char → Prop) : Pattern → Prop
  | .words spellings => ∀ w ∈ spellings, P w.toList
  | .digits => ∀ text ≠ [], (∀ c ∈ text, Text.isDigit c = true) → P text
  | .name => True
  | .blanks | .toLineEnd _ | .enclosed _ _ | .anyChar => False

/-- The texts of all tokens have the property: the words, the numbers and the names. -/
structure Lexicon.Yields (lexicon : Lexicon) (P : List Char → Prop) : Prop where
  entries : ∀ entry ∈ lexicon.entries, ∀ kind, entry.action = .emit kind → entry.pattern.Yields P
  names : ∀ text ≠ [], (∀ c ∈ text,
    (lexicon.names.start c || lexicon.names.continue_ c) = true) → P text

/-- A name is made of the characters that names are made of. -/
theorem NameShape.forall_mem_take {names : NameShape} (cs : List Char) :
    ∀ c ∈ cs.take (names.length cs), (names.start c || names.continue_ c) = true := by
  cases cs with
  | nil => simp
  | cons d cs =>
    by_cases hstart : names.start d = true
    · rw [NameShape.length, if_pos hstart, Nat.add_comm, List.take_succ_cons,
        take_length_takeWhile, List.forall_mem_cons]
      refine ⟨by rw [hstart, Bool.true_or], fun c hc => ?_⟩
      rw [List.all_eq_true.mp List.all_takeWhile c hc, Bool.or_true]
    · simp [NameShape.length, hstart]

section Yields

variable {P : List Char → Prop} {cs : List Char} {n : Nat}

theorem Lexicon.Yields.of_match (h : lexicon.Yields P) {pattern : Pattern}
    (hp : pattern.Yields P) (hne : cs.take n ≠ [])
    (hn : pattern.rawLength lexicon.names cs = some n) : P (cs.take n) := by
  cases pattern with
  | words spellings =>
    obtain ⟨w, hw, rfl⟩ := Option.map_eq_some_iff.mp hn
    have hprefix : w.toList <+: cs :=
      List.isPrefixOf_iff_prefix.mp (by simpa using List.find?_some hw)
    rw [← String.length_toList, ← List.prefix_iff_eq_take.mp hprefix]
    exact hp w (List.mem_of_find?_eq_some hw)
  | digits =>
    obtain rfl := Option.some.inj hn
    refine hp _ hne ?_
    rw [take_length_takeWhile]
    exact List.all_eq_true.mp List.all_takeWhile
  | name =>
    obtain rfl := Option.some.inj hn
    exact h.names _ hne (NameShape.forall_mem_take cs)
  | blanks | toLineEnd | enclosed | anyChar => exact absurd hp id

/-- The text of a token is a word, a number or a name. -/
theorem Lexicon.Yields.of_next (h : lexicon.Yields P) {kind : Kind}
    (hnext : lexicon.next cs = some (.emit kind, n)) : P (cs.take n) := by
  have hne : cs.take n ≠ [] := by
    have hpos := next_pos hnext
    rw [← List.length_pos_iff, List.length_take]
    omega
  obtain ⟨entry, hmem, happly⟩ := List.exists_of_findSome?_eq_some hnext
  obtain ⟨m, hmatch, hm⟩ := Option.map_eq_some_iff.mp happly
  split at hm
  · -- a longer name won
    obtain ⟨-, rfl⟩ := Prod.mk.inj hm
    exact h.names _ hne (NameShape.forall_mem_take cs)
  · obtain ⟨haction, rfl⟩ := Prod.mk.inj hm
    exact h.of_match (h.entries entry hmem kind haction) hne
      (Option.filter_eq_some_iff.mp hmatch).1

theorem Lexicon.Yields.of_mem (h : lexicon.Yields P) {source : String} {t : Token}
    (ht : t ∈ lexicon.bodyTokens source) : P t.image.toList := by
  obtain ⟨_, text, after, kind, _, hnext, rfl⟩ := Lexicon.exists_lexeme_of_mem_bodyTokens ht
  have hP := h.of_next hnext
  rw [List.take_left] at hP
  show P (String.ofList text).toList
  rwa [String.toList_ofList]

end Yields

/-! ## §2. Characters that are in no token. -/

/-- The pattern takes no text with that character. -/
def Pattern.avoids (c : Char) : Pattern → Bool
  | .words spellings => spellings.all fun w => !w.toList.contains c
  | .digits => !Text.isDigit c
  | .name => true
  | .blanks | .toLineEnd _ | .enclosed _ _ | .anyChar => false

/-- The entry makes no token with that character. -/
def Entry.avoids (c : Char) (entry : Entry) : Bool :=
  match entry.action with
  | .emit _ => entry.pattern.avoids c
  | .skip | .comment _ => true

/-- No token has the character. -/
structure Lexicon.Foreign (lexicon : Lexicon) (c : Char) : Prop where
  entries : lexicon.entries.all (·.avoids c) = true
  start : lexicon.names.start c = false
  continue_ : lexicon.names.continue_ c = false

/-- What makes no word, no number and no name with a character makes no token with it.  Tokens are
spellings, digits or names, and none of these has the character in it. -/
theorem Lexicon.Foreign.yields (hc : lexicon.Foreign c) : lexicon.Yields (c ∉ ·) where
  entries entry hmem kind haction := by
    have havoids := List.all_eq_true.mp hc.entries entry hmem
    rw [Entry.avoids, haction] at havoids
    dsimp only at havoids
    cases hpattern : entry.pattern with
    | words spellings =>
      rw [hpattern] at havoids
      intro w hw
      simpa using List.all_eq_true.mp havoids w hw
    | digits =>
      rw [hpattern] at havoids
      intro text _ hdigits hmem
      simp [Pattern.avoids, hdigits c hmem] at havoids
    | name => trivial
    | blanks | toLineEnd | enclosed | anyChar =>
      rw [hpattern] at havoids
      exact absurd havoids (by simp [Pattern.avoids])
  names text _ hnames hmem := by
    have hname := hnames c hmem
    rw [hc.start, hc.continue_] at hname
    exact absurd hname (by decide)

theorem Lexicon.Foreign.not_mem_image (hc : lexicon.Foreign c) {source : String} {t : Token}
    (ht : t ∈ lexicon.bodyTokens source) : c ∉ t.image.toList :=
  hc.yields.of_mem ht

/-! ## §3. Tokens that stand on their own. -/

/-- The pattern takes nothing that starts with a token and a blank, unless it takes everything. -/
def Pattern.StartsForeign (lexicon : Lexicon) : Pattern → Prop
  | .enclosed opening _ => ' ' ∉ opening.toList ∧ ∃ c ∈ opening.toList, lexicon.Foreign c
  | .anyChar => True
  | .blanks | .words _ | .name | .digits | .toLineEnd _ => False

/-- The entry makes no tokens and does not get in their way. -/
structure Entry.Aside (lexicon : Lexicon) (entry : Entry) : Prop where
  silent : ∀ kind, entry.action ≠ .emit kind
  plain : entry.yieldsToName = false
  foreign : entry.pattern.StartsForeign lexicon

/-- A table that skips blanks, and whose other entries stop at a blank or make no tokens. -/
structure Lexicon.Prints (lexicon : Lexicon) : Prop where
  blanks : lexicon.SkipsBlanks
  entries : ∀ entry ∈ lexicon.entries, entry.pattern.StopsAtBlank ∨ entry.Aside lexicon
  names : lexicon.names.continue_ ' ' = false

section Printing

variable {text after after' : List Char} {entry : Entry}

theorem Entry.Aside.not_token (h : entry.Aside lexicon) {cs : List Char} {kind : Kind} {n : Nat} :
    entry.apply lexicon.names cs ≠ some (.emit kind, n) := by
  intro happly
  obtain ⟨m, -, hm⟩ := Option.map_eq_some_iff.mp happly
  rw [h.plain, Bool.false_and, if_neg (by decide)] at hm
  exact h.silent kind (Prod.mk.inj hm).1

/-- What does not apply to a token does not apply to it before a blank.  These entries take
comments, whose opening has a character that no token has, or any character at all, and then they
would have applied. -/
theorem Entry.Aside.apply_of_spaced (h : entry.Aside lexicon)
    (htext : text ≠ []) (hforeign : ∀ c, lexicon.Foreign c → c ∉ text) (hafter : Spaced after')
    (hnone : entry.apply lexicon.names (text ++ after) = none) :
    entry.apply lexicon.names (text ++ after') = none := by
  have hstarts := h.foreign
  obtain ⟨pattern, action, yields⟩ := entry
  cases pattern with
  | enclosed opening closing =>
    -- the opening has a character that the text has not
    obtain ⟨hblank, c, hc, hcforeign⟩ := hstarts
    have hnot : opening.toList.isPrefixOf (text ++ after') = false := by
      rw [isPrefixOf_append_of_spaced hblank hafter, Bool.eq_false_iff]
      intro hprefix
      exact hforeign c hcforeign ((List.isPrefixOf_iff_prefix.mp hprefix).subset hc)
    simp [Entry.apply, Pattern.matchLength, Pattern.rawLength, hnot]
  | anyChar =>
    -- there is a character to take
    cases text with
    | nil => exact absurd rfl htext
    | cons c text =>
      simp [Entry.apply, Pattern.matchLength, Pattern.rawLength, Option.filter] at hnone
  | blanks | words | name | digits | toLineEnd => exact absurd hstarts id

/-- Of entries that stop at blanks or make no tokens, the one that takes a text takes it before a
blank too. -/
theorem findSome?_apply_of_prints {entries : List Entry} {kind : Kind}
    (hentries : ∀ entry ∈ entries, entry.pattern.StopsAtBlank ∨ entry.Aside lexicon)
    (hnames : lexicon.names.continue_ ' ' = false)
    (htext : ∃ c ∈ text, Text.isBlank c = false)
    (hforeign : ∀ c, lexicon.Foreign c → c ∉ text) (hafter : Spaced after')
    (h : entries.findSome? (·.apply lexicon.names (text ++ after))
      = some (.emit kind, text.length)) :
    entries.findSome? (·.apply lexicon.names (text ++ after'))
      = some (.emit kind, text.length) := by
  have hne : text ≠ [] := by
    obtain ⟨c, hc, -⟩ := htext
    exact List.ne_nil_of_mem hc
  induction entries with
  | nil => exact absurd h (by simp)
  | cons entry entries ih =>
    rw [List.forall_mem_cons] at hentries
    rw [List.findSome?_cons] at h ⊢
    split at h
    · next answer hanswer =>
      -- the entry that took it: one that makes no tokens cannot be it
      obtain rfl := Option.some.inj h
      rcases hentries.1 with hstops | haside
      · rw [Entry.apply_of_spaced hnames htext hafter hstops hanswer]
      · exact absurd hanswer haside.not_token
    · next hnone =>
      -- an entry before it, which must not take the text now either
      have hnone' : entry.apply lexicon.names (text ++ after') = none := by
        rcases hentries.1 with hstops | haside
        · exact Entry.apply_of_spaced_of_none hnames htext hafter hstops hnone
        · exact haside.apply_of_spaced hne hforeign hafter hnone
      rw [hnone']
      exact ih hentries.2 h

end Printing

/-- A text that is a token somewhere stands on its own. -/
theorem Lexicon.Prints.stands_of_next (h : lexicon.Prints) {kind : Kind} {text after : List Char}
    (hnext : lexicon.next (text ++ after) = some (.emit kind, text.length)) :
    lexicon.Stands kind text := by
  intro after' hafter
  have htext : ∃ c ∈ text, Text.isBlank c = false := by
    cases text with
    | nil => exact absurd (next_pos hnext).1 (by simp)
    | cons c text => exact ⟨c, List.mem_cons_self, isBlank_head_of_next h.blanks hnext⟩
  refine findSome?_apply_of_prints h.entries h.names htext ?_ hafter hnext
  intro c hc
  have hnot := hc.yields.of_next hnext
  rwa [List.take_left] at hnot

theorem Lexicon.Prints.stands_of_mem (h : lexicon.Prints) {source : String} {t : Token}
    (ht : t ∈ lexicon.bodyTokens source) : lexicon.Stands t.kind t.image.toList := by
  obtain ⟨_, text, _, kind, _, hnext, rfl⟩ := Lexicon.exists_lexeme_of_mem_bodyTokens ht
  show lexicon.Stands kind (String.ofList text).toList
  rw [String.toList_ofList]
  exact h.stands_of_next hnext

end RobotLang
