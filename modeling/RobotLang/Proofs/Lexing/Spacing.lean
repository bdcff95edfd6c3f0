/-
  RobotLang.Proofs.Lexing.Spacing
  ───────────────────────────────
  **WORDS WITH BLANKS BETWEEN THEM ARE CUT WHERE THE BLANKS ARE.**

  What a table makes of a text depends on what follows it: `if` is a keyword
  and the head of the name `iffy`.  Words, names and digits look no further
  than the first blank, so a text that was taken as a token somewhere is taken
  as the same token wherever a blank or the end follows (`stands_of_next`).

  Texts that stand on their own in this way can be written one after the
  other with blanks between them.  The tokens of such a source are these
  texts, and nothing in it is stray (`tokenize_spaced`).
-/
import RobotLang.Proofs.Lexing.Token

namespace RobotLang

/-! ## §1. Patterns up to a blank. -/

/-- A blank follows, or nothing. -/
def Spaced (after : List Char) : Prop :=
  ∀ c ∈ after.head?, c = ' '

/-- What is taken while a condition holds stays in the text when not more of it
is taken. -/
theorem takeWhile_append_of_length_le {p : Char → Bool} {text after : List Char}
    (h : ((text ++ after).takeWhile p).length ≤ text.length) :
    (text ++ after).takeWhile p = text.takeWhile p := by
  rw [List.takeWhile_append] at h ⊢
  split
  · next hall =>
    rw [if_pos hall, List.length_append] at h
    have hnil : after.takeWhile p = [] := List.length_eq_zero_iff.mp (by omega)
    have htext : text.takeWhile p = text := (List.takeWhile_prefix p).eq_of_length hall
    rw [hnil, htext, List.append_nil]
  · rfl

/-- It also stays in the text when it cannot go on with a blank. -/
theorem takeWhile_append_of_spaced {p : Char → Bool} {text after : List Char}
    (hp : p ' ' = false) (h : Spaced after) :
    (text ++ after).takeWhile p = text.takeWhile p := by
  have hnil : after.takeWhile p = [] := by
    cases after with
    | nil => rfl
    | cons c after =>
      obtain rfl : c = ' ' := h c rfl
      rw [List.takeWhile_cons, if_neg (by simp [hp])]
  rw [List.takeWhile_append, hnil, List.append_nil]
  split
  · next hall => exact ((List.takeWhile_prefix p).eq_of_length hall).symm
  · rfl

/-- The name at the head of a text looks no further than the text. -/
theorem NameShape.length_append_of_le {shape : NameShape} {text after : List Char}
    (hne : text ≠ []) (h : shape.length (text ++ after) ≤ text.length) :
    shape.length (text ++ after) = shape.length text := by
  cases text with
  | nil => exact absurd rfl hne
  | cons c text =>
    simp only [List.cons_append, NameShape.length, List.length_cons] at h ⊢
    split at h
    · rw [takeWhile_append_of_length_le (by omega)]
    · next hc => rw [if_neg hc, if_neg hc]

theorem NameShape.length_append_of_spaced {shape : NameShape} {text after : List Char}
    (hshape : shape.continue_ ' ' = false) (hne : text ≠ []) (h : Spaced after) :
    shape.length (text ++ after) = shape.length text := by
  cases text with
  | nil => exact absurd rfl hne
  | cons c text =>
    simp only [List.cons_append, NameShape.length, takeWhile_append_of_spaced hshape h]

/-- A word without blanks looks no further than the next blank. -/
theorem isPrefixOf_append_of_spaced {word text after : List Char} (hword : ' ' ∉ word)
    (h : Spaced after) : word.isPrefixOf (text ++ after) = word.isPrefixOf text := by
  induction word generalizing text with
  | nil => rfl
  | cons c word ih =>
    rw [List.mem_cons, not_or] at hword
    cases text with
    | nil =>
      cases after with
      | nil => rfl
      | cons d after =>
        obtain rfl : d = ' ' := h d rfl
        simp [List.isPrefixOf, Ne.symm hword.1]
    | cons d text => simp [List.isPrefixOf, ih hword.2]

namespace Pattern

/-- The pattern stops at a blank, unless it takes blanks only. -/
def StopsAtBlank : Pattern → Prop
  | .blanks | .name | .digits => True
  | .words spellings => ∀ w ∈ spellings, ' ' ∉ w.toList
  | .toLineEnd _ | .enclosed _ _ | .anyChar => False

instance : (pattern : Pattern) → Decidable pattern.StopsAtBlank
  | .blanks | .name | .digits => isTrue trivial
  | .words spellings => inferInstanceAs (Decidable (∀ w ∈ spellings, ' ' ∉ w.toList))
  | .toLineEnd _ | .enclosed _ _ | .anyChar => isFalse id

variable {shape : NameShape} {pattern : Pattern} {text after after' : List Char}

/-- A spelling that is found within the text is found with nothing behind the
text. -/
theorem find?_append_of_length_le {spellings : List String}
    (h : ∀ w ∈ spellings.find? fun w => w.toList.isPrefixOf (text ++ after),
      w.length ≤ text.length) :
    (spellings.find? fun w => w.toList.isPrefixOf (text ++ after))
      = spellings.find? fun w => w.toList.isPrefixOf text := by
  induction spellings with
  | nil => rfl
  | cons w ws ih =>
    rw [List.find?_cons] at h ⊢
    rw [List.find?_cons]
    by_cases hw : w.toList.isPrefixOf (text ++ after) = true
    · simp only [hw] at h ⊢
      -- found, and short enough to lie inside `text`
      have hle := h w rfl
      have hprefix : w.toList <+: text := by
        refine List.prefix_of_prefix_length_le (List.isPrefixOf_iff_prefix.mp hw)
          (List.prefix_append _ _) ?_
        rwa [String.length_toList]
      rw [List.isPrefixOf_iff_prefix.mpr hprefix]
    · have hnot : w.toList.isPrefixOf text = false := by
        rw [Bool.eq_false_iff]
        intro hprefix
        exact hw (List.isPrefixOf_iff_prefix.mpr
          ((List.isPrefixOf_iff_prefix.mp hprefix).trans (List.prefix_append _ _)))
      simp only [Bool.not_eq_true _ ▸ hw, hnot] at h ⊢
      exact ih h

theorem find?_append_of_spaced {spellings : List String}
    (hwords : ∀ w ∈ spellings, ' ' ∉ w.toList) (h : Spaced after) :
    (spellings.find? fun w => w.toList.isPrefixOf (text ++ after))
      = spellings.find? fun w => w.toList.isPrefixOf text := by
  induction spellings with
  | nil => rfl
  | cons w ws ih =>
    rw [List.forall_mem_cons] at hwords
    rw [List.find?_cons, List.find?_cons, isPrefixOf_append_of_spaced hwords.1 h, ih hwords.2]

/-- A pattern that took no more than the text makes the same of the text when a
blank follows. -/
theorem rawLength_of_spaced (hshape : shape.continue_ ' ' = false) (hp : pattern.StopsAtBlank)
    (htext : ∃ c ∈ text, Text.isBlank c = false)
    (hle : ∀ n ∈ pattern.rawLength shape (text ++ after), n ≤ text.length)
    (h : Spaced after') :
    pattern.rawLength shape (text ++ after') = pattern.rawLength shape (text ++ after) := by
  obtain ⟨c, hc, hblank⟩ := htext
  have hne : text ≠ [] := List.ne_nil_of_mem hc
  cases pattern with
  | blanks =>
    -- the text ends the run of blanks itself
    have hstop (tail : List Char) :
        (text ++ tail).takeWhile Text.isBlank = text.takeWhile Text.isBlank := by
      rw [List.takeWhile_append, if_neg]
      intro hall
      have htaken := (List.takeWhile_prefix Text.isBlank).eq_of_length hall
      have hcblank := List.all_eq_true.mp List.all_takeWhile c (htaken.symm ▸ hc)
      rw [hblank] at hcblank
      exact absurd hcblank (by decide)
    show some _ = some _
    rw [hstop, hstop]
  | words spellings =>
    show Option.map _ _ = Option.map _ _
    rw [find?_append_of_spaced hp h, find?_append_of_length_le]
    intro w hw
    exact hle w.length (Option.mem_map_of_mem _ hw)
  | name =>
    show some _ = some _
    rw [NameShape.length_append_of_spaced hshape hne h,
      NameShape.length_append_of_le hne (hle _ rfl)]
  | digits =>
    show some _ = some _
    rw [takeWhile_append_of_spaced (by decide) h, takeWhile_append_of_length_le (hle _ rfl)]
  | toLineEnd opening | enclosed opening closing | anyChar => exact absurd hp id

end Pattern

/-! ## §2. Entries and tables. -/

section Tables

variable {shape : NameShape} {entry : Entry} {text after after' : List Char}
  {action : Action} (hshape : shape.continue_ ' ' = false)
  (htext : ∃ c ∈ text, Text.isBlank c = false) (hafter : Spaced after')

include hshape htext hafter

/-- An entry that does not apply to a text does not apply to it before a blank. -/
theorem Entry.apply_of_spaced_of_none (hentry : entry.pattern.StopsAtBlank)
    (h : entry.apply shape (text ++ after) = none) : entry.apply shape (text ++ after') = none := by
  have hmatch := Option.map_eq_none_iff.mp h
  have hzero : ∀ n ∈ entry.pattern.rawLength shape (text ++ after), n ≤ text.length := by
    intro n hn
    have hnot := (Option.filter_eq_none_iff.mp hmatch) n hn
    simp only [decide_eq_true_eq] at hnot
    omega
  unfold Entry.apply Pattern.matchLength at h ⊢
  rw [Pattern.rawLength_of_spaced hshape hentry htext hzero hafter]
  exact Option.map_eq_none_iff.mpr hmatch

/-- An entry that takes exactly a text takes it before a blank too.  What it takes, and the name
that it may have to yield to, both end at the blank or before it. -/
theorem Entry.apply_of_spaced (hentry : entry.pattern.StopsAtBlank)
    (h : entry.apply shape (text ++ after) = some (action, text.length)) :
    entry.apply shape (text ++ after') = some (action, text.length) := by
  have hne : text ≠ [] := by
    obtain ⟨c, hc, -⟩ := htext
    exact List.ne_nil_of_mem hc
  obtain ⟨n, hmatch, hn⟩ := Option.map_eq_some_iff.mp h
  -- neither what the entry takes nor a longer name goes beyond the text
  have hle : n ≤ text.length
      ∧ (entry.yieldsToName = true → shape.length (text ++ after) ≤ text.length) := by
    split at hn
    · next hlonger =>
      simp only [Bool.and_eq_true, decide_eq_true_eq] at hlonger
      obtain ⟨-, hlen⟩ := Prod.mk.inj hn
      exact ⟨by omega, fun _ => by omega⟩
    · next hshort =>
      obtain ⟨-, hlen⟩ := Prod.mk.inj hn
      refine ⟨by omega, fun hyields => ?_⟩
      simp only [hyields, Bool.true_and, decide_eq_true_eq] at hshort
      omega
  have hraw : entry.pattern.rawLength shape (text ++ after')
      = entry.pattern.rawLength shape (text ++ after) := by
    refine Pattern.rawLength_of_spaced hshape hentry htext ?_ hafter
    intro m hm
    obtain rfl : m = n := Option.mem_unique hm (Option.filter_eq_some_iff.mp hmatch).1
    exact hle.1
  have hname : entry.yieldsToName = true →
      shape.length (text ++ after') = shape.length (text ++ after) := by
    intro hyields
    rw [NameShape.length_append_of_spaced hshape hne hafter,
      NameShape.length_append_of_le hne (hle.2 hyields)]
  unfold Entry.apply Pattern.matchLength at h ⊢
  rw [hraw]
  cases hyields : entry.yieldsToName with
  | false => simpa [hyields] using h
  | true =>
    rw [hname hyields]
    simpa [hyields] using h

theorem findSome?_apply_of_spaced {entries : List Entry}
    (hentries : ∀ entry ∈ entries, entry.pattern.StopsAtBlank)
    (h : entries.findSome? (·.apply shape (text ++ after)) = some (action, text.length)) :
    entries.findSome? (·.apply shape (text ++ after')) = some (action, text.length) := by
  induction entries with
  | nil => exact absurd h (by simp)
  | cons entry entries ih =>
    rw [List.forall_mem_cons] at hentries
    rw [List.findSome?_cons] at h ⊢
    split at h
    · next answer hanswer =>
      obtain rfl := Option.some.inj h
      rw [Entry.apply_of_spaced hshape htext hafter hentries.1 hanswer]
    · next hnone =>
      rw [Entry.apply_of_spaced_of_none hshape htext hafter hentries.1 hnone]
      exact ih hentries.2 h

end Tables

/-- The kind of a token and how it was written. -/
def Token.word (t : Token) : Kind × String :=
  (t.kind, t.image)

namespace Lexicon

/-- A table that skips blanks first, then has words that stop at blanks, and
then entries that make no tokens. -/
structure Separates (lexicon : Lexicon) (words others : List Entry) : Prop where
  entries : lexicon.entries = .skip .blanks :: words ++ others
  words : ∀ entry ∈ words, entry.pattern.StopsAtBlank
  others : ∀ entry ∈ others, entry.yieldsToName = false ∧ ∀ kind, entry.action ≠ .emit kind
  names : lexicon.names.continue_ ' ' = false

/-- The text is a token of that kind wherever a blank or the end follows. -/
def Stands (lexicon : Lexicon) (kind : Kind) (text : List Char) : Prop :=
  ∀ after, Spaced after → lexicon.next (text ++ after) = some (.emit kind, text.length)

variable {lexicon : Lexicon} {words others : List Entry}

/-- A table that skips blanks before it looks for anything else. -/
def SkipsBlanks (lexicon : Lexicon) : Prop :=
  lexicon.entries.head? = some (.skip .blanks)

theorem Separates.skipsBlanks (h : lexicon.Separates words others) : lexicon.SkipsBlanks := by
  unfold SkipsBlanks
  rw [h.entries]
  rfl

/-- Blanks are skipped, as far as they go. -/
theorem next_blank (h : lexicon.SkipsBlanks) {c : Char} (hc : Text.isBlank c = true)
    (cs : List Char) :
    lexicon.next (c :: cs) = some (.skip, (cs.takeWhile Text.isBlank).length + 1) := by
  have happly : (Entry.skip .blanks).apply lexicon.names (c :: cs)
      = some (.skip, (cs.takeWhile Text.isBlank).length + 1) := by
    simp [Entry.apply, Entry.skip, Pattern.matchLength, Pattern.rawLength, hc, Option.filter]
  obtain ⟨entries, hentries⟩ := List.head?_eq_some_iff.mp h
  unfold next
  rw [hentries, List.findSome?_cons, happly]

/-- No token starts with a blank. -/
theorem isBlank_head_of_next (h : lexicon.SkipsBlanks) {c : Char} {cs : List Char}
    {kind : Kind} {n : Nat} (hnext : lexicon.next (c :: cs) = some (.emit kind, n)) :
    Text.isBlank c = false := by
  rw [Bool.eq_false_iff]
  intro hc
  rw [next_blank h hc] at hnext
  simp at hnext

/-- A text that is a token somewhere is that token before a blank.  The entries that make tokens are
tried first, in both places with the same answers. -/
theorem stands_of_next (h : lexicon.Separates words others) {kind : Kind}
    {text after : List Char}
    (hnext : lexicon.next (text ++ after) = some (.emit kind, text.length)) :
    lexicon.Stands kind text := by
  intro after' hafter
  have htext : ∃ c ∈ text, Text.isBlank c = false := by
    cases text with
    | nil => exact absurd (next_pos hnext).1 (by simp)
    | cons c text => exact ⟨c, List.mem_cons_self, isBlank_head_of_next h.skipsBlanks hnext⟩
  have hwords : ∀ entry ∈ .skip .blanks :: words, entry.pattern.StopsAtBlank :=
    List.forall_mem_cons.mpr ⟨trivial, h.words⟩
  unfold next at hnext ⊢
  rw [h.entries, List.findSome?_append] at hnext ⊢
  -- the entries behind the words make no tokens
  cases hfirst : (Entry.skip .blanks :: words).findSome?
      (·.apply lexicon.names (text ++ after)) with
  | none =>
    rw [hfirst, Option.none_or] at hnext
    obtain ⟨entry, hmem, happly⟩ := List.exists_of_findSome?_eq_some hnext
    obtain ⟨hyields, haction⟩ := h.others entry hmem
    obtain ⟨m, -, hm⟩ := Option.map_eq_some_iff.mp happly
    rw [hyields, Bool.false_and, if_neg (by decide)] at hm
    exact absurd (Prod.mk.inj hm).1 (haction kind)
  | some answer =>
    rw [hfirst, Option.some_or] at hnext
    obtain rfl := Option.some.inj hnext
    rw [findSome?_apply_of_spaced h.names htext hafter hwords hfirst, Option.some_or]

/-! ## §3. Spaced sources. -/

/-- The texts with a blank between each two. -/
def spacedText : List (List Char) → List Char
  | [] => []
  | [text] => text
  | text :: more => text ++ ' ' :: spacedText more

theorem cutFrom_of_stands {kind : Kind} {text after : List Char}
    (h : lexicon.Stands kind text) (hafter : Spaced after) (p : Position) :
    lexicon.cutFrom 0 p (text ++ after)
      = ⟨some (.emit kind), text, p⟩ :: lexicon.cutFrom 0 (p.advance text) after := by
  rw [cutFrom_of_next (h after hafter), List.take_left, List.drop_left]

/-- No blank stands in front of the first text. -/
theorem takeWhile_isBlank_spacedText (h : lexicon.SkipsBlanks) {kind : Kind}
    {text : List Char} (hstands : lexicon.Stands kind text) (more : List (List Char)) :
    (spacedText (text :: more)).takeWhile Text.isBlank = [] := by
  have hnext := hstands [] (by simp [Spaced])
  rw [List.append_nil] at hnext
  cases text with
  | nil => exact absurd (next_pos hnext).1 (by simp)
  | cons c text =>
    have hc := isBlank_head_of_next h hnext
    cases more with
    | nil => simp [spacedText, hc]
    | cons text' more => simp [spacedText, hc]

/-- The lexemes of spaced texts are these texts and single blanks.  By induction on the texts: each
stands for its token before the blank, and the blank is skipped alone since no text starts with
one. -/
theorem cutFrom_spacedText (h : lexicon.SkipsBlanks)
    (texts : List (Kind × String)) (hstands : ∀ w ∈ texts, lexicon.Stands w.1 w.2.toList)
    (p : Position) :
    let lexemes := lexicon.cutFrom 0 p (spacedText (texts.map (·.2.toList)))
    (∀ l ∈ lexemes, l.isStray = false)
      ∧ (lexemes.filterMap Lexeme.token?).map Token.word = texts := by
  induction texts generalizing p with
  | nil => exact ⟨by simp [spacedText, cutFrom], rfl⟩
  | cons w texts ih =>
    obtain ⟨kind, text⟩ := w
    rw [List.forall_mem_cons] at hstands
    have hword : Token.word (Lexeme.toToken ⟨some (.emit kind), text.toList, p⟩ kind)
        = (kind, text) := by
      simp [Token.word, Lexeme.toToken]
    cases texts with
    | nil =>
      have hcut := cutFrom_of_stands hstands.1 (show Spaced [] by simp [Spaced]) p
      rw [List.append_nil] at hcut
      simp only [List.map_cons, List.map_nil, spacedText, hcut, cutFrom]
      exact ⟨by simp [Lexeme.isStray], congrArg (· :: []) hword⟩
    | cons w' texts =>
      -- what follows the first text, without the blank in front of it
      let more := spacedText (w'.2.toList :: texts.map (·.2.toList))
      have hblank := takeWhile_isBlank_spacedText h (hstands.2 w' List.mem_cons_self)
        (texts.map (·.2.toList))
      have hskip := next_blank h (show Text.isBlank ' ' = true by decide) more
      rw [hblank, List.length_nil, Nat.zero_add] at hskip
      have hcut := cutFrom_of_stands hstands.1 (show Spaced (' ' :: more) by simp [Spaced]) p
      rw [cutFrom_of_next hskip] at hcut
      obtain ⟨hstray, htokens⟩ := ih hstands.2
        ((p.advance text.toList).advance ((' ' :: more).take 1))
      have htext : spacedText (((kind, text) :: w' :: texts).map (·.2.toList))
          = text.toList ++ ' ' :: more := rfl
      rw [htext, hcut]
      constructor
      · rw [List.forall_mem_cons, List.forall_mem_cons]
        exact ⟨rfl, rfl, hstray⟩
      · show Token.word _ :: List.map Token.word (List.filterMap Lexeme.token? _) = _
        rw [hword]
        exact congrArg (_ :: ·) htokens

theorem toList_intercalate (texts : List String) :
    (" ".intercalate texts).toList = spacedText (texts.map String.toList) := by
  induction texts with
  | nil => rfl
  | cons text texts ih =>
    cases texts with
    | nil => simp [spacedText]
    | cons text' texts =>
      rw [String.intercalate_cons_cons, String.toList_append, String.toList_append, ih]
      simp [spacedText]

/-- The tokens of texts with blanks between them are these texts, and nothing is stray. -/
theorem tokenize_intercalate (h : lexicon.SkipsBlanks) (texts : List (Kind × String))
    (hstands : ∀ w ∈ texts, lexicon.Stands w.1 w.2.toList) :
    (lexicon.tokenize (" ".intercalate (texts.map (·.2)))).errors = []
      ∧ (lexicon.bodyTokens (" ".intercalate (texts.map (·.2)))).map Token.word = texts := by
  obtain ⟨hstray, htokens⟩ := cutFrom_spacedText h texts hstands .start
  have htext : (" ".intercalate (texts.map (·.2))).toList
      = spacedText (texts.map (·.2.toList)) := by
    rw [toList_intercalate, List.map_map]
    rfl
  constructor
  · show List.map _ (Lexeme.strayRuns false (lexicon.cutFrom 0 .start _)) = []
    rw [htext, strayRuns_eq_nil hstray]
    rfl
  · show List.map Token.word (List.filterMap Lexeme.token? (lexicon.cutFrom 0 .start _)) = texts
    rw [htext]
    exact htokens

/-- The tokens of a source made of spaced texts are these texts. -/
theorem tokenize_spaced (h : lexicon.Separates words others) (texts : List (Kind × String))
    (hstands : ∀ w ∈ texts, lexicon.Stands w.1 w.2.toList) :
    ∃ source, (lexicon.tokenize source).errors = []
      ∧ (lexicon.bodyTokens source).map Token.word = texts :=
  ⟨_, tokenize_intercalate h.skipsBlanks texts hstands⟩

end Lexicon

end RobotLang
