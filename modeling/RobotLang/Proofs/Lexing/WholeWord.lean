/-
  RobotLang.Proofs.Lexing.WholeWord
  ─────────────────────────────────
  **WORDS ARE CUT WHOLE, AND THEN LOOKED UP.**

  A table tries the spellings of its keywords one after the other, as heads of
  the text, and lets a longer name win.  On a text that starts a name this is
  the same as taking the longest name and looking it up:

      lexicon.next (c :: cs)  =  the longest name, with the kind `lexicon.lookup` of it

  Three facts about the table carry that.  A spelling is itself a name, so it
  never reaches beyond the longest one; no spelling starts with one that is
  tried before it, so the whole word is found if it is listed at all; and
  neither blanks nor digits start a name.
-/
import Mathlib.Data.List.Pairwise
import RobotLang.Proofs.Lexing.Tiling
import RobotLang.Proofs.Worded.Acceptance

namespace RobotLang

/-! ## §1. Names. -/

namespace NameShape

variable {names : NameShape} {c : Char} {cs : List Char}

/-- The whole text is a name. -/
def isName (names : NameShape) : List Char → Bool
  | [] => false
  | c :: cs => names.start c && cs.all names.continue_

/-- The longest name at the head of a text that starts with `c`. -/
def longest (names : NameShape) (c : Char) (cs : List Char) : List Char :=
  c :: cs.takeWhile names.continue_

theorem length_of_start (hc : names.start c = true) :
    names.length (c :: cs) = (names.longest c cs).length := by
  rw [NameShape.length, if_pos hc, longest, List.length_cons, Nat.add_comm]

/-- The longest name at a place is a head of the text there. -/
theorem longest_heads (names : NameShape) (c : Char) (cs : List Char) :
    names.longest c cs <+: c :: cs :=
  List.cons_prefix_cons.mpr ⟨rfl, List.takeWhile_prefix _⟩

/-- A name at the head of a text is a head of the longest one. -/
theorem heads_longest {word : List Char} (hname : names.isName word = true)
    (hword : word <+: c :: cs) : word <+: names.longest c cs := by
  cases word with
  | nil => exact absurd hname (by simp [isName])
  | cons d word =>
    obtain ⟨rfl, hmore⟩ := List.cons_prefix_cons.mp hword
    obtain ⟨rest, rfl⟩ := hmore
    simp only [isName, Bool.and_eq_true, List.all_eq_true] at hname
    rw [longest, List.takeWhile_append_of_pos hname.2]
    exact List.cons_prefix_cons.mpr ⟨rfl, List.prefix_append _ _⟩

/-- `run` is a name at `offset` of the text, and the text does not go on with it. -/
structure LongestAt (names : NameShape) (cs : List Char) (offset : Nat) (run : List Char) :
    Prop where
  stands : run <+: cs.drop offset
  isName : names.isName run = true
  stops : ∀ c, cs[offset + run.length]? = some c → names.continue_ c = false

/-- Wherever a name can start, the longest one is what the table's shape of names says.  It goes on
for as long as its characters can, so the one behind it ended it. -/
theorem longestAt_longest (before : List Char) (hc : names.start c = true) :
    names.LongestAt (before ++ c :: cs) before.length (names.longest c cs) := by
  constructor
  · rw [List.drop_left]
    exact names.longest_heads c cs
  · rw [longest, NameShape.isName, hc, Bool.true_and]
    exact List.all_takeWhile
  · intro d hd
    -- what stands behind the longest name is what ended it
    rw [List.getElem?_append_right (Nat.le_add_right _ _), Nat.add_sub_cancel_left, longest,
      List.length_cons, List.getElem?_cons_succ] at hd
    have hrest : (cs.dropWhile names.continue_).head? = some d := by
      calc (cs.dropWhile names.continue_).head?
          = (cs.takeWhile names.continue_ ++ cs.dropWhile names.continue_)[(cs.takeWhile
              names.continue_).length]? := by
            rw [List.getElem?_append_right (Nat.le_refl _), Nat.sub_self, List.head?_eq_getElem?]
        _ = some d := by rw [List.takeWhile_append_dropWhile, hd]
    have hnot := List.head?_dropWhile_not names.continue_ cs
    rw [hrest] at hnot
    simpa using hnot

end NameShape

/-! ## §2. Looking a word up. -/

namespace Lexicon

variable {lexicon : Lexicon} {keywords others : List Entry} {word : String}

/-- The table lists the word for the keyword of that kind. -/
def Spells (lexicon : Lexicon) (word : String) (kind : Kind) : Prop :=
  ∃ entry ∈ lexicon.entries, entry.keywordKind? = some kind ∧ word ∈ entry.spellings

/-- The kind is that of the keyword the word is listed for, and a name's if it is listed for
none. -/
structure IsKindOf (lexicon : Lexicon) (word : String) (kind : Kind) : Prop where
  keyword : ∀ k, lexicon.Spells word k → kind = k
  name : (∀ k, ¬lexicon.Spells word k) → kind = .identifier

/-- The kind of a whole word. -/
def lookup (lexicon : Lexicon) (word : String) : Kind :=
  (lexicon.entries.findSome? fun entry =>
    if word ∈ entry.spellings then entry.keywordKind? else none).getD .identifier

/-- A table of blanks, keywords, numbers, names and other entries, in this order, whose keywords
can be told apart and are names as a whole. -/
structure ReadsWords (lexicon : Lexicon) (keywords others : List Entry) : Prop where
  entries : lexicon.entries = .skip .blanks
    :: (keywords ++ .emit .digits .integerLiteral :: .emit .name .identifier :: others)
  apart : KeepsApart keywords
  names : ∀ entry ∈ keywords, ∀ word ∈ entry.spellings, lexicon.names.isName word.toList = true
  others : ∀ entry ∈ others, entry.keywordKind? = none
  start : ∀ c, lexicon.names.start c = true → Text.isBlank c = false ∧ Text.isDigit c = false

namespace ReadsWords

variable (h : lexicon.ReadsWords keywords others)

include h

/-- A word is listed for a kind if one of the keywords of that kind has it among its spellings. -/
theorem spells_iff {kind : Kind} : lexicon.Spells word kind
    ↔ ∃ entry ∈ keywords, entry.keywordKind? = some kind ∧ word ∈ entry.spellings := by
  constructor
  · rintro ⟨entry, hmem, hkind, hword⟩
    rw [h.entries, List.mem_cons, List.mem_append, List.mem_cons, List.mem_cons] at hmem
    rcases hmem with rfl | hmem | rfl | rfl | hmem
    · simp [Entry.skip, Entry.keywordKind?] at hkind
    · exact ⟨entry, hmem, hkind, hword⟩
    · simp [Entry.emit, Entry.keywordKind?] at hkind
    · simp [Entry.emit, Entry.keywordKind?] at hkind
    · rw [h.others entry hmem] at hkind
      simp at hkind
  · rintro ⟨entry, hmem, hkind, hword⟩
    exact ⟨entry, by rw [h.entries]; simp [hmem], hkind, hword⟩

/-- A word is listed for one keyword at most. -/
theorem spells_unique {kind kind' : Kind} (hk : lexicon.Spells word kind)
    (hk' : lexicon.Spells word kind') : kind = kind' := by
  obtain ⟨entry, hmem, hkind, hword⟩ := h.spells_iff.mp hk
  obtain ⟨entry', hmem', hkind', hword'⟩ := h.spells_iff.mp hk'
  by_cases hsame : entry = entry'
  · rw [hsame, hkind'] at hkind
    exact (Option.some.inj hkind).symm
  · -- the later of two entries would list a word that starts with one of the earlier
    have hheads : Heads word word := List.prefix_rfl
    have hnot : keywords.Pairwise fun e e' => ¬(word ∈ e.spellings ∧ word ∈ e'.spellings) :=
      h.apart.earlier.imp fun hearlier hboth => hearlier word hboth.1 word hboth.2 hheads
    have hsymm : Std.Symm fun e e' : Entry => ¬(word ∈ e.spellings ∧ word ∈ e'.spellings) :=
      ⟨fun _ _ hne hboth => hne hboth.symm⟩
    exact absurd ⟨hword, hword'⟩ (hnot.forall hmem hmem' hsame)

/-- Looking a word up gives the kind of the keyword it is listed for, and that of names if there is
none. -/
theorem isKindOf_lookup (word : String) : lexicon.IsKindOf word (lexicon.lookup word) := by
  unfold lookup
  cases hfind : lexicon.entries.findSome? fun entry =>
      if word ∈ entry.spellings then entry.keywordKind? else none with
  | none =>
    rw [List.findSome?_eq_none_iff] at hfind
    have hnone : ∀ k, ¬lexicon.Spells word k := by
      rintro k ⟨entry, hmem, hkind, hword⟩
      have := hfind entry hmem
      rw [if_pos hword, hkind] at this
      simp at this
    exact ⟨fun k hk => absurd hk (hnone k), fun _ => rfl⟩
  | some kind =>
    obtain ⟨entry, hmem, hentry⟩ := List.exists_of_findSome?_eq_some hfind
    split at hentry
    · next hword =>
      have hspells : lexicon.Spells word kind := ⟨entry, hmem, hentry, hword⟩
      exact ⟨fun k hk => h.spells_unique hspells hk, fun hnone => absurd hspells (hnone kind)⟩
    · simp at hentry

/-- What a word's kind should be is what looking it up gives. -/
theorem lookup_eq {kind : Kind} (hkind : lexicon.IsKindOf word kind) :
    lexicon.lookup word = kind := by
  have hlookup := h.isKindOf_lookup word
  by_cases hk : ∃ k, lexicon.Spells word k
  · obtain ⟨k, hk⟩ := hk
    rw [hlookup.keyword k hk, hkind.keyword k hk]
  · rw [not_exists] at hk
    rw [hlookup.name hk, hkind.name hk]

end ReadsWords
end Lexicon

/-! ## §3. The table on a text that starts a name. -/

/-- A keyword whose spellings are names takes the longest name, as the keyword only if that is the
whole name. -/
theorem Entry.apply_keyword_of_start {names : NameShape} {spellings : List String} {kind : Kind}
    {c : Char} {cs : List Char} {action : Action} {n : Nat} (hc : names.start c = true)
    (hnames : ∀ word ∈ spellings, names.isName word.toList = true)
    (h : (Entry.keyword spellings kind).apply names (c :: cs) = some (action, n)) :
    n = (names.longest c cs).length ∧ ∃ word ∈ spellings, word.toList <+: names.longest c cs
      ∧ action = .emit (if word.toList = names.longest c cs then kind else .identifier) := by
  obtain ⟨m, hm, he⟩ := Option.map_eq_some_iff.mp h
  obtain ⟨hraw, -⟩ := Option.filter_eq_some_iff.mp hm
  obtain ⟨word, hfind, rfl⟩ := Option.map_eq_some_iff.mp hraw
  have hmem : word ∈ spellings := List.mem_of_find?_eq_some hfind
  have hbegins : word.toList <+: names.longest c cs :=
    NameShape.heads_longest (hnames word hmem) (by simpa using List.find?_some hfind)
  have hle := hbegins.length_le
  rw [NameShape.length_of_start hc] at he
  rw [String.length_toList] at hle
  split at he
  · next hlonger =>
    -- a longer name is taken in its place
    simp only [Bool.and_eq_true, decide_eq_true_eq] at hlonger
    obtain ⟨rfl, rfl⟩ := Prod.mk.inj he
    refine ⟨rfl, word, hmem, hbegins, ?_⟩
    rw [if_neg]
    intro hsame
    rw [← hsame, String.length_toList] at hlonger
    omega
  · next hshort =>
    -- no name is longer, so the spelling is all of the longest one
    simp only [Entry.keyword, Bool.true_and, decide_eq_true_eq] at hshort
    obtain ⟨rfl, rfl⟩ := Prod.mk.inj he
    have hlength : word.toList.length = (names.longest c cs).length := by
      rw [String.length_toList]
      omega
    refine ⟨by rw [← hlength, String.length_toList], word, hmem, hbegins, ?_⟩
    rw [if_pos (hbegins.eq_of_length hlength)]
    rfl

namespace Lexicon.ReadsWords

variable {lexicon : Lexicon} {keywords others : List Entry} (h : lexicon.ReadsWords keywords others)
  {c : Char} {cs : List Char}

include h

/-- Every entry among the keywords is one. -/
theorem eq_keyword_of_mem {entry : Entry} (hmem : entry ∈ keywords) :
    ∃ kind, entry.keywordKind? = some kind ∧ entry = .keyword entry.spellings kind := by
  obtain ⟨kind, hkind⟩ := Option.isSome_iff_exists.mp (h.apart.isKeyword entry hmem)
  exact ⟨kind, hkind, Entry.eq_keyword hkind⟩

/-- A keyword applies wherever one of its spellings stands. -/
theorem apply_isSome {entry : Entry} (hmem : entry ∈ keywords) {word : String}
    (hword : word ∈ entry.spellings) (hbegins : word.toList <+: c :: cs) :
    (entry.apply lexicon.names (c :: cs)).isSome := by
  obtain ⟨kind, -, heq⟩ := h.eq_keyword_of_mem hmem
  rw [heq]
  refine Entry.apply_keyword_isSome hword hbegins fun w hw hempty => ?_
  have hname := h.names entry hmem w hw
  rw [hempty] at hname
  simp [NameShape.isName] at hname

/-- The first keyword that applies takes the longest name, and decides its kind.  If only a head of
the name is a spelling here, then the name as a whole is none: no keyword starts with a keyword
further up, and those further up did not apply. -/
theorem isKindOf_of_keyword (hc : lexicon.names.start c = true) {action : Action} {n : Nat}
    (hfind : keywords.findSome? (·.apply lexicon.names (c :: cs)) = some (action, n)) :
    n = (lexicon.names.longest c cs).length
      ∧ ∃ kind, action = .emit kind
        ∧ lexicon.IsKindOf (String.ofList (lexicon.names.longest c cs)) kind := by
  obtain ⟨before, entry, later, hsplit, happly, hbefore⟩ := List.findSome?_eq_some_iff.mp hfind
  have hmem : entry ∈ keywords := by simp [hsplit]
  obtain ⟨kind, hkind, heq⟩ := h.eq_keyword_of_mem hmem
  rw [heq] at happly
  obtain ⟨rfl, word, hword, hbegins, rfl⟩ :=
    Entry.apply_keyword_of_start hc (h.names entry hmem) happly
  refine ⟨rfl, _, rfl, ?_⟩
  by_cases hwhole : word.toList = lexicon.names.longest c cs
  · -- the whole name is listed here, and nowhere else
    have hspells : lexicon.Spells (String.ofList (lexicon.names.longest c cs)) kind := by
      rw [← hwhole, String.ofList_toList]
      exact h.spells_iff.mpr ⟨entry, hmem, hkind, hword⟩
    rw [if_pos hwhole]
    exact ⟨fun k hk => h.spells_unique hspells hk, fun hnone => absurd hspells (hnone kind)⟩
  · -- a head of the name is listed here, so the name itself is not listed further on
    rw [if_neg hwhole]
    refine ⟨fun k hk => ?_, fun _ => rfl⟩
    obtain ⟨other, hother, -, hlisted⟩ := h.spells_iff.mp hk
    have hheads : Heads word (String.ofList (lexicon.names.longest c cs)) := by
      rwa [Heads, String.toList_ofList]
    have hwords := h.apart
    rw [hsplit] at hwords hother
    rcases List.mem_append.mp hother with hearly | hlate
    · have happlies : (other.apply lexicon.names (c :: cs)).isSome :=
        h.apply_isSome (by simp [hsplit, hearly]) hlisted
          (by rw [String.toList_ofList]; exact lexicon.names.longest_heads c cs)
      rw [hbefore other hearly] at happlies
      simp at happlies
    · rcases List.mem_cons.mp hlate with rfl | hlate
      · have hsame := hwords.own other (by simp) word hword _ hlisted hheads
        exact absurd (by rw [hsame, String.toList_ofList]) hwhole
      · have hpair := (List.pairwise_cons.mp (List.pairwise_append.mp hwords.earlier).2.1).1
        exact absurd hheads (hpair other hlate word hword _ hlisted)

/-- On a text that starts a name, the table takes the longest name and looks it up.  Blanks and
digits do not start names, so a keyword applies first, or else the entry for names. -/
theorem next_of_start (hc : lexicon.names.start c = true) :
    lexicon.next (c :: cs) = some
      (.emit (lexicon.lookup (String.ofList (lexicon.names.longest c cs))),
        (lexicon.names.longest c cs).length) := by
  obtain ⟨hblank, hdigit⟩ := h.start c hc
  have hskip : (Entry.skip .blanks).apply lexicon.names (c :: cs) = none := by
    simp [Entry.apply, Entry.skip, Pattern.matchLength, Pattern.rawLength, hblank, Option.filter]
  unfold next
  rw [h.entries, List.findSome?_cons, hskip, List.findSome?_append]
  cases hfind : keywords.findSome? (·.apply lexicon.names (c :: cs)) with
  | some answer =>
    obtain ⟨action, n⟩ := answer
    obtain ⟨rfl, kind, rfl, hkind⟩ := h.isKindOf_of_keyword hc hfind
    rw [Option.some_or, h.lookup_eq hkind]
  | none =>
    -- no keyword stands here, so the name is none
    have hnone : ∀ k, ¬lexicon.Spells (String.ofList (lexicon.names.longest c cs)) k := by
      intro k hk
      obtain ⟨entry, hmem, -, hlisted⟩ := h.spells_iff.mp hk
      have happlies : (entry.apply lexicon.names (c :: cs)).isSome :=
        h.apply_isSome hmem hlisted
          (by rw [String.toList_ofList]; exact lexicon.names.longest_heads c cs)
      rw [List.findSome?_eq_none_iff.mp hfind entry hmem] at happlies
      simp at happlies
    have hnumber : (Entry.emit .digits .integerLiteral).apply lexicon.names (c :: cs) = none := by
      simp [Entry.apply, Entry.emit, Pattern.matchLength, Pattern.rawLength, hdigit, Option.filter]
    have hname : (Entry.emit .name .identifier).apply lexicon.names (c :: cs)
        = some (.emit .identifier, (lexicon.names.longest c cs).length) := by
      simp [Entry.apply, Entry.emit, Pattern.matchLength, Pattern.rawLength,
        NameShape.length_of_start hc, Option.filter, NameShape.longest]
    rw [Option.none_or, List.findSome?_cons, hnumber, List.findSome?_cons, hname,
      (h.isKindOf_lookup _).name hnone]

/-- On a text that does not start a name, none of the entries for words applies.  Keywords are
names, and names start with a character that starts them. -/
theorem action_of_not_start (hc : lexicon.names.start c = false) {action : Action} {n : Nat}
    (hnext : lexicon.next (c :: cs) = some (action, n)) :
    ∃ entry ∈ .skip .blanks :: .emit .digits .integerLiteral :: others, entry.action = action := by
  obtain ⟨entry, hmem, happly⟩ := List.exists_of_findSome?_eq_some hnext
  have hlength : lexicon.names.length (c :: cs) = 0 := by simp [NameShape.length, hc]
  obtain ⟨m, hm, hanswer⟩ := Option.map_eq_some_iff.mp happly
  have haction : entry.action = action := by
    simp only [hlength, Nat.not_lt_zero, decide_false, Bool.and_false, Bool.false_eq_true,
      if_false, Prod.mk.injEq] at hanswer
    exact hanswer.1
  rw [h.entries, List.mem_cons, List.mem_append, List.mem_cons, List.mem_cons] at hmem
  rcases hmem with rfl | hmem | rfl | rfl | hmem
  · exact ⟨_, .head _, haction⟩
  · -- a keyword is a name, so it does not start here
    obtain ⟨kind, -, heq⟩ := h.eq_keyword_of_mem hmem
    rw [heq] at happly
    obtain ⟨word, hword, hbegins, -⟩ := Entry.apply_keyword happly
    have hname := h.names entry hmem word hword
    generalize word.toList = text at hname hbegins
    cases text with
    | nil => simp [NameShape.isName] at hname
    | cons d text =>
      obtain ⟨rfl, -⟩ := List.cons_prefix_cons.mp hbegins
      simp [NameShape.isName, hc] at hname
  · exact ⟨_, .tail _ (.head _), haction⟩
  · have hempty : 0 = m ∧ 0 < m := by
      simpa [Entry.emit, Pattern.matchLength, Pattern.rawLength, hlength] using hm
    omega
  · exact ⟨entry, .tail _ (.tail _ hmem), haction⟩

/-- What a lexeme that starts a name is: the longest name, as a token. -/
theorem of_next {text after : List Char} {action : Action} (hc : lexicon.names.start c = true)
    (hhead : text.head? = some c)
    (hnext : lexicon.next (text ++ after) = some (action, text.length))
    (before : List Char) :
    action = .emit (lexicon.lookup (String.ofList text))
      ∧ lexicon.names.LongestAt (before ++ text ++ after) before.length text := by
  obtain ⟨more, rfl⟩ := List.head?_eq_some_iff.mp hhead
  rw [List.cons_append, h.next_of_start hc, Option.some.injEq, Prod.mk.injEq] at hnext
  obtain ⟨rfl, hlength⟩ := hnext
  have htext : c :: more = lexicon.names.longest c (more ++ after) := by
    refine (List.prefix_of_prefix_length_le (List.prefix_append (c :: more) after)
      (lexicon.names.longest_heads c (more ++ after)) ?_).eq_of_length hlength.symm
    exact Nat.le_of_eq hlength.symm
  refine ⟨by rw [htext], ?_⟩
  have hlongest : lexicon.names.LongestAt (before ++ c :: (more ++ after)) before.length
      (lexicon.names.longest c (more ++ after)) := NameShape.longestAt_longest before hc
  rwa [← htext, ← List.cons_append, ← List.append_assoc] at hlongest

end Lexicon.ReadsWords

/-! ## §4. The two dialects. -/

/-- A letter is neither a blank nor a digit. -/
theorem Text.isBlank_and_isDigit_of_letter {c : Char} (h : isLatinLetter c = true) :
    isBlank c = false ∧ isDigit c = false := by
  have hspace : c ≠ ' ' := by
    rintro rfl
    exact absurd h (by decide)
  simp only [isLatinLetter, isAsciiLetter, inRange, Bool.or_eq_true, Bool.and_eq_true,
    decide_eq_true_eq] at h
  simp only [isBlank, isDigit, inRange, Bool.or_eq_false_iff, Bool.and_eq_false_iff,
    decide_eq_false_iff_not, beq_eq_false_iff_ne, ne_eq, hspace, not_false_eq_true, and_true]
  omega

/-- No keyword of the braced dialect is the head of a later one. -/
theorem Braced.keepsApart_keywords : KeepsApart Braced.keywords := by
  decide +kernel

/-- The braced table reads words: its keywords are names, and no other entry takes what starts like
a name. -/
theorem Braced.readsWords :
    Braced.lexicon.ReadsWords Braced.keywords (Braced.signs ++ Braced.comments) where
  entries := by simp [Braced.lexicon]
  apart := Braced.keepsApart_keywords
  names := by decide +kernel
  others := by decide
  start c hc := by
    have hletter : Text.isAsciiLetter c = true := hc
    exact Text.isBlank_and_isDigit_of_letter (by simp [Text.isLatinLetter, hletter])

/-- The worded table reads words.  Its last entry takes any one character, and comes behind the
names. -/
theorem Worded.readsWords :
    Worded.lexicon.ReadsWords Worded.keywords
      (Worded.comments ++ Worded.signs ++ [.skip .anyChar]) where
  entries := by simp [Worded.lexicon]
  apart := Worded.keepsApart_keywords
  names := by decide +kernel
  others := by decide
  start c hc := by
    have hstart : Text.isLatinLetter c = true ∨ c = '_' := by simpa [Worded.lexicon] using hc
    rcases hstart with hletter | rfl
    · exact Text.isBlank_and_isDigit_of_letter hletter
    · decide

namespace Dialect

/-- Both tables read words. -/
theorem exists_readsWords (dialect : Dialect) :
    ∃ keywords others, dialect.lexicon.ReadsWords keywords others := by
  cases dialect with
  | braced => exact ⟨_, _, Braced.readsWords⟩
  | worded => exact ⟨_, _, Worded.readsWords⟩

end Dialect

namespace Lexicon

variable {lexicon : Lexicon}

/-- The lexeme that a token or a comment with some text comes from.  The end of input is none of
these, since it has no text. -/
theorem exists_next_of_mem {source : String} {t : Token} {c : Char}
    (ht : t ∈ (lexicon.tokenize source).tokens ++ (lexicon.tokenize source).comments)
    (hhead : t.image.toList.head? = some c) :
    ∃ before text after action kind, source.toList = before ++ text ++ after
      ∧ text.head? = some c ∧ lexicon.next (text ++ after) = some (action, text.length)
      ∧ (action = .emit kind ∨ action = .comment kind)
      ∧ t = Lexeme.toToken ⟨some action, text, Position.start.advance before⟩ kind := by
  have hlexeme : ∃ l ∈ lexicon.cut source.toList, ∃ action kind, l.action = some action
      ∧ (action = .emit kind ∨ action = .comment kind) ∧ t = l.toToken kind := by
    rw [tokenize_tokens, List.mem_append, List.mem_append, List.mem_singleton] at ht
    rcases ht with (ht | rfl) | ht
    · obtain ⟨l, hl, hlt⟩ := List.mem_filterMap.mp ht
      obtain ⟨kind, haction, ht⟩ := Lexeme.token?_eq_some_iff.mp hlt
      exact ⟨l, hl, _, kind, haction, .inl rfl, ht⟩
    · -- the end of input has no text
      simp [endOfText, Token.endOfInput] at hhead
    · obtain ⟨l, hl, hlt⟩ := List.mem_filterMap.mp ht
      obtain ⟨kind, haction, ht⟩ := Lexeme.comment?_eq_some_iff.mp hlt
      exact ⟨l, hl, _, kind, haction, .inr rfl, ht⟩
  obtain ⟨⟨_, text, start⟩, hl, action, kind, rfl, hkind, rfl⟩ := hlexeme
  obtain ⟨before, after, hsource, rfl, hnext⟩ := exists_split_of_mem_cutFrom hl
  refine ⟨before, text, after, action, kind, hsource, ?_, hnext action rfl, hkind, rfl⟩
  simpa [Lexeme.toToken] using hhead

/-- A token that starts like a name is the longest name at its place, and its kind is that of the
whole word. -/
theorem ReadsWords.whole {keywords others : List Entry} (h : lexicon.ReadsWords keywords others)
    {source : String} {t : Token} {c : Char}
    (ht : t ∈ (lexicon.tokenize source).tokens ++ (lexicon.tokenize source).comments)
    (hhead : t.image.toList.head? = some c) (hc : lexicon.names.start c = true) :
    lexicon.names.LongestAt source.toList t.offset t.image.toList
      ∧ lexicon.IsKindOf t.image t.kind := by
  obtain ⟨before, text, after, action, kind, hsource, htext, hnext, hkind, rfl⟩ :=
    exists_next_of_mem ht hhead
  obtain ⟨rfl, hlongest⟩ := h.of_next hc htext hnext before
  have hlookup : lexicon.lookup (String.ofList text) = kind := by simpa using hkind
  have hoffset : (Position.start.advance before).offset = before.length := by
    simp [Position.start]
  constructor
  · show lexicon.names.LongestAt _ (Position.start.advance before).offset
      (String.ofList text).toList
    rwa [hoffset, String.toList_ofList, hsource]
  · show lexicon.IsKindOf (String.ofList text) kind
    rw [← hlookup]
    exact h.isKindOf_lookup _

end Lexicon

/-- **Words are whole.**  Wherever a name can start, the table of a dialect takes the longest name
and looks it up among the spellings of the keywords; and so every token that starts like a name is
the longest name at its place, a keyword if it is spelled like one as a whole, and a name
otherwise. -/
theorem Dialect.words_are_whole (dialect : Dialect) (source : String) :
    (∀ c cs, dialect.lexicon.names.start c = true →
      dialect.lexicon.next (c :: cs) = some
        (.emit (dialect.lexicon.lookup (String.ofList (dialect.lexicon.names.longest c cs))),
          (dialect.lexicon.names.longest c cs).length))
    ∧ ∀ t ∈ (dialect.tokenize source).tokens ++ (dialect.tokenize source).comments,
        ∀ c ∈ t.image.toList.head?, dialect.lexicon.names.start c = true →
          dialect.lexicon.names.LongestAt source.toList t.offset t.image.toList
            ∧ dialect.lexicon.IsKindOf t.image t.kind := by
  obtain ⟨keywords, others, h⟩ := dialect.exists_readsWords
  refine ⟨fun c cs hc => h.next_of_start hc, ?_⟩
  intro t ht c hhead hc
  exact h.whole ht hhead hc

/-- Words that start with a keyword, one of them behind a number. -/
def longerWords : String :=
  "si-nombre 5finn si-no"

/-- The second of them: `fin` is only its head. -/
def finn : Token :=
  ⟨.identifier, "finn", 1, 12, 1, 11, 14, false⟩

/-- A word with `fin` at its head, right behind a number, is taken whole and is a name. -/
theorem finn_is_whole :
    finn ∈ (Dialect.worded.tokenize longerWords).tokens
      ∧ Worded.lexicon.names.LongestAt longerWords.toList 11 "finn".toList
      ∧ Worded.lexicon.IsKindOf "finn" .identifier := by
  have hmem : finn ∈ (Dialect.worded.tokenize longerWords).tokens := by decide +kernel
  refine ⟨hmem, ?_⟩
  exact (Dialect.words_are_whole .worded longerWords).2 finn (List.mem_append_left _ hmem) 'f'
    (by decide) (by decide)

end RobotLang
