/-
  RobotLang.Proofs.Lexing.Keyword
  ───────────────────────────────
  **A TOKEN SPELLED LIKE A KEYWORD IS THAT KEYWORD.**

  Keywords stand at the head of a table, and a shorter one may be the head of
  a longer one (`si` of `si-no`).  A table keeps them apart when no spelling
  starts with a spelling of an earlier entry, nor with another one of its own
  entry.  Then the kind of a token follows from its image:

      t.image ∈ spellings of an entry for `kind`  →  t.kind = kind

  The other way round nothing is asked of the table: a kind that only one list
  of words stands for is spelled by one of them (`image_of_kind`), and a kind
  that only runs of digits stand for by digits (`digits_of_kind`).
-/
import RobotLang.Proofs.Lexing.Token

namespace RobotLang

/-- The spellings that an entry lists. -/
def Entry.spellings (entry : Entry) : List String :=
  match entry.pattern with
  | .words spellings => spellings
  | _ => []

/-- The kind that an entry for a keyword emits. -/
def Entry.keywordKind? : Entry → Option Kind
  | ⟨.words _, .emit kind, true⟩ => some kind
  | _ => none

theorem Entry.eq_keyword {entry : Entry} {kind : Kind} (h : entry.keywordKind? = some kind) :
    entry = .keyword entry.spellings kind := by
  unfold keywordKind? at h
  split at h
  · cases h
    rfl
  · simp at h

/-- One word is the head of another. -/
def Heads (word word' : String) : Prop :=
  word.toList <+: word'.toList

instance (word word' : String) : Decidable (Heads word word') :=
  inferInstanceAs (Decidable (word.toList <+: word'.toList))

/-- The keywords can be told apart from the head of the table on. -/
structure KeepsApart (keywords : List Entry) : Prop where
  isKeyword : ∀ entry ∈ keywords, entry.keywordKind?.isSome
  /-- No spelling starts with one of an earlier entry. -/
  earlier : keywords.Pairwise fun entry entry' =>
    ∀ word ∈ entry.spellings, ∀ word' ∈ entry'.spellings, ¬Heads word word'
  /-- No spelling starts with another one of its entry. -/
  own : ∀ entry ∈ keywords, ∀ word ∈ entry.spellings, ∀ word' ∈ entry.spellings,
    Heads word word' → word = word'

instance (keywords : List Entry) : Decidable (KeepsApart keywords) :=
  decidable_of_iff
    ((∀ entry ∈ keywords, entry.keywordKind?.isSome)
      ∧ (keywords.Pairwise fun entry entry' =>
          ∀ word ∈ entry.spellings, ∀ word' ∈ entry'.spellings, ¬Heads word word')
      ∧ ∀ entry ∈ keywords, ∀ word ∈ entry.spellings, ∀ word' ∈ entry.spellings,
          Heads word word' → word = word')
    ⟨fun ⟨h₁, h₂, h₃⟩ => ⟨h₁, h₂, h₃⟩, fun h => ⟨h.isKeyword, h.earlier, h.own⟩⟩

/-- A keyword entry takes one of its spellings, or a longer name. -/
theorem Entry.apply_keyword {shape : NameShape} {spellings : List String} {kind : Kind}
    {cs : List Char} {action : Action} {n : Nat}
    (h : (Entry.keyword spellings kind).apply shape cs = some (action, n)) :
    ∃ word ∈ spellings, word.toList <+: cs ∧ word.length ≤ n
      ∧ (n = word.length → action = .emit kind) := by
  obtain ⟨m, hm, he⟩ := Option.map_eq_some_iff.mp h
  obtain ⟨hraw, _⟩ := Option.filter_eq_some_iff.mp hm
  obtain ⟨word, hfind, rfl⟩ := Option.map_eq_some_iff.mp hraw
  refine ⟨word, List.mem_of_find?_eq_some hfind, ?_, ?_⟩
  · simpa using List.find?_some hfind
  · split at he
    · next hlonger =>
      simp only [Bool.and_eq_true, decide_eq_true_eq] at hlonger
      cases he
      exact ⟨by omega, fun hn => by omega⟩
    · cases he
      exact ⟨Nat.le_refl _, fun _ => rfl⟩

/-- A keyword entry applies to a text that starts with one of its spellings. -/
theorem Entry.apply_keyword_isSome {shape : NameShape} {spellings : List String} {kind : Kind}
    {cs : List Char} {word : String} (hword : word ∈ spellings) (hcs : word.toList <+: cs)
    (hpos : ∀ word ∈ spellings, word ≠ "") :
    ((Entry.keyword spellings kind).apply shape cs).isSome := by
  have hfind : (spellings.find? fun w => w.toList.isPrefixOf cs).isSome := by
    rw [List.find?_isSome]
    exact ⟨word, hword, List.isPrefixOf_iff_prefix.mpr hcs⟩
  obtain ⟨first, hfirst⟩ := Option.isSome_iff_exists.mp hfind
  have hlen : 0 < first.length := by
    have := hpos first (List.mem_of_find?_eq_some hfirst)
    rw [← String.length_toList, List.length_pos_iff]
    simpa using this
  simp [Entry.apply, Entry.keyword, Pattern.matchLength, Pattern.rawLength, hfirst, hlen,
    Option.filter]

namespace Lexicon

variable {lexicon : Lexicon} {keywords others : List Entry}

/-- A text that an entry takes a keyword's spelling of is that keyword.  The answer comes from its
entry or from one before it, and the spellings of those before it are no heads of this one. -/
theorem kind_of_next_keyword (hkeywords : KeepsApart keywords)
    (hentries : lexicon.entries = .skip .blanks :: keywords ++ others)
    {entry : Entry} {kind kind' : Kind} {word : String} {after : List Char}
    (hmem : entry ∈ keywords) (hentry : entry.keywordKind? = some kind)
    (hword : word ∈ entry.spellings) (hpos : ∀ word ∈ entry.spellings, word ≠ "")
    (h : lexicon.next (word.toList ++ after) = some (.emit kind', word.length)) :
    kind' = kind := by
  obtain ⟨before, later, rfl⟩ := List.append_of_mem hmem
  -- the answer comes from the entry itself or from one before it
  have hsome : ((Entry.skip .blanks :: before ++ [entry]).findSome? fun e =>
      e.apply lexicon.names (word.toList ++ after)).isSome := by
    rw [List.findSome?_isSome_iff]
    refine ⟨entry, by simp, ?_⟩
    rw [Entry.eq_keyword hentry]
    exact Entry.apply_keyword_isSome hword (List.prefix_append _ _) hpos
  obtain ⟨answer, hanswer⟩ := Option.isSome_iff_exists.mp hsome
  have hsplit : lexicon.entries = (.skip .blanks :: before ++ [entry]) ++ (later ++ others) := by
    simp [hentries]
  have heq : answer = (.emit kind', word.length) := by
    rw [next, hsplit, List.findSome?_append, hanswer] at h
    simpa using h
  rw [heq] at hanswer
  obtain ⟨found, hfound, happly⟩ := List.exists_of_findSome?_eq_some hanswer
  -- whatever spelling it took is a head of the word
  have hhead {spellings : List String} {k : Kind}
      (happly : (Entry.keyword spellings k).apply lexicon.names (word.toList ++ after)
        = some (.emit kind', word.length)) :
      ∃ w ∈ spellings, Heads w word ∧ (word.length = w.length → kind' = k) := by
    obtain ⟨w, hw, hwcs, hle, hkind⟩ := Entry.apply_keyword happly
    refine ⟨w, hw, ?_, fun hlen => by simpa using hkind hlen⟩
    refine List.prefix_of_prefix_length_le hwcs (List.prefix_append _ _) ?_
    rwa [String.length_toList, String.length_toList]
  rw [List.mem_append, List.mem_cons, List.mem_singleton] at hfound
  rcases hfound with (rfl | hfound) | rfl
  · obtain ⟨_, _, he⟩ := Option.map_eq_some_iff.mp happly
    simp [Entry.skip] at he
  · obtain ⟨k, hk⟩ := Option.isSome_iff_exists.mp (hkeywords.isKeyword found (by simp [hfound]))
    rw [Entry.eq_keyword hk] at happly
    obtain ⟨w, hw, hheads, _⟩ := hhead happly
    have hpair := (List.pairwise_append.mp hkeywords.earlier).2.2 found hfound entry (by simp)
    exact absurd hheads (hpair w hw word hword)
  · rw [Entry.eq_keyword hentry] at happly
    obtain ⟨w, hw, hheads, hkind⟩ := hhead happly
    have hsame := hkeywords.own found hmem w hw word hword hheads
    exact hkind (by rw [hsame])

/-- A token spelled like a keyword is that keyword. -/
theorem kind_of_keyword_image (hkeywords : KeepsApart keywords)
    (hentries : lexicon.entries = .skip .blanks :: keywords ++ others)
    {source : String} {t : Token} (ht : t ∈ lexicon.bodyTokens source)
    {entry : Entry} {kind : Kind} (hmem : entry ∈ keywords)
    (hentry : entry.keywordKind? = some kind)
    (hpos : ∀ word ∈ entry.spellings, word ≠ "") (himage : t.image ∈ entry.spellings) :
    t.kind = kind := by
  obtain ⟨before, text, after, k, _, hnext, rfl⟩ := exists_lexeme_of_mem_bodyTokens ht
  have hword : lexicon.next ((String.ofList text).toList ++ after)
      = some (.emit k, (String.ofList text).length) := by
    simpa using hnext
  exact kind_of_next_keyword hkeywords hentries hmem hentry himage hpos hword

/-- The text of a token that is no name is what an entry for its kind takes. -/
theorem exists_match_of_mem {source : String} {t : Token} (ht : t ∈ lexicon.bodyTokens source)
    (hname : t.kind ≠ .identifier) :
    ∃ entry ∈ lexicon.entries, entry.action = .emit t.kind ∧ ∃ after,
      entry.pattern.matchLength lexicon.names (t.image.toList ++ after)
        = some t.image.toList.length := by
  obtain ⟨before, text, after, kind, _, hnext, rfl⟩ := exists_lexeme_of_mem_bodyTokens ht
  obtain ⟨entry, hmem, happly⟩ := List.exists_of_findSome?_eq_some hnext
  obtain ⟨n, hmatch, hn⟩ := Option.map_eq_some_iff.mp happly
  split at hn
  · -- a longer name would have been taken instead
    obtain ⟨haction, _⟩ := Prod.mk.inj hn
    exact absurd (Action.emit.inj haction).symm hname
  · obtain ⟨haction, rfl⟩ := Prod.mk.inj hn
    refine ⟨entry, hmem, haction, after, ?_⟩
    show entry.pattern.matchLength _ ((String.ofList text).toList ++ after)
      = some (String.ofList text).toList.length
    rwa [String.toList_ofList]

/-- A token of a kind that only these words stand for is one of them. -/
theorem image_of_kind {source : String} {t : Token} (ht : t ∈ lexicon.bodyTokens source)
    {kind : Kind} {spellings : List String} (hkind : t.kind = kind) (hname : kind ≠ .identifier)
    (hwords : ∀ entry ∈ lexicon.entries, entry.action = .emit kind →
      entry.pattern = .words spellings) : t.image ∈ spellings := by
  subst hkind
  obtain ⟨entry, hmem, haction, after, hmatch⟩ := exists_match_of_mem ht hname
  rw [hwords entry hmem haction] at hmatch
  obtain ⟨word, hfind, hlen⟩ :=
    Option.map_eq_some_iff.mp (Option.filter_eq_some_iff.mp hmatch).1
  have hprefix : word.toList <+: t.image.toList ++ after := by
    simpa using List.find?_some hfind
  have htext : word.toList = t.image.toList := by
    have hchars : word.toList.length = t.image.toList.length := by
      rw [String.length_toList, hlen]
    exact (List.prefix_of_prefix_length_le hprefix (List.prefix_append _ _)
      (Nat.le_of_eq hchars)).eq_of_length hchars
  rw [← String.toList_inj.mp htext]
  exact List.mem_of_find?_eq_some hfind

/-- A token of a kind that only runs of digits stand for is one of them. -/
theorem digits_of_kind {source : String} {t : Token} (ht : t ∈ lexicon.bodyTokens source)
    {kind : Kind} (hkind : t.kind = kind) (hname : kind ≠ .identifier)
    (hdigits : ∀ entry ∈ lexicon.entries, entry.action = .emit kind →
      entry.pattern = .digits) :
    t.image ≠ "" ∧ t.image.toList.all Text.isDigit = true := by
  subst hkind
  obtain ⟨entry, hmem, haction, after, hmatch⟩ := exists_match_of_mem ht hname
  have hpos := Pattern.matchLength_pos hmatch
  rw [hdigits entry hmem haction] at hmatch
  have hrun : ((t.image.toList ++ after).takeWhile Text.isDigit).length
      = t.image.toList.length := Option.some.inj (Option.filter_eq_some_iff.mp hmatch).1
  refine ⟨fun himage => by simp [himage] at hpos, ?_⟩
  -- a run of digits that is as long as the text is the text
  have htext : (t.image.toList ++ after).takeWhile Text.isDigit = t.image.toList :=
    (List.prefix_of_prefix_length_le (List.takeWhile_prefix _) (List.prefix_append _ _)
      (Nat.le_of_eq hrun)).eq_of_length hrun
  rw [← htext]
  exact List.all_takeWhile

end Lexicon
end RobotLang
