/-
  RobotLang.Proofs.Lexing.Matching
  ────────────────────────────────
  **WHAT A PATTERN TAKES IS THE LONGEST OR THE FIRST OF ITS SORT.**

  How much a pattern takes at a place is computed by going over the rest of the
  text.  It can be told without that (`Pattern.Takes`):

      blanks, digits, names   the longest head of the rest that is of the sort
      words                   the first listed spelling that heads the rest
      to the line end         up to the first newline behind the opening
      enclosed                to the end of the first closing behind the opening

  A pattern answers with just that, and with nothing where that is no character
  at all (`Pattern.matchLength_eq_some_iff`).  An answer is never zero and never
  leads beyond the text, so each turn of the lexer passes at least one
  character, and a token ends at its last character (`Lexicon.PassesOver`).
-/
import Mathlib.Data.List.Chain
import Mathlib.Order.Bounds.Basic
import RobotLang.Proofs.Lexing.StrayRuns
import RobotLang.Proofs.Lexing.WholeWord

namespace RobotLang

/-! ## §1. Longest heads and first places. -/

/-- The length of the longest head of the text that is of the sort. -/
def LongestHead (ofSort : List Char → Bool) (rest : List Char) : Nat → Prop :=
  IsGreatest {n | n ≤ rest.length ∧ ofSort (rest.take n) = true}

/-- The first place, from `start` on, with the property. -/
def FirstFrom (start : Nat) (P : Nat → Prop) : Nat → Prop :=
  IsLeast {k | start ≤ k ∧ P k}

/-- The first place from `start` on, counted from there. -/
theorem firstFrom_iff {start k : Nat} {P : Nat → Prop} :
    FirstFrom start P k ↔ ∃ m, IsLeast {m | P (start + m)} m ∧ start + m = k := by
  constructor
  · rintro ⟨⟨hle, hk⟩, hleast⟩
    obtain ⟨m, rfl⟩ := Nat.exists_eq_add_of_le hle
    refine ⟨m, ⟨hk, fun m' hm' => ?_⟩, rfl⟩
    have := hleast ⟨Nat.le_add_right start m', hm'⟩
    omega
  · rintro ⟨m, ⟨hm, hleast⟩, rfl⟩
    refine ⟨⟨Nat.le_add_right start m, hm⟩, ?_⟩
    rintro k ⟨hle, hk⟩
    obtain ⟨m', rfl⟩ := Nat.exists_eq_add_of_le hle
    exact Nat.add_le_add_left (hleast hk) start

/-- A head that all others of the sort are heads of is the longest one. -/
theorem longestHead_iff_of_heads {ofSort : List Char → Bool} {rest head : List Char} {n : Nat}
    (hheads : head <+: rest) (hsort : ofSort head = true)
    (hothers : ∀ other, other <+: rest → ofSort other = true → other <+: head) :
    LongestHead ofSort rest n ↔ head.length = n := by
  have hlongest : LongestHead ofSort rest head.length := by
    refine ⟨⟨hheads.length_le, ?_⟩, ?_⟩
    · rwa [← List.prefix_iff_eq_take.mp hheads]
    · rintro m ⟨hm, hother⟩
      have hle := (hothers _ (List.take_prefix m rest) hother).length_le
      rwa [List.length_take, Nat.min_eq_left hm] at hle
  exact ⟨fun h => hlongest.unique h, fun h => h ▸ hlongest⟩

/-- The longest head of characters of one class is where the class ends. -/
theorem longestHead_all_iff {ofClass : Char → Bool} {rest : List Char} {n : Nat} :
    LongestHead (·.all ofClass) rest n ↔ (rest.takeWhile ofClass).length = n := by
  refine longestHead_iff_of_heads (List.takeWhile_prefix _) List.all_takeWhile ?_
  rintro other ⟨behind, rfl⟩ hall
  rw [List.takeWhile_append_of_pos (List.all_eq_true.mp hall)]
  exact List.prefix_append _ _

/-- The longest name at the front of a text is what the shape of names counts.  Where no name starts
there is none, and its length is given as zero. -/
theorem longestHead_isName_iff {names : NameShape} {rest : List Char} {n : Nat} (hn : 0 < n) :
    LongestHead names.isName rest n ↔ names.length rest = n := by
  by_cases hstarts : ∃ c cs, rest = c :: cs ∧ names.start c = true
  · obtain ⟨c, cs, rfl, hc⟩ := hstarts
    rw [NameShape.length_of_start hc]
    refine longestHead_iff_of_heads (names.longest_heads c cs) ?_ fun other hheads hname => ?_
    · exact (NameShape.longestAt_longest [] hc).isName
    · exact NameShape.heads_longest hname hheads
  · have hzero : names.length rest = 0 := by
      cases rest with
      | nil => rfl
      | cons c cs => exact if_neg fun hc => hstarts ⟨c, cs, rfl, hc⟩
    rw [hzero]
    refine iff_of_false (fun h => hstarts ?_) (Nat.ne_of_lt hn)
    -- the first character of a name starts it
    obtain ⟨⟨hle, hname⟩, -⟩ := h
    cases rest with
    | nil => exact absurd hn (Nat.not_lt.mpr hle)
    | cons c cs =>
      obtain ⟨m, rfl⟩ := Nat.exists_eq_succ_of_ne_zero (Nat.ne_of_gt hn)
      rw [List.take_succ_cons, NameShape.isName, Bool.and_eq_true] at hname
      exact ⟨c, cs, rfl, hname.1⟩

/-- Going on while characters are of a class ends at the end, or at the first of another class. -/
theorem isLeast_takeWhile (ofClass : Char → Bool) (cs : List Char) :
    IsLeast {k | k = cs.length ∨ ∃ c, cs[k]? = some c ∧ ofClass c = false}
      (cs.takeWhile ofClass).length := by
  induction cs with
  | nil => exact ⟨.inl rfl, fun _ _ => Nat.zero_le _⟩
  | cons c cs ih =>
    obtain ⟨hstops, hleast⟩ := ih
    by_cases hc : ofClass c = true
    · rw [List.takeWhile_cons_of_pos hc, List.length_cons]
      refine ⟨by simpa using hstops, ?_⟩
      rintro k hk
      cases k with
      | zero => simp [hc] at hk
      | succ k => exact Nat.succ_le_succ (hleast (by simpa using hk))
    · rw [List.takeWhile_cons_of_neg hc]
      exact ⟨.inr ⟨c, rfl, by simpa using hc⟩, fun _ _ => Nat.zero_le _⟩

/-! ## §2. What a pattern takes. -/

namespace Pattern

/-- The pattern takes `n` characters at the head of a text. -/
def Takes (names : NameShape) (rest : List Char) : Pattern → Nat → Prop
  | .blanks, n => LongestHead (·.all Text.isBlank) rest n
  | .words spellings, n => ∃ earlier word later, spellings = earlier ++ word :: later
      ∧ word.toList <+: rest ∧ (∀ w ∈ earlier, ¬w.toList <+: rest) ∧ n = word.length
  | .name, n => LongestHead names.isName rest n
  | .digits, n => LongestHead (·.all Text.isDigit) rest n
  | .toLineEnd opening, n => opening.toList <+: rest
      ∧ FirstFrom opening.length (fun k => k = rest.length ∨ rest[k]? = some '\n') n
  | .enclosed opening closing, n => opening.toList <+: rest
      ∧ ∃ k, FirstFrom opening.length (fun k => k < rest.length ∧ closing.toList <+: rest.drop k) k
        ∧ n = k + closing.length
  | .anyChar, n => rest ≠ [] ∧ n = 1

variable {names : NameShape} {rest : List Char} {n : Nat}

/-- A word takes the first of its spellings that the text starts with, also where a later one is
longer. -/
theorem rawLength_words_iff {spellings : List String} :
    rawLength names rest (.words spellings) = some n ↔ Takes names rest (.words spellings) n := by
  simp only [rawLength, Takes, Option.map_eq_some_iff, List.find?_eq_some_iff_append,
    List.isPrefixOf_iff_prefix, Bool.not_eq_true', Bool.eq_false_iff, ne_eq]
  constructor
  · rintro ⟨word, ⟨hheads, earlier, later, hsplit, hnot⟩, rfl⟩
    exact ⟨earlier, word, later, hsplit, hheads, hnot, rfl⟩
  · rintro ⟨earlier, word, later, hsplit, hheads, hnot, rfl⟩
    exact ⟨word, ⟨hheads, earlier, later, hsplit, hnot⟩, rfl⟩

/-- A comment to the end of its line takes all before the line break, or all of the text.  Both are
the least place behind the opening where the text or its line ends. -/
theorem rawLength_toLineEnd_iff {opening : String} :
    rawLength names rest (.toLineEnd opening) = some n
      ↔ Takes names rest (.toLineEnd opening) n := by
  by_cases hopens : opening.toList <+: rest
  · have hle := hopens.length_le
    rw [String.length_toList] at hle
    have hleast := isLeast_takeWhile (· != '\n') (rest.drop opening.length)
    -- the same places, counted from the start of the opening and from its end
    have hsame : {m | opening.length + m = rest.length ∨ rest[opening.length + m]? = some '\n'}
        = {m | m = (rest.drop opening.length).length
            ∨ ∃ c, (rest.drop opening.length)[m]? = some c ∧ (c != '\n') = false} := by
      ext m
      simp only [Set.mem_ofPred_eq, List.length_drop, List.getElem?_drop, bne_eq_false_iff_eq,
        exists_eq_right]
      exact or_congr_left (by omega)
    rw [← hsame] at hleast
    rw [rawLength, if_pos (List.isPrefixOf_iff_prefix.mpr hopens), Option.some.injEq, Takes,
      firstFrom_iff]
    constructor
    · exact fun h => ⟨hopens, _, hleast, h⟩
    · rintro ⟨-, m, hm, h⟩
      rwa [hleast.unique hm]
  · simp [rawLength, Takes, hopens]

/-- The search stops at the first closing that starts before the end of the text.  By induction on
the text: a closing stands here, or the first one is that of the rest. -/
theorem isLeast_of_throughClosing {closing cs : List Char}
    (h : throughClosing closing cs = some n) :
    ∃ k, IsLeast {k | k < cs.length ∧ closing <+: cs.drop k} k ∧ k + closing.length = n := by
  induction cs generalizing n with
  | nil => simp [throughClosing] at h
  | cons c cs ih =>
    rw [throughClosing] at h
    split at h
    · next hhere =>
      cases h
      exact ⟨0, ⟨⟨Nat.succ_pos _, List.isPrefixOf_iff_prefix.mp hhere⟩, fun _ _ => Nat.zero_le _⟩,
        Nat.zero_add _⟩
    · next hnot =>
      obtain ⟨m, hm, rfl⟩ := Option.map_eq_some_iff.mp h
      obtain ⟨k, ⟨⟨hk, hcloses⟩, hleast⟩, rfl⟩ := ih hm
      refine ⟨k + 1, ⟨⟨Nat.succ_lt_succ hk, hcloses⟩, ?_⟩, by omega⟩
      rintro j ⟨hj, hcloses'⟩
      cases j with
      | zero => exact absurd (List.isPrefixOf_iff_prefix.mpr hcloses') hnot
      | succ j => exact Nat.succ_le_succ (hleast ⟨Nat.lt_of_succ_lt_succ hj, hcloses'⟩)

/-- A closing that starts before the end of the text is not missed. -/
theorem throughClosing_isSome {closing cs : List Char} {k : Nat} (hk : k < cs.length)
    (hcloses : closing <+: cs.drop k) : (throughClosing closing cs).isSome := by
  induction cs generalizing k with
  | nil => exact absurd hk (Nat.not_lt_zero k)
  | cons c cs ih =>
    rw [throughClosing]
    split
    · rfl
    · next hnot =>
      cases k with
      | zero => exact absurd (List.isPrefixOf_iff_prefix.mpr hcloses) hnot
      | succ k =>
        rw [Option.isSome_map]
        exact ih (Nat.lt_of_succ_lt_succ hk) hcloses

/-- The search for a closing finds the first place where it stands, and takes it along. -/
theorem throughClosing_eq_some_iff {closing cs : List Char} : throughClosing closing cs = some n
    ↔ ∃ k, IsLeast {k | k < cs.length ∧ closing <+: cs.drop k} k ∧ k + closing.length = n := by
  refine ⟨isLeast_of_throughClosing, ?_⟩
  rintro ⟨k, hk, rfl⟩
  obtain ⟨m, hm⟩ := Option.isSome_iff_exists.mp (throughClosing_isSome hk.1.1 hk.1.2)
  obtain ⟨k', hk', rfl⟩ := isLeast_of_throughClosing hm
  rw [hm, hk.unique hk']

/-- An enclosed comment ends with the first closing behind its opening.  One that is never closed is
no comment. -/
theorem rawLength_enclosed_iff {opening closing : String} :
    rawLength names rest (.enclosed opening closing) = some n
      ↔ Takes names rest (.enclosed opening closing) n := by
  by_cases hopens : opening.toList <+: rest
  · have hinside : ∀ m, m < rest.length - opening.length ↔ opening.length + m < rest.length := by
      intro m
      omega
    rw [rawLength, if_pos (List.isPrefixOf_iff_prefix.mpr hopens)]
    simp only [Takes, hopens, true_and, Option.map_eq_some_iff, throughClosing_eq_some_iff,
      List.length_drop, List.drop_drop, hinside, firstFrom_iff, String.length_toList]
    constructor
    · rintro ⟨_, ⟨k, hk, rfl⟩, rfl⟩
      exact ⟨_, ⟨k, hk, rfl⟩, (Nat.add_assoc _ _ _).symm⟩
    · rintro ⟨_, ⟨k, hk, rfl⟩, rfl⟩
      exact ⟨_, ⟨k, hk, rfl⟩, (Nat.add_assoc _ _ _).symm⟩
  · simp [rawLength, Takes, hopens]

/-- A pattern matches with what it takes, unless that is nothing. -/
theorem matchLength_eq_some_iff (pattern : Pattern) :
    pattern.matchLength names rest = some n ↔ 0 < n ∧ pattern.Takes names rest n := by
  rw [matchLength, Option.filter_eq_some_iff, decide_eq_true_eq, and_comm]
  refine and_congr_right fun hpos => ?_
  cases pattern with
  | blanks | digits => rw [Takes, longestHead_all_iff, rawLength, Option.some.injEq]
  | words spellings => exact rawLength_words_iff
  | name => rw [Takes, longestHead_isName_iff hpos, rawLength, Option.some.injEq]
  | toLineEnd opening => exact rawLength_toLineEnd_iff
  | enclosed opening closing => exact rawLength_enclosed_iff
  | anyChar =>
    rw [Takes, rawLength, Option.some.injEq]
    cases rest with
    | nil => simp; omega
    | cons c cs => simp [eq_comm]

/-- The opening and the closing share no character. -/
theorem length_add_length_le_of_enclosed {opening closing : String}
    (h : (enclosed opening closing).matchLength names rest = some n) :
    opening.length + closing.length ≤ n := by
  obtain ⟨-, -, k, ⟨⟨hle, -⟩, -⟩, rfl⟩ := (matchLength_eq_some_iff _).mp h
  exact Nat.add_le_add_right hle _

end Pattern

/-! ## §3. The turns of the lexer. -/

namespace Lexicon

variable {lexicon : Lexicon} {cs : List Char} {i : Nat}

/-- How many characters one turn passes: those that an entry takes, or the one that none takes. -/
def stride (lexicon : Lexicon) (rest : List Char) : Nat :=
  ((lexicon.next rest).map Prod.snd).getD 1

/-- One turn leads from a place to another, further on and inside the text. -/
structure AdvancesTo (lexicon : Lexicon) (cs : List Char) (i j : Nat) : Prop where
  stride : j = i + lexicon.stride (cs.drop i)
  forward : i < j
  inside : j ≤ cs.length

/-- One turn of the cut goes on by what the first entry takes that matches, or by one character. -/
theorem advancesTo_stride (lexicon : Lexicon) (hi : i < cs.length) :
    lexicon.AdvancesTo cs i (i + lexicon.stride (cs.drop i)) := by
  have hstride : 0 < lexicon.stride (cs.drop i)
      ∧ lexicon.stride (cs.drop i) ≤ (cs.drop i).length := by
    rw [stride]
    cases hnext : lexicon.next (cs.drop i) with
    | none => exact ⟨Nat.one_pos, by rw [List.length_drop]; exact Nat.sub_pos_of_lt hi⟩
    | some taken => exact next_pos hnext
  rw [List.length_drop] at hstride
  exact ⟨rfl, by omega, by omega⟩

/-- The places at which the turns start, from `i` on, and then the end of the text. -/
def placesFrom (lexicon : Lexicon) (cs : List Char) (i : Nat) : List Nat :=
  (lexicon.cutFrom 0 (Position.start.advance (cs.take i)) (cs.drop i)).map (·.start.offset)
    ++ [cs.length]

/-- The places at which the turns start, and then the end of the text. -/
def places (lexicon : Lexicon) (cs : List Char) : List Nat :=
  (lexicon.cut cs).map (·.start.offset) ++ [cs.length]

theorem places_eq (lexicon : Lexicon) (cs : List Char) :
    lexicon.places cs = lexicon.placesFrom cs 0 := rfl

/-- One turn of the cut, whether an entry takes the text or none does. -/
theorem cutFrom_of_lt (hi : i < cs.length) (p : Position) : ∃ action,
    lexicon.cutFrom 0 p (cs.drop i)
      = ⟨action, (cs.drop i).take (lexicon.stride (cs.drop i)), p⟩
        :: lexicon.cutFrom 0 (p.advance ((cs.drop i).take (lexicon.stride (cs.drop i))))
          (cs.drop (i + lexicon.stride (cs.drop i))) := by
  rw [stride]
  cases hnext : lexicon.next (cs.drop i) with
  | none => exact ⟨none, cutFrom_of_unmatched hi hnext p⟩
  | some taken =>
    obtain ⟨action, n⟩ := taken
    refine ⟨some action, ?_⟩
    rw [cutFrom_of_next hnext, List.drop_drop]
    rfl

/-- Before the end of the text there is one more turn. -/
theorem placesFrom_of_lt (hi : i < cs.length) : lexicon.placesFrom cs i
    = i :: lexicon.placesFrom cs (i + lexicon.stride (cs.drop i)) := by
  obtain ⟨action, hcut⟩ := lexicon.cutFrom_of_lt hi (Position.start.advance (cs.take i))
  rw [placesFrom, hcut, List.map_cons, offset_advance_take (Nat.le_of_lt hi), advance_take_add]
  rfl

theorem placesFrom_length (lexicon : Lexicon) (cs : List Char) :
    lexicon.placesFrom cs cs.length = [cs.length] := by
  rw [placesFrom, List.drop_length, cutFrom]
  rfl

/-- The places start where the cut does. -/
theorem head?_placesFrom (hi : i ≤ cs.length) : (lexicon.placesFrom cs i).head? = some i := by
  rcases Nat.lt_or_eq_of_le hi with hlt | rfl
  · rw [placesFrom_of_lt hlt]
    rfl
  · rw [placesFrom_length]
    rfl

/-- From any place on, one turn follows the other up to the end of the text. -/
theorem isChain_placesFrom (hi : i ≤ cs.length) :
    (lexicon.placesFrom cs i).IsChain (lexicon.AdvancesTo cs) := by
  -- on how much of the text is left
  induction hn : cs.length - i using Nat.strongRecOn generalizing i with
  | _ n ih =>
    rcases Nat.lt_or_eq_of_le hi with hlt | rfl
    · have hturn := lexicon.advancesTo_stride hlt
      have hforward := hturn.forward
      rw [placesFrom_of_lt hlt]
      refine (ih _ (by omega) hturn.inside rfl).cons fun j hj => ?_
      rw [head?_placesFrom hturn.inside, Option.mem_some_iff] at hj
      exact hj ▸ hturn
    · rw [placesFrom_length]
      exact .singleton _

/-- The token is the text that an entry takes where the token starts, and it ends at the last
character of that text. -/
structure TakenAs (lexicon : Lexicon) (cs : List Char) (make : Kind → Action) (t : Token) :
    Prop where
  taken : lexicon.next (cs.drop t.offset) = some (make t.kind, t.image.length)
  nonempty : 0 < t.image.length
  ends : t.endOffset + 1 = t.offset + t.image.length

/-- A lexeme of the cut is a token that an entry has taken as a whole. -/
theorem takenAs_toToken {l : Lexeme} (hl : l ∈ lexicon.cut cs) {make : Kind → Action} {kind : Kind}
    (haction : l.action = some (make kind)) : lexicon.TakenAs cs make (l.toToken kind) := by
  obtain ⟨-, hnext⟩ := Visits.of_mem_cutFrom .start hl
  have hpos := List.length_pos_iff.mpr ((lexicon.consecutive_cut cs).text_ne_nil hl)
  have himage : (l.toToken kind).image.length = l.text.length := String.length_ofList
  rw [haction] at hnext
  constructor
  · rw [himage]
    exact hnext
  · rwa [himage]
  · rw [himage]
    show l.start.offset + l.text.length - 1 + 1 = l.start.offset + l.text.length
    omega

/-- The lexer goes over the source turn by turn, from the start to the end, and makes its tokens and
comments of what the entries take. -/
structure PassesOver (lexicon : Lexicon) (source : String) : Prop where
  starts : (lexicon.places source.toList).head? = some 0
  turns : (lexicon.places source.toList).IsChain (lexicon.AdvancesTo source.toList)
  tokens : ∀ t ∈ (lexicon.tokenize source).tokens.dropLast,
    lexicon.TakenAs source.toList .emit t
  comments : ∀ t ∈ (lexicon.tokenize source).comments, lexicon.TakenAs source.toList .comment t

/-- The lexer passes over any source, whatever its table: turn by turn from the start to the end,
and with an entry for every token and comment. -/
theorem passesOver (lexicon : Lexicon) (source : String) : lexicon.PassesOver source := by
  constructor
  case starts =>
    rw [places_eq]
    exact head?_placesFrom (Nat.zero_le _)
  case turns =>
    rw [places_eq]
    exact isChain_placesFrom (Nat.zero_le _)
  case tokens =>
    intro t ht
    rw [dropLast_tokens] at ht
    obtain ⟨l, hl, ht⟩ := List.mem_filterMap.mp ht
    obtain ⟨kind, haction, rfl⟩ := Lexeme.token?_eq_some_iff.mp ht
    exact takenAs_toToken hl haction
  case comments =>
    intro t ht
    obtain ⟨l, hl, ht⟩ := List.mem_filterMap.mp ht
    obtain ⟨kind, haction, rfl⟩ := Lexeme.comment?_eq_some_iff.mp ht
    exact takenAs_toToken hl haction

end Lexicon

/-- **What a pattern takes is the longest or the first of its sort.**  At any place of any text a
pattern matches with the characters that are its own there, if these are any, and never beyond the
text; an opening and a closing share no character, so `/*/` is no comment.  Hence, whatever the
table, each turn of the lexer passes at least one character, and a token that it makes ends at the
last one of those that an entry took. -/
theorem matches_are_exact :
    (∀ (names : NameShape) (pattern : Pattern) (cs : List Char) (place n : Nat),
      (pattern.matchLength names (cs.drop place) = some n
          ↔ 0 < n ∧ pattern.Takes names (cs.drop place) n)
        ∧ (pattern.matchLength names (cs.drop place) = some n → n ≤ cs.length - place))
    ∧ (∀ names : NameShape, (Pattern.enclosed "/*" "*/").matchLength names "/*/".toList = none)
    ∧ ∀ (lexicon : Lexicon) (source : String), lexicon.PassesOver source := by
  refine ⟨fun names pattern cs place n => ⟨pattern.matchLength_eq_some_iff, fun h => ?_⟩,
    fun names => ?_, Lexicon.passesOver⟩
  · have hle := Pattern.matchLength_le h
    rwa [List.length_drop] at hle
  · rw [Option.eq_none_iff_forall_ne_some]
    intro n hn
    -- a match would be as long as both signs together
    have hlong := Pattern.length_add_length_le_of_enclosed hn
    have hshort := Pattern.matchLength_le hn
    have hlengths : "/*".length + "*/".length = 4 ∧ "/*/".toList.length = 3 := by decide
    omega

/-- A comment in whose first characters a closing seems to stand. -/
def overlapping : String :=
  " /*/ */"

/-- An opening and a closing that share a character do not close the comment: it is taken up to the
next closing. -/
theorem overlapping_taken :
    (Pattern.enclosed "/*" "*/").matchLength Braced.lexicon.names (overlapping.toList.drop 1)
        = some 6
      ∧ (Pattern.enclosed "/*" "*/").Takes Braced.lexicon.names (overlapping.toList.drop 1) 6
      ∧ 6 ≤ overlapping.toList.length - 1
      ∧ [0, 1, 7].IsChain (Braced.lexicon.AdvancesTo overlapping.toList) := by
  have hmatch : (Pattern.enclosed "/*" "*/").matchLength Braced.lexicon.names
      (overlapping.toList.drop 1) = some 6 := by
    decide +kernel
  have hplaces : Braced.lexicon.places overlapping.toList = [0, 1, 7] := by
    decide +kernel
  obtain ⟨hexact, -, hpasses⟩ := matches_are_exact
  obtain ⟨hiff, hle⟩ := hexact Braced.lexicon.names (.enclosed "/*" "*/") overlapping.toList 1 6
  exact ⟨hmatch, (hiff.mp hmatch).2, hle hmatch, hplaces ▸ (hpasses _ overlapping).turns⟩

end RobotLang
