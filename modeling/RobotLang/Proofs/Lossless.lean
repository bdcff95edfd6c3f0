/-
  RobotLang.Proofs.Lossless
  ─────────────────────────
  **A TREE AND ITS COMMENTS HOLD THE WHOLE SOURCE BUT BLANKS.**

  The lexemes of a text lie one behind the other.  When none of them is a stray
  and the table skips nothing but blanks,

      text  =  tokens and comments in the order of their offsets,
               with blanks before, between and behind them

  and no character stands in two of them (`Lexicon.tokenize_lossless`).  The
  tree of a braced program has all the tokens of its source, in their order, so
  the same holds of the tree and its comments (`Braced.parse_lossless`).
-/
import RobotLang.Proofs.Braced.FirstImpossible
import RobotLang.Proofs.Lexing.Tiling

namespace RobotLang

/-! ## §1. What it means that nothing is lost. -/

/-- `cs` is the images of `pieces` one behind the other, with blanks anywhere
between them. -/
inductive Woven : (pieces : List Token) → (cs : List Char) → Prop
  | done : Woven [] []
  | blank {pieces : List Token} {c : Char} {cs : List Char} (hc : Text.isBlank c = true)
      (h : Woven pieces cs) : Woven pieces (c :: cs)
  | piece {t : Token} {pieces : List Token} {cs : List Char} (h : Woven pieces cs) :
      Woven (t :: pieces) (t.image.toList ++ cs)

instance (t : Token) (i : Nat) : Decidable (t.Covers i) :=
  inferInstanceAs (Decidable (_ ∧ _))

/-- How many of the pieces the character at `i` stands in. -/
def timesCovered (pieces : List Token) (i : Nat) : Nat :=
  pieces.countP (·.Covers i)

/-- Tokens and comments together, in the order in which they start. -/
def inOrder (tokens comments : List Token) : List Token :=
  tokens.merge comments fun t u => t.offset ≤ u.offset

/-- Tokens and comments hold the text `cs` but for blanks between them. -/
structure Lossless (cs : List Char) (tokens comments : List Token) : Prop where
  tokens_ordered : tokens.Pairwise (·.offset < ·.offset)
  comments_ordered : comments.Pairwise (·.offset < ·.offset)
  spans : ∀ t ∈ tokens ++ comments, t.SpanOf cs
  once : ∀ i c, cs[i]? = some c → timesCovered (tokens ++ comments) i = 1
    ∨ timesCovered (tokens ++ comments) i = 0 ∧ Text.isBlank c = true
  recovered : Woven (inOrder tokens comments) cs

/-- Blanks may stand in front of anything. -/
theorem Woven.blanks {pieces : List Token} {gap cs : List Char}
    (hgap : ∀ c ∈ gap, Text.isBlank c = true) (h : Woven pieces cs) :
    Woven pieces (gap ++ cs) := by
  induction gap with
  | nil => exact h
  | cons c gap ih =>
    obtain ⟨hc, hgap⟩ := List.forall_mem_cons.mp hgap
    exact .blank hc (ih hgap)

/-- Where no two pieces overlap, a character stands in one of them at most.  By induction on the
pieces: if the first one has it, then none of those behind it has. -/
theorem timesCovered_le_one {pieces : List Token} (h : pieces.Pairwise Token.Apart) (i : Nat) :
    timesCovered pieces i ≤ 1 := by
  induction pieces with
  | nil => exact Nat.zero_le 1
  | cons t pieces ih =>
    obtain ⟨hhead, htail⟩ := List.pairwise_cons.mp h
    unfold timesCovered
    rw [List.countP_cons]
    by_cases ht : t.Covers i
    · -- then it stands in no other
      have hnone : pieces.countP (·.Covers i) = 0 := by
        refine List.countP_eq_zero.mpr ?_
        intro u hu hcovers
        have hapart := hhead u hu
        have hcovers := of_decide_eq_true hcovers
        unfold Token.Apart at hapart
        unfold Token.Covers at ht hcovers
        omega
      simp [hnone, ht]
    · rw [if_neg (by simpa using ht)]
      exact ih htail

/-- A place inside a piece is covered. -/
theorem timesCovered_pos {pieces : List Token} {i : Nat} (h : ∃ t ∈ pieces, t.Covers i) :
    0 < timesCovered pieces i := by
  obtain ⟨t, ht, hcovers⟩ := h
  exact List.countP_pos_iff.mpr ⟨t, ht, decide_eq_true hcovers⟩

/-! ## §2. The lexemes of a text, as pieces and blanks. -/

namespace Lexeme

/-- The token or the comment that the lexeme stands for. -/
def piece? (l : Lexeme) : Option Token :=
  l.token?.or l.comment?

/-- The pieces are the tokens and the comments, in another order. -/
theorem perm_filterMap_piece? (ls : List Lexeme) :
    (ls.filterMap piece?).Perm (ls.filterMap token? ++ ls.filterMap comment?) := by
  induction ls with
  | nil => exact .nil
  | cons l ls ih =>
    obtain ⟨action, text, start⟩ := l
    cases action with
    | none => exact ih
    | some action =>
      cases action with
      | skip => exact ih
      | emit kind => exact ih.cons _
      | comment kind => exact (ih.cons _).trans List.perm_middle.symm

/-- Without strays, and with blanks alone skipped, the text of the lexemes is
the text of the pieces and blanks. -/
theorem woven_filterMap_piece? {ls : List Lexeme} (hstray : ∀ l ∈ ls, l.isStray = false)
    (hskip : ∀ l ∈ ls, l.action = some .skip → ∀ c ∈ l.text, Text.isBlank c = true) :
    Woven (ls.filterMap piece?) (ls.flatMap text) := by
  induction ls with
  | nil => exact .done
  | cons l ls ih =>
    obtain ⟨hstray, hstrays⟩ := List.forall_mem_cons.mp hstray
    obtain ⟨hskip, hskips⟩ := List.forall_mem_cons.mp hskip
    have hrest := ih hstrays hskips
    obtain ⟨action, text, start⟩ := l
    -- what is written is the text of the lexeme
    have hpiece (kind : Kind) :
        Woven (toToken ⟨action, text, start⟩ kind :: ls.filterMap piece?)
          (text ++ ls.flatMap Lexeme.text) := by
      have h := Woven.piece (t := toToken ⟨action, text, start⟩ kind) hrest
      rwa [show (toToken ⟨action, text, start⟩ kind).image.toList = text
        from String.toList_ofList] at h
    rw [List.flatMap_cons]
    cases action with
    | none => simp [isStray] at hstray
    | some action =>
      cases action with
      | skip => exact hrest.blanks (hskip rfl)
      | emit kind => exact hpiece kind
      | comment kind => exact hpiece kind

theorem exists_kind_of_token? {l : Lexeme} {t : Token} (h : l.token? = some t) :
    ∃ kind, t = l.toToken kind := by
  obtain ⟨kind, -, ht⟩ := token?_eq_some_iff.mp h
  exact ⟨kind, ht⟩

theorem exists_kind_of_comment? {l : Lexeme} {t : Token} (h : l.comment? = some t) :
    ∃ kind, t = l.toToken kind := by
  obtain ⟨kind, -, ht⟩ := comment?_eq_some_iff.mp h
  exact ⟨kind, ht⟩

/-- A piece is a lexeme taken as a token of some kind. -/
theorem exists_kind_of_piece? {l : Lexeme} {t : Token} (h : l.piece? = some t) :
    ∃ kind, t = l.toToken kind := by
  rcases Option.or_eq_some_iff.mp h with h | ⟨-, h⟩
  · exact exists_kind_of_token? h
  · exact exists_kind_of_comment? h

end Lexeme

/-- Sorted lists merge to the one sorted list of all that they hold.  Offsets tell pieces apart, so
a list that is sorted by them is determined by what it holds. -/
theorem inOrder_eq {tokens comments pieces : List Token}
    (hperm : pieces.Perm (tokens ++ comments)) (hpieces : pieces.Pairwise (·.offset < ·.offset))
    (htokens : tokens.Pairwise (·.offset < ·.offset))
    (hcomments : comments.Pairwise (·.offset < ·.offset)) :
    inOrder tokens comments = pieces := by
  have hmerged : (inOrder tokens comments).Perm pieces :=
    (List.merge_perm_append _).trans hperm.symm
  have hsorted : (inOrder tokens comments).Pairwise
      (fun t u => decide (t.offset ≤ u.offset) = true) := by
    refine List.pairwise_merge ?_ ?_ tokens comments ?_ ?_
    · simpa using fun t u v => Nat.le_trans
    · simpa using fun t u => Nat.le_total _ _
    · simpa using htokens.imp Nat.le_of_lt
    · simpa using hcomments.imp Nat.le_of_lt
  -- two pieces at one offset are one piece
  have hdistinct : pieces.Pairwise (·.offset ≠ ·.offset) := hpieces.imp Nat.ne_of_lt
  have hsymm : Std.Symm fun t u : Token => t.offset ≠ u.offset := ⟨fun _ _ => Ne.symm⟩
  refine hmerged.eq_of_pairwise ?_ (hsorted.imp of_decide_eq_true) (hpieces.imp Nat.le_of_lt)
  intro t u ht hu htu hut
  by_contra hne
  exact hdistinct.forall (hmerged.mem_iff.mp ht) hu hne (Nat.le_antisymm htu hut)

/-! ## §3. A text without strays. -/

namespace Lexicon

variable {lexicon : Lexicon}

/-- The table skips nothing but blanks. -/
def SkipsOnlyBlanks (lexicon : Lexicon) : Prop :=
  ∀ entry ∈ lexicon.entries, entry.action = .skip → entry.pattern = .blanks

instance (lexicon : Lexicon) : Decidable lexicon.SkipsOnlyBlanks :=
  inferInstanceAs (Decidable (∀ entry ∈ lexicon.entries, _))

/-- What is skipped at the head of a text is blank. -/
theorem isBlank_of_next (h : lexicon.SkipsOnlyBlanks) {text after : List Char}
    (hnext : lexicon.next (text ++ after) = some (.skip, text.length)) :
    ∀ c ∈ text, Text.isBlank c = true := by
  obtain ⟨entry, hmem, happly⟩ := List.exists_of_findSome?_eq_some hnext
  obtain ⟨n, hmatch, hn⟩ := Option.map_eq_some_iff.mp happly
  split at hn
  · simp at hn
  obtain ⟨haction, rfl⟩ := Prod.mk.inj hn
  rw [h entry hmem haction] at hmatch
  have hlength : ((text ++ after).takeWhile Text.isBlank).length = text.length :=
    Option.some.inj (Option.filter_eq_some_iff.mp hmatch).1
  -- so the blanks at the head are the text
  have htext : (text ++ after).takeWhile Text.isBlank = text := by
    rw [List.prefix_iff_eq_take.mp (List.takeWhile_prefix Text.isBlank), hlength,
      List.take_left]
  rw [← List.all_eq_true, ← htext]
  exact List.all_takeWhile

/-- A table that skips only blanks skips no other lexeme. -/
theorem isBlank_of_mem_cut (h : lexicon.SkipsOnlyBlanks) {cs : List Char} {l : Lexeme}
    (hl : l ∈ lexicon.cut cs) (haction : l.action = some .skip) :
    ∀ c ∈ l.text, Text.isBlank c = true := by
  obtain ⟨_, _, -, -, hnext⟩ := exists_split_of_mem_cutFrom hl
  exact isBlank_of_next h (hnext .skip haction)

/-- A character of the text is one of the lexeme that it stands in. -/
theorem mem_text_of_mem_cut {cs : List Char} {l : Lexeme} (hl : l ∈ lexicon.cut cs) {i : Nat}
    (hlow : l.start.offset ≤ i) (hhigh : i < l.start.offset + l.text.length) {c : Char}
    (hc : cs[i]? = some c) : c ∈ l.text := by
  obtain ⟨before, after, rfl, hstart, -⟩ := exists_split_of_mem_cutFrom hl
  have hoffset : l.start.offset = before.length := by
    rw [hstart, Position.advance_offset]
    exact Nat.zero_add _
  rw [List.append_assoc, List.getElem?_append_right (by omega),
    List.getElem?_append_left (by omega)] at hc
  exact List.mem_of_getElem? hc

/-- Where nothing is reported no lexeme is a stray. -/
theorem isStray_of_errors_eq_nil {source : String} (herrors : (lexicon.tokenize source).errors = [])
    {l : Lexeme} (hl : l ∈ lexicon.cut source.toList) : l.isStray = false := by
  rw [Bool.eq_false_iff]
  intro hstray
  have hpos := List.length_pos_iff.mpr ((lexicon.consecutive_cut source.toList).text_ne_nil hl)
  obtain ⟨offset, stop, -, -, -, hreported⟩ :=
    reportedAt_of_mem hl hstray (Nat.le_refl l.start.offset) (by omega)
  rw [herrors] at hreported
  exact absurd hreported List.not_mem_nil

/-- What some of the lexemes become starts in the order of the text. -/
theorem pairwise_offset_filterMap {cs : List Char} {make : Lexeme → Option Token}
    (hmake : ∀ {l t}, make l = some t → ∃ kind, t = l.toToken kind) :
    ((lexicon.cut cs).filterMap make).Pairwise (·.offset < ·.offset) := by
  have hspans : ∀ t ∈ (lexicon.cut cs).filterMap make, t.SpanOf cs := by
    intro t ht
    obtain ⟨l, hl, hlt⟩ := List.mem_filterMap.mp ht
    obtain ⟨kind, rfl⟩ := hmake hlt
    exact spanOf_of_mem hl kind
  exact Token.pairwise_offset_lt hspans (pairwise_filterMap fun _ _ => hmake)

/-- Tokens and comments are apart from each other. -/
theorem pairwise_apart (lexicon : Lexicon) (source : String) :
    (lexicon.bodyTokens source ++ (lexicon.tokenize source).comments).Pairwise Token.Apart := by
  have hpieces : ((lexicon.cut source.toList).filterMap Lexeme.piece?).Pairwise Token.Apart :=
    (pairwise_filterMap fun _ _ => Lexeme.exists_kind_of_piece?).imp .inl
  exact (Lexeme.perm_filterMap_piece? _).pairwise hpieces fun h => Or.symm h

/-- **A text without strays is its tokens, its comments and blanks**, when the
table skips nothing else. -/
theorem tokenize_lossless (hskip : lexicon.SkipsOnlyBlanks) {source : String}
    (herrors : (lexicon.tokenize source).errors = []) :
    Lossless source.toList (lexicon.bodyTokens source) (lexicon.tokenize source).comments where
  tokens_ordered := pairwise_offset_filterMap Lexeme.exists_kind_of_token?
  comments_ordered := pairwise_offset_filterMap Lexeme.exists_kind_of_comment?
  spans := by
    intro t ht
    obtain ⟨l, hl, kind, rfl⟩ := exists_lexeme_of_mem_append ht
    exact spanOf_of_mem hl kind
  once := by
    intro i c hc
    have hle := timesCovered_le_one (lexicon.pairwise_apart source) i
    obtain ⟨hi, -⟩ := List.getElem?_eq_some_iff.mp hc
    rcases lexicon.covered_or_skipped_or_reported source hi with
      hcovered | ⟨l, hl, haction, hlow, hhigh, -⟩ | ⟨_, _, -, -, -, hreported⟩
    · have hpos := timesCovered_pos hcovered
      exact .inl (by omega)
    -- skipped, and so a blank; whether a token has it too need not be known
    · have hblank := isBlank_of_mem_cut hskip hl haction c (mem_text_of_mem_cut hl hlow hhigh hc)
      by_cases hzero : timesCovered
          (lexicon.bodyTokens source ++ (lexicon.tokenize source).comments) i = 0
      · exact .inr ⟨hzero, hblank⟩
      · exact .inl (by omega)
    · rw [herrors] at hreported
      exact absurd hreported List.not_mem_nil
  recovered := by
    have hwoven := Lexeme.woven_filterMap_piece?
      (fun _ hl => isStray_of_errors_eq_nil herrors hl) fun _ => isBlank_of_mem_cut hskip
    -- putting tokens and comments in order again gives back the pieces of the cut
    have horder : inOrder (lexicon.bodyTokens source) (lexicon.tokenize source).comments
        = (lexicon.cut source.toList).filterMap Lexeme.piece? :=
      inOrder_eq (Lexeme.perm_filterMap_piece? _)
        (pairwise_offset_filterMap Lexeme.exists_kind_of_piece?)
        (pairwise_offset_filterMap Lexeme.exists_kind_of_token?)
        (pairwise_offset_filterMap Lexeme.exists_kind_of_comment?)
    rwa [flatMap_text_cut, ← horder] at hwoven

end Lexicon

/-! ## §4. Trees of braced programs. -/

namespace Braced

/-- The braced table skips blanks and nothing else. -/
theorem lexicon_skipsOnlyBlanks : lexicon.SkipsOnlyBlanks := by
  decide

/-- An accepted program comes with the comments of its source. -/
theorem comments_of_parse {source : String} {parsed : Parsed Program}
    (h : parse source = .ok parsed) : parsed.comments = (lexicon.tokenize source).comments := by
  simp only [parse] at h
  split at h
  · cases htokens : parseTokens (lexicon.tokenize source).tokens with
    | error failure => simp [htokens, Except.map] at h
    | ok program =>
      obtain rfl : ⟨program, _⟩ = parsed := by simpa [htokens, Except.map] using h
      rfl
  · cases h

/-- **A braced program that parses loses nothing but blanks**: the tokens of its
tree and its comments are stretches of the source that no two of them share, and
the source is all of them in their order with blanks between. -/
theorem parse_lossless {source : String} {parsed : Parsed Program}
    (h : parse source = .ok parsed) :
    Lossless source.toList parsed.program.view.tokens parsed.comments := by
  rw [(spelled_of_parse h).2, comments_of_parse h]
  exact Lexicon.tokenize_lossless lexicon_skipsOnlyBlanks (errors_eq_nil_of_accepted ⟨parsed, h⟩)

/-- A program with a comment of each kind inside a statement, one of them over two lines. -/
def annotated : String :=
  "class program \x7b\n  program() \x7b\n    if(frontIsClear /* one\ntwo */ ) move(); "
    ++ "// stop\n\telse turnoff\n();\x7d\x7d\n"

/-- The sample is accepted with both of its comments, and its tokens and comments are all there is
between blanks. -/
theorem parse_lossless_annotated :
    ∃ parsed, parse annotated = .ok parsed
      ∧ parsed.comments.map (·.image) = ["/* one\ntwo */", "// stop"]
      ∧ Lossless annotated.toList parsed.program.view.tokens parsed.comments := by
  have hcomments : (parse annotated).toOption.map (fun parsed => parsed.comments.map (·.image))
      = some ["/* one\ntwo */", "// stop"] := by
    decide +kernel
  generalize hparse : parse annotated = outcome at hcomments
  cases outcome with
  | error failure => cases hcomments
  | ok parsed => exact ⟨parsed, rfl, Option.some.inj hcomments, parse_lossless hparse⟩

end Braced
end RobotLang
