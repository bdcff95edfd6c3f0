/-
  RobotLang.Proofs.Lexing.Tiling
  ──────────────────────────────
  **TOKENS, COMMENTS, SKIPPED TEXT AND STRAYS TILE THE SOURCE.**

  Whatever the table, its lexemes stand one behind the other
  (`consecutive_cut`): each starts where the text in front of it leads and
  none is empty.  From that alone

      a token or comment is the stretch of text from its offset to its end,
      no two of them overlap, and their places are those that counting
      newlines and characters from the top of the text gives;

  and a character in no token and no comment was skipped by an entry of the
  table or stands in a run that a diagnostic reports (`tokenize_tiles`).
-/
import Mathlib.Data.List.Induction
import Mathlib.Data.List.Pairwise
import RobotLang.Proofs.Lexing.Token

namespace RobotLang

/-! ## §1. Places, counted from the top of the text. -/

/-- The line on which the character at `offset` stands. -/
def lineAt (cs : List Char) (offset : Nat) : Nat :=
  1 + (cs.take offset).count '\n'

/-- The column in which the character at `offset` stands. -/
def columnAt (cs : List Char) (offset : Nat) : Nat :=
  1 + ((cs.take offset).reverse.takeWhile (· != '\n')).length

/-- A newline starts the columns anew. -/
theorem Position.start_advance_column (text : List Char) :
    (Position.start.advance text).column
      = 1 + (text.reverse.takeWhile (· != '\n')).length := by
  -- by the last character: it alone decides what becomes of the count
  induction text using List.reverseRecOn with
  | nil => rfl
  | append_singleton text c ih =>
    rw [advance_append, List.reverse_concat, List.takeWhile_cons]
    show ((Position.start.advance text).after c).column = _
    unfold after
    by_cases hc : c = '\n'
    · simp [hc]
    · simp [hc, ih]; omega

/-- Reading the front of a text leads to the place that counting gives. -/
theorem Position.start_advance_eq (front back : List Char) :
    Position.start.advance front
      = ⟨lineAt (front ++ back) front.length, columnAt (front ++ back) front.length,
          front.length⟩ := by
  have hline := Position.advance_line .start front
  have hcolumn := Position.start_advance_column front
  have hoffset := Position.advance_offset .start front
  generalize Position.start.advance front = p at hline hcolumn hoffset
  obtain ⟨line, column, offset⟩ := p
  simp_all [lineAt, columnAt, start]

/-- The text from `offset` up to and without `stop`. -/
def stretch (cs : List Char) (offset stop : Nat) : List Char :=
  (cs.drop offset).take (stop - offset)

theorem stretch_append (before text after : List Char) :
    stretch (before ++ text ++ after) before.length (before.length + text.length) = text := by
  simp [stretch]

/-! ## §2. Lexemes one behind the other. -/

namespace Lexeme

/-- The lexemes stand one behind the other from `p` on, and none is empty. -/
def Consecutive (p : Position) : List Lexeme → Prop
  | [] => True
  | l :: ls => l.start = p ∧ l.text ≠ [] ∧ Consecutive (p.advance l.text) ls

theorem consecutive_append {p : Position} {before after : List Lexeme} :
    Consecutive p (before ++ after)
      ↔ Consecutive p before ∧ Consecutive (p.advance (before.flatMap text)) after := by
  induction before generalizing p with
  | nil => simp [Consecutive]
  | cons l before ih =>
    rw [List.flatMap_cons, Position.advance_append]
    show l.start = p ∧ l.text ≠ [] ∧ Consecutive (p.advance l.text) (before ++ after)
      ↔ (l.start = p ∧ l.text ≠ [] ∧ Consecutive (p.advance l.text) before) ∧ _
    rw [ih, and_assoc, and_assoc]

/-- A lexeme starts where the text of those in front of it leads. -/
theorem Consecutive.start_eq {p : Position} {l : Lexeme} {before after : List Lexeme}
    (h : Consecutive p (before ++ l :: after)) : l.start = p.advance (before.flatMap text) :=
  (consecutive_append.mp h).2.1

theorem Consecutive.text_ne_nil {p : Position} {l : Lexeme} {ls : List Lexeme}
    (h : Consecutive p ls) (hl : l ∈ ls) : l.text ≠ [] := by
  obtain ⟨before, after, rfl⟩ := List.append_of_mem hl
  exact (consecutive_append.mp h).2.2.1

/-- A lexeme lies within the text of all. -/
theorem Consecutive.within {p : Position} {l : Lexeme} {ls : List Lexeme}
    (h : Consecutive p ls) (hl : l ∈ ls) :
    p.offset ≤ l.start.offset
      ∧ l.start.offset + l.text.length ≤ p.offset + (ls.flatMap text).length := by
  obtain ⟨before, after, rfl⟩ := List.append_of_mem hl
  rw [h.start_eq, Position.advance_offset, List.flatMap_append, List.flatMap_cons,
    List.length_append, List.length_append]
  omega

/-- `l` ends before `m` starts. -/
def Before (l m : Lexeme) : Prop :=
  l.start.offset + l.text.length ≤ m.start.offset

theorem Consecutive.pairwise {p : Position} {ls : List Lexeme} (h : Consecutive p ls) :
    ls.Pairwise Before := by
  induction ls generalizing p with
  | nil => exact .nil
  | cons l ls ih =>
    refine List.pairwise_cons.mpr ⟨?_, ih h.2.2⟩
    intro m hm
    have hwithin := (h.2.2.within hm).1
    rw [Position.advance_offset] at hwithin
    show l.start.offset + l.text.length ≤ m.start.offset
    rwa [h.1]

/-- Every character stands in a lexeme. -/
theorem Consecutive.exists_mem_at {p : Position} {ls : List Lexeme} (h : Consecutive p ls)
    {i : Nat} (hp : p.offset ≤ i) (hi : i < p.offset + (ls.flatMap text).length) :
    ∃ l ∈ ls, l.start.offset ≤ i ∧ i < l.start.offset + l.text.length := by
  induction ls generalizing p with
  | nil => simp at hi; omega
  | cons l ls ih =>
    obtain ⟨hstart, -, htail⟩ := h
    by_cases hin : i < p.offset + l.text.length
    · rw [← hstart] at hp hin
      exact ⟨l, List.mem_cons_self, hp, hin⟩
    · rw [List.flatMap_cons, List.length_append] at hi
      have hoffset := Position.advance_offset p l.text
      obtain ⟨m, hm, hat⟩ := ih htail (by omega) (by omega)
      exact ⟨m, List.mem_cons_of_mem l hm, hat⟩

end Lexeme

namespace Lexicon

variable {lexicon : Lexicon}

/-- The lexemes of a text stand one behind the other. -/
theorem consecutive_cutFrom (lexicon : Lexicon) (p : Position) (cs : List Char) :
    Lexeme.Consecutive p (lexicon.cutFrom 0 p cs) := by
  -- on the length of the text: a lexeme takes at least one character of it
  induction hn : cs.length using Nat.strongRecOn generalizing p cs with
  | _ n ih =>
    cases cs with
    | nil => trivial
    | cons c cs =>
      cases hnext : lexicon.next (c :: cs) with
      | none =>
        rw [cutFrom, hnext]
        exact ⟨rfl, by simp, ih cs.length (by simp [← hn]) (p.after c) cs rfl⟩
      | some taken =>
        obtain ⟨action, m⟩ := taken
        obtain ⟨hpos, hle⟩ := next_pos hnext
        rw [cutFrom_of_next hnext]
        refine ⟨rfl, ?_, ih _ ?_ _ _ rfl⟩
        · simp; omega
        · rw [List.length_drop]; omega

theorem consecutive_cut (lexicon : Lexicon) (cs : List Char) :
    Lexeme.Consecutive .start (lexicon.cut cs) :=
  lexicon.consecutive_cutFrom .start cs

/-- Lexemes that follow each other are a stretch of the text. -/
theorem exists_split_of_cut_eq {cs : List Char} {before run after : List Lexeme}
    (h : lexicon.cut cs = before ++ run ++ after) :
    ∃ front back, cs = front ++ run.flatMap Lexeme.text ++ back
      ∧ Lexeme.Consecutive (Position.start.advance front) run := by
  have hcut := lexicon.consecutive_cut cs
  have htext := lexicon.flatMap_text_cut cs
  rw [h, List.append_assoc] at hcut htext
  have hrun := (Lexeme.consecutive_append.mp (Lexeme.consecutive_append.mp hcut).2).1
  refine ⟨before.flatMap Lexeme.text, after.flatMap Lexeme.text, ?_, hrun⟩
  rw [← htext, List.flatMap_append, List.flatMap_append, List.append_assoc]

end Lexicon

/-! ## §3. Tokens and comments are stretches of the text. -/

namespace Token

/-- The token is the text from its offset to its end, and its lines and its
column are those of its first and its last character. -/
structure SpanOf (t : Token) (cs : List Char) : Prop where
  nonempty : t.offset ≤ t.endOffset
  inside : t.endOffset < cs.length
  image : t.image = String.ofList (stretch cs t.offset (t.endOffset + 1))
  line : t.line = lineAt cs t.offset
  column : t.column = columnAt cs t.offset
  endLine : t.endLine = lineAt cs t.endOffset

/-- The character at `i` stands in the token. -/
def Covers (t : Token) (i : Nat) : Prop :=
  t.offset ≤ i ∧ i ≤ t.endOffset

/-- No character stands in both tokens. -/
def Apart (t u : Token) : Prop :=
  t.endOffset < u.offset ∨ u.endOffset < t.offset

/-- Stretches one behind the other start one behind the other. -/
theorem pairwise_offset_lt {cs : List Char} {ts : List Token} (hspans : ∀ t ∈ ts, t.SpanOf cs)
    (h : ts.Pairwise (fun t u => t.endOffset < u.offset)) :
    ts.Pairwise (·.offset < ·.offset) := by
  refine h.imp_of_mem ?_
  intro t u ht _ htu
  exact Nat.lt_of_le_of_lt (hspans t ht).nonempty htu

end Token

namespace Lexeme

/-- A lexeme becomes the token of the stretch that it is.  Its last character is counted, not the
place behind it, and so the text may not be empty. -/
theorem toToken_spanOf {l : Lexeme} {front back : List Char} (kind : Kind)
    (hstart : l.start = Position.start.advance front) (hne : l.text ≠ []) :
    (l.toToken kind).SpanOf (front ++ l.text ++ back) := by
  obtain ⟨action, text, start⟩ := l
  obtain rfl : start = _ := hstart
  have hpos : 0 < text.length := List.length_pos_iff.mpr hne
  have hplace := Position.start_advance_eq front (text ++ back)
  -- up to its last character stand the text in front of it and all of it but that one
  have hlast : (front ++ text ++ back).take (front.length + text.length - 1)
      = front ++ text.dropLast := by
    rw [List.append_assoc, List.take_append, List.take_of_length_le (by omega),
      show front.length + text.length - 1 - front.length = text.length - 1 by omega,
      List.take_append_of_le_length (by omega), List.dropLast_eq_take]
  have hend : ((Position.start.advance front).advance text.dropLast).line
      = lineAt (front ++ text ++ back) (front.length + text.length - 1) := by
    rw [← Position.advance_append, Position.advance_line, lineAt, hlast]
    rfl
  rw [← List.append_assoc] at hplace
  rw [hplace] at hend ⊢
  constructor
  · show front.length ≤ front.length + text.length - 1
    omega
  · show front.length + text.length - 1 < _
    simp only [List.length_append]
    omega
  · show String.ofList text
      = String.ofList (stretch _ front.length (front.length + text.length - 1 + 1))
    rw [show front.length + text.length - 1 + 1 = front.length + text.length by omega,
      stretch_append]
  · rfl
  · rfl
  · exact hend

/-- What a lexeme becomes starts and ends where it does. -/
theorem apart_toToken {l m : Lexeme} (hl : l.text ≠ []) (h : l.Before m) (kind other : Kind) :
    (l.toToken kind).endOffset < (m.toToken other).offset := by
  have hpos := List.length_pos_iff.mpr hl
  unfold Before at h
  show l.start.offset + l.text.length - 1 < m.start.offset
  omega

theorem token?_eq_some_iff {l : Lexeme} {t : Token} :
    l.token? = some t ↔ ∃ kind, l.action = some (.emit kind) ∧ t = l.toToken kind := by
  unfold token?
  split
  · next kind h => simp [h, eq_comm]
  · next h => simpa using fun kind hk => absurd hk (h kind)

theorem comment?_eq_some_iff {l : Lexeme} {t : Token} :
    l.comment? = some t ↔ ∃ kind, l.action = some (.comment kind) ∧ t = l.toToken kind := by
  unfold comment?
  split
  · next kind h => simp [h, eq_comm]
  · next h => simpa using fun kind hk => absurd hk (h kind)

/-! ## §4. Runs of strays. -/

/-- A stray stands in a run that is reported, unless the run started before
the lexemes at hand do. -/
theorem exists_run_of_mem {ls : List Lexeme} {l : Lexeme} (hl : l ∈ ls) (hstray : l.isStray)
    (afterStray : Bool) :
    (afterStray = true ∧ l ∈ ls.takeWhile isStray)
      ∨ ∃ before first run after, ls = before ++ (first :: run) ++ after ∧ l ∈ first :: run
          ∧ (first.start, (first :: run).flatMap text) ∈ strayRuns afterStray ls := by
  induction ls generalizing afterStray with
  | nil => simp at hl
  | cons m ms ih =>
    -- a run further on is one of the whole list, with one more lexeme in front
    have further {flag : Bool} (hsub : strayRuns flag ms ⊆ strayRuns afterStray (m :: ms))
        (h : ∃ before first run after, ms = before ++ (first :: run) ++ after ∧ l ∈ first :: run
          ∧ (first.start, (first :: run).flatMap text) ∈ strayRuns flag ms) :
        ∃ before first run after, m :: ms = before ++ (first :: run) ++ after
          ∧ l ∈ first :: run
          ∧ (first.start, (first :: run).flatMap text) ∈ strayRuns afterStray (m :: ms) := by
      obtain ⟨before, first, run, after, hms, hmem, hrun⟩ := h
      exact ⟨m :: before, first, run, after, by rw [hms]; rfl, hmem, hsub hrun⟩
    by_cases hm : m.isStray = true
    · -- the run at hand: reported here, or begun before
      have hhere : l ∈ (m :: ms).takeWhile isStray →
          (afterStray = true ∧ l ∈ (m :: ms).takeWhile isStray)
            ∨ ∃ before first run after, m :: ms = before ++ (first :: run) ++ after
                ∧ l ∈ first :: run
                ∧ (first.start, (first :: run).flatMap text) ∈ strayRuns afterStray (m :: ms) := by
        intro htake
        cases afterStray with
        | true => exact .inl ⟨rfl, htake⟩
        | false =>
          refine .inr ⟨[], m, ms.takeWhile isStray, ms.dropWhile isStray, ?_, ?_, ?_⟩
          · rw [List.nil_append, List.cons_append, List.takeWhile_append_dropWhile]
          · rwa [List.takeWhile_cons_of_pos hm] at htake
          · rw [strayRuns, if_pos hm, if_neg (by simp), List.takeWhile_cons_of_pos hm]
            exact List.mem_cons_self
      have hsub : strayRuns true ms ⊆ strayRuns afterStray (m :: ms) := by
        rw [strayRuns, if_pos hm]
        split
        · exact fun _ => id
        · exact List.subset_cons_self _ _
      rcases List.mem_cons.mp hl with rfl | hl
      · exact hhere (by rw [List.takeWhile_cons_of_pos hm]; exact List.mem_cons_self)
      · rcases ih hl true with ⟨-, htake⟩ | hrun
        · exact hhere (by
            rw [List.takeWhile_cons_of_pos hm]
            exact List.mem_cons_of_mem m htake)
        · exact .inr (further hsub hrun)
    · have hsub : strayRuns false ms ⊆ strayRuns afterStray (m :: ms) := by
        rw [strayRuns, if_neg hm]
        exact fun _ => id
      rcases List.mem_cons.mp hl with rfl | hl
      · exact absurd hstray hm
      · rcases ih hl false with ⟨hflag, -⟩ | hrun
        · exact absurd hflag (by simp)
        · exact .inr (further hsub hrun)

end Lexeme

/-! ## §5. The source is tiled. -/

namespace Lexicon

variable {lexicon : Lexicon}

/-- The character at `i` was taken by an entry that skips. -/
def SkipsAt (lexicon : Lexicon) (cs : List Char) (i : Nat) : Prop :=
  ∃ l ∈ lexicon.cut cs, l.action = some .skip
    ∧ l.start.offset ≤ i ∧ i < l.start.offset + l.text.length
    ∧ ∃ entry ∈ lexicon.entries, entry.action = .skip
      ∧ entry.apply lexicon.names (cs.drop l.start.offset) = some (.skip, l.text.length)

/-- The character at `i` stands in the text of a diagnostic, which names the
place where that text starts. -/
def ReportedAt (errors : List Diagnostic) (cs : List Char) (i : Nat) : Prop :=
  ∃ offset stop, offset ≤ i ∧ i < stop ∧ stop ≤ cs.length
    ∧ .unrecognised (String.ofList (stretch cs offset stop)) (lineAt cs offset)
        (columnAt cs offset) ∈ errors

/-- How the tokens, comments and diagnostics of a text lie in it. -/
structure Tiles (lexicon : Lexicon) (cs : List Char) (lexed : Lexed) : Prop where
  spans : ∀ t ∈ lexed.tokens.dropLast ++ lexed.comments, t.SpanOf cs
  apart : (lexed.tokens.dropLast ++ lexed.comments).Pairwise Token.Apart
  tokens_ordered : lexed.tokens.Pairwise (·.offset < ·.offset)
  comments_ordered : lexed.comments.Pairwise (·.offset < ·.offset)
  last : ∃ t, lexed.tokens.getLast? = some t ∧ t.kind = .eof ∧ t.image = ""
    ∧ t.offset = cs.length ∧ t.line = lineAt cs cs.length ∧ t.column = columnAt cs cs.length
  oneEnd : lexicon.EmitsNoEnd → ∀ t ∈ lexed.tokens.dropLast, t.kind ≠ .eof
  accounted : ∀ i < cs.length, (∃ t ∈ lexed.tokens.dropLast ++ lexed.comments, t.Covers i)
    ∨ lexicon.SkipsAt cs i ∨ ReportedAt lexed.errors cs i

/-- The lexeme that a token or a comment comes from. -/
theorem exists_lexeme_of_mem_append {cs : List Char} {t : Token}
    (h : t ∈ (lexicon.cut cs).filterMap Lexeme.token?
      ++ (lexicon.cut cs).filterMap Lexeme.comment?) :
    ∃ l ∈ lexicon.cut cs, ∃ kind, t = l.toToken kind := by
  rcases List.mem_append.mp h with h | h
  · obtain ⟨l, hl, ht⟩ := List.mem_filterMap.mp h
    obtain ⟨kind, -, rfl⟩ := Lexeme.token?_eq_some_iff.mp ht
    exact ⟨l, hl, kind, rfl⟩
  · obtain ⟨l, hl, ht⟩ := List.mem_filterMap.mp h
    obtain ⟨kind, -, rfl⟩ := Lexeme.comment?_eq_some_iff.mp ht
    exact ⟨l, hl, kind, rfl⟩

theorem spanOf_of_mem {cs : List Char} {l : Lexeme} (hl : l ∈ lexicon.cut cs) (kind : Kind) :
    (l.toToken kind).SpanOf cs := by
  obtain ⟨before, after, hcut⟩ := List.append_of_mem hl
  have hcut : lexicon.cut cs = before ++ [l] ++ after := by simpa using hcut
  obtain ⟨front, back, hcs, hstart, hne, -⟩ := exists_split_of_cut_eq hcut
  rw [List.flatMap_singleton] at hcs
  rw [hcs]
  exact Lexeme.toToken_spanOf kind hstart hne

/-- What some of the lexemes become stands in the order of the text. -/
theorem pairwise_filterMap {cs : List Char} {make : Lexeme → Option Token}
    (hmake : ∀ l t, make l = some t → ∃ kind, t = l.toToken kind) :
    ((lexicon.cut cs).filterMap make).Pairwise (fun t u => t.endOffset < u.offset) := by
  have hcut := lexicon.consecutive_cut cs
  refine List.Pairwise.filterMap make ?_ (List.Pairwise.and_mem.mp hcut.pairwise)
  intro l m hlm t ht u hu
  obtain ⟨hl, -, hbefore⟩ := hlm
  obtain ⟨kind, rfl⟩ := hmake l t ht
  obtain ⟨other, rfl⟩ := hmake m u hu
  exact Lexeme.apart_toToken (hcut.text_ne_nil hl) hbefore kind other

/-- A token never shares a character with a comment.  They come from two lexemes, of which one
stands before the other. -/
theorem apart_of_mem {cs : List Char} {t u : Token}
    (ht : t ∈ (lexicon.cut cs).filterMap Lexeme.token?)
    (hu : u ∈ (lexicon.cut cs).filterMap Lexeme.comment?) : t.Apart u := by
  obtain ⟨l, hl, hlt⟩ := List.mem_filterMap.mp ht
  obtain ⟨m, hm, hmu⟩ := List.mem_filterMap.mp hu
  obtain ⟨kind, hemit, rfl⟩ := Lexeme.token?_eq_some_iff.mp hlt
  obtain ⟨other, hcomment, rfl⟩ := Lexeme.comment?_eq_some_iff.mp hmu
  have hcut := lexicon.consecutive_cut cs
  have hne : l ≠ m := by
    rintro rfl
    rw [hemit] at hcomment
    simp at hcomment
  -- one of the two lexemes stands before the other
  have heither : (lexicon.cut cs).Pairwise fun l m => l.Before m ∨ m.Before l :=
    hcut.pairwise.imp .inl
  have hsymm : Std.Symm fun l m : Lexeme => l.Before m ∨ m.Before l := ⟨fun _ _ => Or.symm⟩
  have hsplit : l.Before m ∨ m.Before l := heither.forall hl hm hne
  rcases hsplit with h | h
  · exact .inl (Lexeme.apart_toToken (hcut.text_ne_nil hl) h kind other)
  · exact .inr (Lexeme.apart_toToken (hcut.text_ne_nil hm) h other kind)

/-- A lexeme that is skipped was taken by an entry that skips. -/
theorem skipsAt_of_mem {cs : List Char} {l : Lexeme} (hl : l ∈ lexicon.cut cs)
    (haction : l.action = some .skip) {i : Nat} (hlow : l.start.offset ≤ i)
    (hhigh : i < l.start.offset + l.text.length) : lexicon.SkipsAt cs i := by
  obtain ⟨before, after, hcs, hstart, hnext⟩ := exists_split_of_mem_cutFrom hl
  have hnext := hnext .skip haction
  obtain ⟨entry, hmem, he⟩ := List.exists_of_findSome?_eq_some hnext
  have hskip : entry.action = .skip := by
    obtain ⟨n, -, hn⟩ := Option.map_eq_some_iff.mp he
    split at hn
    · simp at hn
    · exact (Prod.mk.inj hn).1
  have hdrop : cs.drop l.start.offset = l.text ++ after := by
    rw [hstart, Position.advance_offset, hcs]
    simp [Position.start]
  exact ⟨l, hl, haction, hlow, hhigh, entry, hmem, hskip, hdrop ▸ he⟩

/-- A stray is reported with its whole run.  The run is a stretch of the source, and the character
lies in it. -/
theorem reportedAt_of_mem {source : String} {l : Lexeme} (hl : l ∈ lexicon.cut source.toList)
    (hstray : l.isStray) {i : Nat} (hlow : l.start.offset ≤ i)
    (hhigh : i < l.start.offset + l.text.length) :
    ReportedAt (lexicon.tokenize source).errors source.toList i := by
  rcases Lexeme.exists_run_of_mem hl hstray false with ⟨h, -⟩ | ⟨before, first, run, after, hcut,
    hmem, hrun⟩
  · exact absurd h (by simp)
  obtain ⟨front, back, hcs, hconsecutive⟩ := exists_split_of_cut_eq hcut
  -- the lexeme lies inside its run
  have hwithin := hconsecutive.within hmem
  have hstart := hconsecutive.1
  generalize (first :: run).flatMap Lexeme.text = text at hcs hwithin hrun
  have hplace := Position.start_advance_eq front (text ++ back)
  have hstretch := stretch_append front text back
  rw [← List.append_assoc] at hplace
  rw [← hcs] at hplace hstretch
  rw [hplace] at hwithin hstart
  refine ⟨front.length, front.length + text.length, ?_, ?_, ?_, ?_⟩
  · exact Nat.le_trans hwithin.1 hlow
  · exact Nat.lt_of_lt_of_le hhigh hwithin.2
  · rw [hcs, List.length_append, List.length_append]
    omega
  · rw [hstretch]
    refine List.mem_map.mpr ⟨_, hrun, ?_⟩
    rw [hstart]

/-- Every character stands in a token or comment, was skipped, or is reported.  It lies in one
lexeme, and what became of that lexeme says which it is. -/
theorem covered_or_skipped_or_reported (lexicon : Lexicon) (source : String) {i : Nat}
    (hi : i < source.toList.length) :
    (∃ t ∈ lexicon.bodyTokens source ++ (lexicon.tokenize source).comments, t.Covers i)
      ∨ lexicon.SkipsAt source.toList i
      ∨ ReportedAt (lexicon.tokenize source).errors source.toList i := by
  have hcut := lexicon.consecutive_cut source.toList
  rw [← lexicon.flatMap_text_cut source.toList] at hi
  obtain ⟨l, hl, hlow, hhigh⟩ :=
    hcut.exists_mem_at (Nat.zero_le i) (by simpa [Position.start] using hi)
  have hcovers (kind : Kind) : (l.toToken kind).Covers i := by
    refine ⟨hlow, ?_⟩
    show i ≤ l.start.offset + l.text.length - 1
    omega
  -- what became of the lexeme says what became of its characters
  cases haction : l.action with
  | none => exact .inr (.inr (reportedAt_of_mem hl (by simp [Lexeme.isStray, haction]) hlow hhigh))
  | some action =>
    cases action with
    | skip => exact .inr (.inl (skipsAt_of_mem hl haction hlow hhigh))
    | emit kind =>
      refine .inl ⟨l.toToken kind, List.mem_append_left _ ?_, hcovers kind⟩
      exact List.mem_filterMap.mpr ⟨l, hl, Lexeme.token?_eq_some_iff.mpr ⟨kind, haction, rfl⟩⟩
    | comment kind =>
      refine .inl ⟨l.toToken kind, List.mem_append_right _ ?_, hcovers kind⟩
      exact List.mem_filterMap.mpr ⟨l, hl, Lexeme.comment?_eq_some_iff.mpr ⟨kind, haction, rfl⟩⟩

/-- **The source is tiled**: its tokens and comments are stretches of it that do
not overlap, in the order of the text and with the places that counting from
the top gives; the end of input stands behind the last character; and every
other character was skipped or is reported. -/
theorem tokenize_tiles (lexicon : Lexicon) (source : String) :
    lexicon.Tiles source.toList (lexicon.tokenize source) := by
  -- tokens and comments are both picked from one cut, whose pieces follow each other
  have htokens : (lexicon.bodyTokens source).Pairwise (fun t u => t.endOffset < u.offset) := by
    refine pairwise_filterMap fun l t ht => ?_
    obtain ⟨kind, -, rfl⟩ := Lexeme.token?_eq_some_iff.mp ht
    exact ⟨kind, rfl⟩
  have hcomments : (lexicon.tokenize source).comments.Pairwise
      (fun t u => t.endOffset < u.offset) := by
    refine pairwise_filterMap fun l t ht => ?_
    obtain ⟨kind, -, rfl⟩ := Lexeme.comment?_eq_some_iff.mp ht
    exact ⟨kind, rfl⟩
  have hspans : ∀ t ∈ lexicon.bodyTokens source ++ (lexicon.tokenize source).comments,
      t.SpanOf source.toList := by
    intro t ht
    obtain ⟨l, hl, kind, rfl⟩ := exists_lexeme_of_mem_append ht
    exact spanOf_of_mem hl kind
  obtain ⟨htokenSpans, hcommentSpans⟩ := List.forall_mem_append.mp hspans
  have hend : endOfText source.toList = .endOfInput (lineAt source.toList source.toList.length)
      (columnAt source.toList source.toList.length) source.toList.length := by
    rw [endOfText, Position.start_advance_eq source.toList [], List.append_nil]
  constructor
  case spans => rwa [dropLast_tokens]
  case apart =>
    rw [dropLast_tokens]
    refine List.pairwise_append.mpr ⟨htokens.imp .inl, hcomments.imp .inl, ?_⟩
    intro t ht u hu
    exact apart_of_mem ht hu
  case tokens_ordered =>
    rw [tokenize_tokens, hend]
    refine List.pairwise_append.mpr
      ⟨Token.pairwise_offset_lt htokenSpans htokens, List.pairwise_singleton _ _, ?_⟩
    -- every token ends inside the text, and the end of input stands behind it
    intro t ht u hu
    rw [List.mem_singleton.mp hu]
    exact Nat.lt_of_le_of_lt (htokenSpans t ht).nonempty (htokenSpans t ht).inside
  case comments_ordered => exact Token.pairwise_offset_lt hcommentSpans hcomments
  case last =>
    refine ⟨endOfText source.toList, ?_, ?_⟩
    · rw [tokenize_tokens]
      exact List.getLast?_concat
    · rw [hend]
      exact ⟨rfl, rfl, rfl, rfl, rfl⟩
  case oneEnd =>
    intro hnone t ht
    rw [dropLast_tokens] at ht
    exact kind_ne_eof_of_mem hnone ht
  case accounted =>
    intro i hi
    rw [dropLast_tokens]
    exact lexicon.covered_or_skipped_or_reported source hi

end Lexicon
end RobotLang
