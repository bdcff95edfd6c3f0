/-
  RobotLang.Proofs.Lexing.Token
  ─────────────────────────────
  **WHAT EVERY TOKEN OF A SOURCE TEXT OWES TO THE TEXT.**

  A lexeme is a stretch of the text, stands at the place that the text before
  it leads to, and was taken by the first entry that applies there
  (`exists_split_of_mem_cut`).  The tokens of a source are its emitted
  lexemes and then the end of input, which is the only one as long as no
  entry of the table emits that kind.  Each of them stands behind the one before
  it, so a place is the place of at most one.
-/
import RobotLang.Lexeme
import RobotLang.Rule

namespace RobotLang

/-! ## §1. Lexemes in their text. -/

namespace Lexicon

variable {lexicon : Lexicon}

/-- A lexeme is a stretch of the text and knows its place in it.  By induction on the text, one
character at a time; those that a lexeme covers are passed over. -/
theorem exists_split_of_mem_cutFrom {covered : Nat} {p : Position} {cs : List Char} {l : Lexeme}
    (h : l ∈ lexicon.cutFrom covered p cs) :
    ∃ before after, cs = before ++ l.text ++ after ∧ l.start = p.advance before
      ∧ ∀ action ∈ l.action,
          lexicon.next (l.text ++ after) = some (action, l.text.length) := by
  induction cs generalizing covered p with
  | nil => simp [cutFrom] at h
  | cons c cs ih =>
    -- a lexeme further on has one more character before it
    have further {covered : Nat} (h : l ∈ lexicon.cutFrom covered (p.after c) cs) :
        ∃ before after, c :: cs = before ++ l.text ++ after ∧ l.start = p.advance before
          ∧ ∀ action ∈ l.action,
              lexicon.next (l.text ++ after) = some (action, l.text.length) := by
      obtain ⟨before, after, rfl, hstart, hnext⟩ := ih h
      exact ⟨c :: before, after, by simp, by simpa using hstart, hnext⟩
    cases covered with
    | succ covered => exact further (by simpa [cutFrom] using h)
    | zero =>
      rw [cutFrom] at h
      split at h
      · next action n hn =>
        rcases List.mem_cons.mp h with rfl | h
        · refine ⟨[], (c :: cs).drop n, by simp, rfl, ?_⟩
          intro action' ha
          cases ha
          have hle := (next_pos hn).2
          simp only [List.take_append_drop, hn, List.length_take, Nat.min_eq_left hle]
        · exact further h
      · rcases List.mem_cons.mp h with rfl | h
        · exact ⟨[], cs, by simp, rfl, by simp⟩
        · exact further h

/-- What an entry makes of the text is its own action, or a name. -/
theorem next_action {cs : List Char} {action : Action} {n : Nat}
    (h : lexicon.next cs = some (action, n)) :
    action = .emit .identifier ∨ ∃ entry ∈ lexicon.entries, entry.action = action := by
  obtain ⟨entry, hmem, he⟩ := List.exists_of_findSome?_eq_some h
  obtain ⟨m, _, hm⟩ := Option.map_eq_some_iff.mp he
  split at hm
  · cases hm
    exact .inl rfl
  · cases hm
    exact .inr ⟨entry, hmem, rfl⟩

/-! ## §2. Tokens. -/

/-- The tokens of a text without the end of input. -/
def bodyTokens (lexicon : Lexicon) (source : String) : List Token :=
  (lexicon.cut source.toList).filterMap Lexeme.token?

theorem tokenize_tokens (source : String) :
    (lexicon.tokenize source).tokens
      = lexicon.bodyTokens source ++ [endOfText source.toList] := rfl

theorem dropLast_tokens (source : String) :
    (lexicon.tokenize source).tokens.dropLast = lexicon.bodyTokens source := by
  rw [tokenize_tokens]
  exact List.dropLast_concat

/-- A token is an emitted lexeme. -/
theorem exists_lexeme_of_mem_bodyTokens {source : String} {t : Token}
    (h : t ∈ lexicon.bodyTokens source) :
    ∃ before text after kind, source.toList = before ++ text ++ after
      ∧ lexicon.next (text ++ after) = some (.emit kind, text.length)
      ∧ t = Lexeme.toToken ⟨some (.emit kind), text, Position.start.advance before⟩ kind := by
  obtain ⟨l, hl, ht⟩ := List.mem_filterMap.mp h
  obtain ⟨before, after, hsource, hstart, hnext⟩ := exists_split_of_mem_cutFrom hl
  obtain ⟨action, text, start⟩ := l
  unfold Lexeme.token? at ht
  split at ht
  · next kind haction =>
    cases haction
    cases ht
    cases hstart
    exact ⟨before, text, after, kind, hsource, hnext _ rfl, rfl⟩
  · simp at ht

/-- No token of a source was put in by a repair. -/
theorem inserted_eq_false_of_mem {source : String} {t : Token}
    (h : t ∈ lexicon.bodyTokens source) : t.inserted = false := by
  obtain ⟨_, _, _, _, _, _, rfl⟩ := exists_lexeme_of_mem_bodyTokens h
  rfl

/-- No entry of the table stands for the end of input. -/
def EmitsNoEnd (lexicon : Lexicon) : Prop :=
  ∀ entry ∈ lexicon.entries, entry.action ≠ .emit .eof

theorem kind_ne_eof_of_mem (hl : lexicon.EmitsNoEnd) {source : String} {t : Token}
    (h : t ∈ lexicon.bodyTokens source) : t.kind ≠ .eof := by
  obtain ⟨_, _, _, kind, _, hnext, rfl⟩ := exists_lexeme_of_mem_bodyTokens h
  rintro (rfl : kind = .eof)
  rcases next_action hnext with hname | ⟨entry, hmem, haction⟩
  · simp at hname
  · exact hl entry hmem haction

/-- A reader of a source's tokens sees all of them, up to the end of input. -/
theorem beforeEnd_tokens (hl : lexicon.EmitsNoEnd) (source : String) :
    beforeEnd (lexicon.tokenize source).tokens = lexicon.bodyTokens source := by
  rw [tokenize_tokens, beforeEnd, List.takeWhile_append_of_pos]
  · simp [endOfText]
  · intro t ht
    simpa using kind_ne_eof_of_mem hl ht

/-- Some entry applies to whatever text there is. -/
def TakesEverything (lexicon : Lexicon) : Prop :=
  ∀ c cs, (lexicon.next (c :: cs)).isSome

theorem strayRuns_eq_nil {lexemes : List Lexeme} (h : ∀ l ∈ lexemes, l.isStray = false)
    (afterStray : Bool) : Lexeme.strayRuns afterStray lexemes = [] := by
  induction lexemes generalizing afterStray with
  | nil => rfl
  | cons l ls ih =>
    rw [List.forall_mem_cons] at h
    rw [Lexeme.strayRuns, h.1]
    exact ih h.2 false

/-- A table that takes everything reports nothing. -/
theorem errors_eq_nil (hl : lexicon.TakesEverything) (source : String) :
    (lexicon.tokenize source).errors = [] := by
  have hcut : ∀ covered p cs, ∀ l ∈ lexicon.cutFrom covered p cs, l.isStray = false := by
    intro covered p cs
    induction cs generalizing covered p with
    | nil => simp [cutFrom]
    | cons c cs ih =>
      cases covered with
      | succ covered => exact ih covered (p.after c)
      | zero =>
        obtain ⟨⟨action, n⟩, hnext⟩ := Option.isSome_iff_exists.mp (hl c cs)
        rw [cutFrom, hnext]
        exact List.forall_mem_cons.mpr ⟨rfl, ih (n - 1) (p.after c)⟩
  show (Lexeme.strayRuns false (lexicon.cutFrom 0 .start source.toList)).map _ = []
  rw [strayRuns_eq_nil (hcut 0 .start source.toList)]
  rfl

end Lexicon

/-! ## §3. Lines. -/

/-- A line starts after each newline. -/
theorem Position.advance_line (p : Position) (text : List Char) :
    (p.advance text).line = p.line + text.count '\n' := by
  induction text generalizing p with
  | nil => rfl
  | cons c text ih =>
    rw [advance_cons, ih, List.count_cons]
    unfold after
    split
    · next h => simp [h]; omega
    · next h => simp [h]

/-- How many lines a text has; what follows a newline at the very end is none. -/
def lineCount (source : String) : Nat :=
  source.toList.count '\n' + if source.toList.getLast?.all (· == '\n') then 0 else 1

/-- A token stands on a line of its source.  Its line is one more than the newlines in front of it,
and a newline that ends the source is none of these. -/
theorem Lexicon.line_of_mem_bodyTokens {lexicon : Lexicon} {source : String} {t : Token}
    (h : t ∈ lexicon.bodyTokens source) : 1 ≤ t.line ∧ t.line ≤ lineCount source := by
  obtain ⟨before, text, after, kind, hsource, hnext, rfl⟩ := exists_lexeme_of_mem_bodyTokens h
  have hpos := (next_pos hnext).1
  rw [List.append_assoc] at hsource
  simp only [Lexeme.toToken, Position.advance_line, Position.start, lineCount, hsource,
    List.count_append]
  refine ⟨by omega, ?_⟩
  split
  · next hlast =>
    -- the newline at the end does not stand in front of the token
    have hne : text ++ after ≠ [] := by
      intro hnil
      simp [List.append_eq_nil_iff.mp hnil] at hpos
    rw [List.getLast?_append, List.getLast?_eq_some_getLast hne, Option.some_or] at hlast
    have hmem : '\n' ∈ text ++ after := by
      have := List.getLast_mem hne
      simp only [Option.all_some, beq_iff_eq] at hlast
      rwa [hlast] at this
    have hcount := List.count_pos_iff.mpr hmem
    rw [List.count_append] at hcount
    omega
  · omega

/-! ## §4. Places. -/

namespace Position

/-- Within a line, columns count characters. -/
theorem advance_column {text : List Char} (h : '\n' ∉ text) (p : Position) :
    (p.advance text).column = p.column + text.length := by
  induction text generalizing p with
  | nil => rfl
  | cons c text ih =>
    rw [List.mem_cons, not_or] at h
    rw [advance_cons, ih h.2, after, if_neg (Ne.symm h.1), List.length_cons]
    show p.column + 1 + text.length = p.column + (text.length + 1)
    omega

/-- On an earlier line, or further left on the same line. -/
def Before (p q : Position) : Prop :=
  p.line < q.line ∨ p.line = q.line ∧ p.column < q.column

/-- Reading on leads further down or further right. -/
theorem before_advance (p : Position) {text : List Char} (h : text ≠ []) :
    p.Before (p.advance text) := by
  have hpos := List.length_pos_iff.mpr h
  have hline := advance_line p text
  unfold Before
  by_cases hcount : '\n' ∈ text
  · have := List.count_pos_iff.mpr hcount
    omega
  · have hcolumn := advance_column hcount p
    rw [List.count_eq_zero.mpr hcount] at hline
    omega

end Position

namespace Lexicon

variable {lexicon : Lexicon}

/-- Lexemes start one behind the other. -/
theorem pairwise_start_cutFrom (covered : Nat) (p : Position) (cs : List Char) :
    (lexicon.cutFrom covered p cs).Pairwise fun l m => l.start.Before m.start := by
  induction cs generalizing covered p with
  | nil => exact .nil
  | cons c cs ih =>
    have further {covered : Nat} {m : Lexeme} (hm : m ∈ lexicon.cutFrom covered (p.after c) cs) :
        p.Before m.start := by
      obtain ⟨before, _, _, hstart, _⟩ := exists_split_of_mem_cutFrom hm
      rw [hstart, ← Position.advance_cons]
      exact p.before_advance (List.cons_ne_nil c before)
    cases covered with
    | succ covered => exact ih covered (p.after c)
    | zero =>
      rw [cutFrom]
      split
      · exact List.pairwise_cons.mpr ⟨fun _ => further, ih _ (p.after c)⟩
      · exact List.pairwise_cons.mpr ⟨fun _ => further, ih 0 (p.after c)⟩

/-- Tokens stand one behind the other, and the end of input behind them all.  Each token has at
least one character, so what stands behind it is further on. -/
theorem pairwise_place_tokens (lexicon : Lexicon) (source : String) :
    (lexicon.tokenize source).tokens.Pairwise fun t u =>
      t.line < u.line ∨ t.line = u.line ∧ t.column < u.column := by
  rw [tokenize_tokens]
  refine List.pairwise_append.mpr ⟨?_, List.pairwise_singleton _ _, ?_⟩
  · refine (pairwise_start_cutFrom 0 .start source.toList).filterMap _ ?_
    intro l m hlm t ht u hu
    unfold Lexeme.token? at ht hu
    split at ht <;> split at hu <;> cases ht <;> cases hu
    exact hlm
  · -- the end of input stands behind the characters of each token
    intro t ht u hu
    obtain rfl := List.mem_singleton.mp hu
    obtain ⟨before, text, after, kind, hsource, hnext, rfl⟩ := exists_lexeme_of_mem_bodyTokens ht
    have hne : text ++ after ≠ [] := by
      intro hnil
      have hpos := (next_pos hnext).1
      simp [List.append_eq_nil_iff.mp hnil] at hpos
    have hbefore := (Position.start.advance before).before_advance hne
    rw [← Position.advance_append, ← List.append_assoc, ← hsource] at hbefore
    exact hbefore

/-- A place is the place of at most one token. -/
theorem index_eq_of_place_eq {source : String} {i j : Nat} {t u : Token}
    (ht : (lexicon.tokenize source).tokens[i]? = some t)
    (hu : (lexicon.tokenize source).tokens[j]? = some u) (hline : t.line = u.line)
    (hcolumn : t.column = u.column) : i = j := by
  obtain ⟨hi, rfl⟩ := List.getElem?_eq_some_iff.mp ht
  obtain ⟨hj, rfl⟩ := List.getElem?_eq_some_iff.mp hu
  have h := List.pairwise_iff_getElem.mp (lexicon.pairwise_place_tokens source)
  rcases Nat.lt_trichotomy i j with hlt | heq | hgt
  · have := h i j hi hj hlt
    omega
  · exact heq
  · have := h j i hj hi hgt
    omega

end Lexicon

end RobotLang
