/-
  RobotLang.Proofs.Underlining
  ────────────────────────────
  **CARETS STAND UNDER THE TEXT THAT A DIAGNOSTIC NAMES.**

  Lines are what stands between newlines, and a place counts newlines and the
  characters since the last one.  So a text without a newline stands whole on
  the line of its place, from the column of its place on (`standsAt_advance`):

      before ++ text ++ after      the source
      quoted                       line number `line` of it
      column - 1 ..                `text`, in `quoted`

  What a failed parse complains about is such a text: a token, a run of
  strays, or nothing at all at the end of the source.  The report indents the
  carets by the margin of the quoted line and the columns before the text.
-/
import RobotLang.Dialect
import RobotLang.Proofs.Braced.FirstImpossible
import RobotLang.Proofs.Composition
import RobotLang.Proofs.Lexing.Printing
import RobotLang.Proofs.Lexing.Tiling
import RobotLang.Proofs.Worded.Omissions
import RobotLang.Report

namespace RobotLang

/-! ## §1. Lines of a text. -/

theorem length_splitOn_newline (cs : List Char) :
    (cs.splitOn '\n').length = cs.count '\n' + 1 := by
  induction cs with
  | nil => rfl
  | cons c cs ih =>
    rw [List.splitOn_cons_eq_if_modifyHead, List.count_cons]
    split
    · rw [List.length_cons, ih]
    · rw [List.length_modifyHead, ih]

/-- The first line goes up to the first newline. -/
theorem head?_splitOn_newline (cs : List Char) :
    (cs.splitOn '\n').head? = some (cs.takeWhile (· != '\n')) := by
  induction cs with
  | nil => rfl
  | cons c cs ih =>
    rw [List.splitOn_cons_eq_if_modifyHead]
    by_cases hc : c = '\n'
    · simp [hc]
    · simp [hc, List.head?_modifyHead, ih]

/-- The line on which `back` starts: the characters since the last newline of
what stands before it, and its own up to the first. -/
theorem getElem?_splitOn_newline (front back : List Char) :
    ((front ++ back).splitOn '\n')[front.count '\n']?
      = some ((front.reverse.takeWhile (· != '\n')).reverse ++ back.takeWhile (· != '\n')) := by
  -- by the last character in front: a newline opens the line, any other is on it
  induction front using List.reverseRecOn generalizing back with
  | nil => rw [List.count_nil, ← List.head?_eq_getElem?]; exact head?_splitOn_newline back
  | append_singleton front c ih =>
    rw [List.append_assoc, List.singleton_append, List.reverse_concat]
    by_cases hc : c = '\n'
    · have hcount : (front ++ [c]).count '\n' = (front.splitOn '\n').length := by
        rw [length_splitOn_newline, hc, List.count_append, List.count_singleton_self]
      rw [hcount, hc, List.splitOn_append_cons_self, List.getElem?_append_right (Nat.le_refl _),
        Nat.sub_self, ← List.head?_eq_getElem?, head?_splitOn_newline]
      simp
    · have hcount : (front ++ [c]).count '\n' = front.count '\n' := by
        simp [hc]
      rw [hcount, ih (c :: back)]
      simp [hc]

/-- `text` stands on the line of that number, from that column on; the line reads `quoted`. -/
structure StandsAt (text source : List Char) (line column : Nat) (quoted : List Char) : Prop where
  line_pos : 1 ≤ line
  column_pos : 1 ≤ column
  quoted_eq : (source.splitOn '\n')[line - 1]? = some quoted
  within : column - 1 + text.length ≤ quoted.length
  text_eq : stretch quoted (column - 1) (column - 1 + text.length) = text

/-- A text without a newline stands where the text before it leads.  The line there is what precedes
the text in it, the text, and what follows it in it. -/
theorem standsAt_advance (before after : List Char) {text : List Char} (hline : '\n' ∉ text) :
    ∃ quoted, StandsAt text (before ++ text ++ after) (Position.start.advance before).line
      (Position.start.advance before).column quoted := by
  have hall : ∀ c ∈ text, (c != '\n') = true := by
    intro c hc
    simp only [bne_iff_ne]
    rintro rfl
    exact hline hc
  have hcolumn := Position.start_advance_column before
  have hnumber : (Position.start.advance before).line = before.count '\n' + 1 := by
    rw [Position.advance_line, Nat.add_comm]
    rfl
  -- the line is what precedes the text in it, the text, and what follows it in it
  have hquoted := getElem?_splitOn_newline before (text ++ after)
  rw [List.takeWhile_append_of_pos hall, ← List.append_assoc, ← List.append_assoc] at hquoted
  have hindent : (Position.start.advance before).column - 1
      = (before.reverse.takeWhile (· != '\n')).reverse.length := by
    rw [List.length_reverse]
    omega
  refine ⟨(before.reverse.takeWhile (· != '\n')).reverse ++ text ++ after.takeWhile (· != '\n'),
    by omega, by omega, ?_, ?_, ?_⟩
  · rw [hnumber, Nat.add_sub_cancel]
    exact hquoted
  · rw [hindent, List.length_append, List.length_append]
    omega
  · rw [hindent]
    exact stretch_append _ _ _

/-! ## §2. What diagnostics name. -/

/-- The diagnostic names `text` and says that it stands on that line, in that
column; both are so, and `text` is empty at the end of the source only. -/
structure Diagnostic.Locates (d : Diagnostic) (source : List Char) (line column : Nat)
    (text quoted : List Char) : Prop where
  text_eq : d.text = some (String.ofList text)
  line_eq : d.line = some line
  column_eq : d.column = some column
  stands : StandsAt text source line column quoted
  empty : text = [] → line = lineAt source source.length ∧ column = columnAt source source.length

/-- The diagnostic names a stretch of the source and the place where it starts. -/
def Diagnostic.Names (d : Diagnostic) (source : List Char) : Prop :=
  ∃ before text after, source = before ++ text ++ after ∧ '\n' ∉ text ∧ (text = [] → after = [])
    ∧ d.text = some (String.ofList text)
    ∧ d.line = some (Position.start.advance before).line
    ∧ d.column = some (Position.start.advance before).column

theorem Diagnostic.Names.locates {d : Diagnostic} {source : List Char} (h : d.Names source) :
    ∃ line column text quoted, d.Locates source line column text quoted := by
  obtain ⟨before, text, after, rfl, hline, hend, htext, hnumber, hcolumn⟩ := h
  obtain ⟨quoted, hstands⟩ := standsAt_advance before after hline
  refine ⟨_, _, text, quoted, htext, hnumber, hcolumn, hstands, ?_⟩
  rintro rfl
  obtain rfl := hend rfl
  rw [List.append_nil, List.append_nil]
  have hplace := Position.start_advance_eq before []
  rw [List.append_nil] at hplace
  rw [hplace]
  exact ⟨rfl, rfl⟩

namespace Lexicon

variable {lexicon : Lexicon}

/-- A complaint about a token of the source names it. -/
theorem names_of_mem_tokens (hlexicon : lexicon.Foreign '\n') {source : String} {t : Token}
    (ht : t ∈ (lexicon.tokenize source).tokens) (issue : Issue) (expected : Option (List String)) :
    (Diagnostic.atToken issue t expected).Names source.toList := by
  rw [tokenize_tokens, List.mem_append, List.mem_singleton] at ht
  rcases ht with ht | rfl
  · have hnewline := hlexicon.not_mem_image ht
    obtain ⟨before, text, after, kind, hsource, hnext, rfl⟩ := exists_lexeme_of_mem_bodyTokens ht
    refine ⟨before, text, after, hsource, ?_, ?_, rfl, rfl, rfl⟩
    · rwa [show (Lexeme.toToken _ kind).image = String.ofList text from rfl,
        String.toList_ofList] at hnewline
    · rintro rfl
      exact absurd (next_pos hnext).1 (by simp)
  · exact ⟨source.toList, [], [], by simp, by simp, fun _ => rfl, rfl, rfl, rfl⟩

/-- A stray is a character that no entry takes. -/
theorem exists_char_of_stray {covered : Nat} {p : Position} {cs : List Char} {l : Lexeme}
    (h : l ∈ lexicon.cutFrom covered p cs) (hstray : l.isStray = true) :
    ∃ c rest, l.text = [c] ∧ lexicon.next (c :: rest) = none := by
  fun_induction cutFrom lexicon covered p cs with
  | case1 => simp at h
  | case2 covered p c cs ih => exact ih h
  | case3 p c cs action n hnext ih =>
    rcases List.mem_cons.mp h with rfl | h
    · simp [Lexeme.isStray] at hstray
    · exact ih h
  | case4 p c cs hnext ih =>
    rcases List.mem_cons.mp h with rfl | h
    · exact ⟨c, cs, rfl, hnext⟩
    · exact ih h

end Lexicon

/-- What is reported as a run is one: strays that follow each other.  By induction on the lexemes; a
run is reported at the first of its strays, with those that follow. -/
theorem Lexeme.exists_run_of_mem_strayRuns {afterStray : Bool} {ls : List Lexeme}
    {run : Position × List Char} (h : run ∈ strayRuns afterStray ls) :
    ∃ before first more after, ls = before ++ (first :: more) ++ after
      ∧ run = (first.start, (first :: more).flatMap text) ∧ ∀ l ∈ first :: more, l.isStray := by
  induction ls generalizing afterStray with
  | nil => simp [strayRuns] at h
  | cons l ls ih =>
    have further {flag : Bool} (h : run ∈ strayRuns flag ls) :
        ∃ before first more after, l :: ls = before ++ (first :: more) ++ after
          ∧ run = (first.start, (first :: more).flatMap text)
          ∧ ∀ l ∈ first :: more, l.isStray := by
      obtain ⟨before, first, more, after, hls, hrun, hstrays⟩ := ih h
      exact ⟨l :: before, first, more, after, by rw [hls]; rfl, hrun, hstrays⟩
    rw [strayRuns] at h
    split at h
    · next hl =>
      split at h
      · exact further h
      · rcases List.mem_cons.mp h with rfl | h
        · rw [List.takeWhile_cons_of_pos hl]
          refine ⟨[], l, ls.takeWhile isStray, ls.dropWhile isStray, ?_, rfl, ?_⟩
          · rw [List.nil_append, List.cons_append, List.takeWhile_append_dropWhile]
          · exact List.forall_mem_cons.mpr ⟨hl, List.all_eq_true.mp List.all_takeWhile⟩
        · exact further h
    · exact further h

/-- A lexing error names its run: no run goes over a newline, which is a blank.  So the text that is
reported stands on one line, at the place of its first stray. -/
theorem Lexicon.names_of_mem_errors {lexicon : Lexicon} (hlexicon : lexicon.SkipsBlanks)
    {source : String} {d : Diagnostic} (hd : d ∈ (lexicon.tokenize source).errors) :
    d.Names source.toList := by
  obtain ⟨run, hrun, rfl⟩ := List.mem_map.mp hd
  obtain ⟨before, first, more, after, hcut, rfl, hstrays⟩ :=
    Lexeme.exists_run_of_mem_strayRuns hrun
  obtain ⟨front, back, hsource, hconsecutive⟩ := exists_split_of_cut_eq hcut
  have hstart : first.start = Position.start.advance front := hconsecutive.1
  refine ⟨front, (first :: more).flatMap Lexeme.text, back, hsource, ?_, ?_, rfl, ?_, ?_⟩
  -- the end of a line is a blank, and no blank is a stray
  · intro hmem
    obtain ⟨l, hl, hnewline⟩ := List.mem_flatMap.mp hmem
    have hcutl : l ∈ lexicon.cut source.toList := by
      rw [hcut]
      exact List.mem_append_left _ (List.mem_append_right _ hl)
    obtain ⟨c, rest, htext, hnone⟩ := exists_char_of_stray hcutl (hstrays l hl)
    rw [htext, List.mem_singleton] at hnewline
    rw [← hnewline, next_blank hlexicon (by decide)] at hnone
    exact absurd hnone (by simp)
  · intro hempty
    rw [List.flatMap_cons, List.append_eq_nil_iff] at hempty
    exact absurd hempty.1 hconsecutive.2.1
  · rw [← hstart]; rfl
  · rw [← hstart]; rfl

/-! ## §3. Failed parses. -/

/-- A failure stays the failure that it is. -/
theorem error_of_map_eq {ε α β : Type} {f : α → β} {e : Except ε α} {failure : ε}
    (h : e.map f = .error failure) : e = .error failure := by
  cases e with
  | ok a => cases h
  | error _ => cases h; rfl

theorem Braced.foreign_newline : Braced.lexicon.Foreign '\n' :=
  ⟨by decide +kernel, by decide, by decide⟩

theorem Worded.foreign_newline : Worded.lexicon.Foreign '\n' :=
  ⟨by decide +kernel, by decide, by decide⟩

theorem Braced.names_of_parse {source : String} {failure : Failure}
    (h : Braced.parse source = .error failure) {d : Diagnostic} (hd : d ∈ failure.diagnostics) :
    d.Names source.toList := by
  simp only [parse] at h
  split at h
  · have hparse := error_of_map_eq h
    simp only [parseTokens] at hparse
    split at hparse
    · cases hparse
    · obtain rfl := Except.error.inj hparse
      obtain ⟨issue, t, expected, ht, rfl⟩ :=
        exists_token_of_run lexicon_emitsNoEnd (fun _ => courses_program) hd
      exact Lexicon.names_of_mem_tokens foreign_newline ht issue expected
  · obtain rfl := Except.error.inj h
    exact Lexicon.names_of_mem_errors lexicon_separates.skipsBlanks hd

theorem Worded.names_of_parse {source : String} {failure : Failure}
    (h : Worded.parse source = .error failure) {d : Diagnostic} (hd : d ∈ failure.diagnostics) :
    d.Names source.toList := by
  have hmem : d ∈ (sourceRun source).complaints := by
    rw [diagnostics_of_parse h] at hd
    split at hd
    · exact hd
    · exact (List.mem_filter.mp hd).1
  obtain ⟨issue, t, expected, ht, rfl⟩ :=
    exists_token_of_run lexicon_emitsNoEnd (fun _ => courses_program) hmem
  exact Lexicon.names_of_mem_tokens foreign_newline ht issue expected

/-- Every diagnostic of a failed parse names a stretch of the source. -/
theorem Dialect.names_of_parse {dialect : Dialect} {source : String} {failure : Failure}
    (h : dialect.parse source = .error failure) {d : Diagnostic} (hd : d ∈ failure.diagnostics) :
    d.Names source.toList := by
  cases dialect with
  | braced => exact Braced.names_of_parse (error_of_map_eq h) hd
  | worded => exact Worded.names_of_parse (error_of_map_eq h) hd

/-! ## §4. The report. -/

namespace Report

/-- In two lines one below the other, the carets of the lower one stand under
the text that starts `indent` characters into the upper one; nothing else is there. -/
structure Underlines (carets quotation : List Char) (indent : Nat) (text : List Char) : Prop where
  carets_eq : carets = List.replicate indent ' ' ++ List.replicate text.length '^'
  text_eq : stretch quotation indent (indent + text.length) = text

/-- A margin moves the text and the carets alike. -/
theorem underlines_carets {source text quoted : List Char} {line column : Nat}
    (h : StandsAt text source line column quoted) :
    Underlines (carets line column (String.ofList text)).toList
      (margin line ++ String.ofList quoted).toList ((margin line).length + (column - 1)) text := by
  constructor
  · simp [carets, Text.repeatChar]
  · rw [String.toList_append, String.toList_ofList, ← String.length_toList, stretch]
    rw [List.drop_length_add_append]
    simpa [stretch] using h.text_eq

/-- A diagnostic that points into the source has its line quoted and underlined. -/
theorem exists_diagnosticLines {d : Diagnostic} {source text quoted : List Char}
    {line column : Nat} (h : d.Locates source line column text quoted) (filename : String) :
    ∃ more, diagnosticLines (sourceLines source) filename d
      = header filename d :: (margin line ++ String.ofList quoted)
        :: carets line column (String.ofList text) :: more := by
  obtain ⟨n, rfl⟩ := Nat.exists_eq_add_of_le' h.stands.line_pos
  have hquoted : (sourceLines source)[n]? = some quoted := h.stands.quoted_eq
  unfold diagnosticLines
  simp only [h.line_eq, hquoted, context, h.column_eq, h.text_eq]
  exact ⟨_, rfl⟩

end Report

/-- **Carets underline the offending text.**  Every diagnostic of a failed parse has a line and a
column, its text stands there in the source, and the report, after what it says about the earlier
diagnostics, quotes that line with carets under that text and nowhere else. -/
theorem Dialect.carets_underline_text {dialect : Dialect} {source : String} {failure : Failure}
    (hparse : dialect.parse source = .error failure) {before after : List Diagnostic}
    {d : Diagnostic} (hd : failure.diagnostics = before ++ d :: after)
    (filename : Option String) :
    ∃ line column text quoted, d.Locates source.toList line column text quoted
      ∧ ∃ carets more,
          failure.report source filename = "\n".intercalate (
            failure.message :: before.flatMap (Report.diagnosticLines
                (source.toList.splitOn '\n') (filename.getD "<source>"))
              ++ Report.header (filename.getD "<source>") d
                :: (Report.margin line ++ String.ofList quoted) :: carets :: more)
          ∧ Report.Underlines carets.toList (Report.margin line ++ String.ofList quoted).toList
              ((Report.margin line).length + (column - 1)) text := by
  have hmem : d ∈ failure.diagnostics := by
    rw [hd]
    exact List.mem_append_right _ List.mem_cons_self
  obtain ⟨line, column, text, quoted, hlocates⟩ := (names_of_parse hparse hmem).locates
  obtain ⟨more, hlines⟩ := Report.exists_diagnosticLines hlocates (filename.getD "<source>")
  refine ⟨line, column, text, quoted, hlocates, Report.carets line column (String.ofList text),
    more ++ after.flatMap (Report.diagnosticLines (Report.sourceLines source.toList)
      (filename.getD "<source>")), ?_, Report.underlines_carets hlocates.stands⟩
  simp only [Failure.report, hd, List.flatMap_append, List.flatMap_cons, hlines]
  rfl

/-- A call without its `;` on the second line, and nothing to close the program. -/
def unfinished : String :=
  "iniciar-programa inicia-ejecución\n  ñandú avanza;"

/-- What is said about it. -/
def unfinishedComplaints : List Diagnostic :=
  [⟨.mismatchedToken, some ⟨"avanza", some 2, some 9, some [";"]⟩⟩,
    ⟨.mismatchedToken, some ⟨"", some 2, some 16, some ["termina-ejecución"]⟩⟩]

/-- The word in the place of the `;` is underlined, from the ninth column on. -/
theorem unfinished_underlined :
    ∃ failure d after, Dialect.worded.parse unfinished = .error failure
      ∧ failure.diagnostics = [] ++ d :: after
      ∧ ∃ quoted, d.Locates unfinished.toList 2 9 "avanza".toList quoted
        ∧ ∃ carets : String, Report.Underlines carets.toList
            (Report.margin 2 ++ String.ofList quoted).toList 13 "avanza".toList := by
  have hfails : (Dialect.worded.parse unfinished).map (fun _ => ())
      = .error ⟨.parsing, unfinishedComplaints⟩ := by decide +kernel
  have hparse := error_of_map_eq hfails
  have hd : unfinishedComplaints
      = [] ++ ⟨.mismatchedToken, some ⟨"avanza", some 2, some 9, some [";"]⟩⟩
        :: unfinishedComplaints.tail := rfl
  obtain ⟨line, column, text, quoted, hlocates, carets, _, -, hcarets⟩ :=
    Dialect.carets_underline_text hparse hd none
  obtain rfl := Option.some.inj hlocates.line_eq
  obtain rfl := Option.some.inj hlocates.column_eq
  have htext : "avanza" = String.ofList text := Option.some.inj hlocates.text_eq
  obtain rfl : "avanza".toList = text := by rw [htext, String.toList_ofList]
  exact ⟨_, _, _, hparse, hd, quoted, hlocates, carets, hcarets⟩

end RobotLang
