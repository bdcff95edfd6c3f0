/-
  RobotLang.Proofs.Worded.Omissions
  ─────────────────────────────────
  **WHEN AN ACCEPTED OMISSION IS REPORTED.**

  The `;` right before a closing word may be left out; one is put in, and the
  complaint about it is dropped.  But it is only dropped when the parse goes
  through.  A parse that gives up further on reports all of its complaints,
  those about accepted omissions among them:

      a `;` put in before a closing word is reported   ↔   the parse gave up

  `cutShort` lacks its last word, and is blamed for a `;` as well.
-/
import RobotLang.Proofs.Worded.History
import RobotLang.Proofs.Worded.Leniency

namespace RobotLang.Worded

open Rule

/-! ## §1. The run on a source. -/

/-- The run of the grammar on a source. -/
def sourceRun (source : String) : Outcome Program :=
  program.run lexicon.label true false (lexicon.tokenize source).tokens

/-- The events are a history of the run on the source. -/
def IsHistory (source : String) (events : List Event) : Prop :=
  HasHistory (.forTokens lexicon.label true false (lexicon.tokenize source).tokens) []
    (lexicon.tokenize source).tokens.dropLast [] (sourceRun source) events

/-- Every source has a history, whether it parses or not. -/
theorem exists_isHistory (source : String) : ∃ events, IsHistory source events := by
  unfold IsHistory sourceRun
  rw [Lexicon.dropLast_tokens, ← Lexicon.beforeEnd_tokens lexicon_emitsNoEnd]
  exact traceable_program (endToken_kind _) rfl _

/-- No character is left over, so every source gets as far as the grammar. -/
theorem parse_eq_map (source : String) :
    parse source = (parseTokens (lexicon.tokenize source).tokens).map
      fun p => ⟨p, (lexicon.tokenize source).comments⟩ := by
  simp only [parse, Lexicon.errors_eq_nil lexicon_takesEverything]

/-- A run that gave up is refused with all of its complaints, the harmless ones among them. -/
theorem parseTokens_of_gaveUp {source : String} (h : (sourceRun source).result = none) :
    parseTokens (lexicon.tokenize source).tokens
      = .error ⟨.parsing, (sourceRun source).complaints⟩ := by
  unfold sourceRun at h ⊢
  simp only [parseTokens, h]

/-- A run that went through is refused for its serious complaints only. -/
theorem diagnostics_of_parseTokens {source : String} {p : Program} {f : Failure}
    (h : (sourceRun source).result = some p)
    (hf : parseTokens (lexicon.tokenize source).tokens = .error f) :
    f.diagnostics = serious (sourceRun source).complaints := by
  unfold sourceRun at h ⊢
  simp only [parseTokens, h] at hf
  split at hf
  · cases hf
  · cases hf
    rfl

/-- A run that gave up reports all of its complaints, one that went through the serious ones. -/
theorem diagnostics_of_parse {source : String} {f : Failure} (h : parse source = .error f) :
    f.diagnostics = if (sourceRun source).result = none then (sourceRun source).complaints
      else serious (sourceRun source).complaints := by
  have hparse : parseTokens (lexicon.tokenize source).tokens = .error f := by
    rw [parse_eq_map] at h
    generalize parseTokens (lexicon.tokenize source).tokens = e at h ⊢
    cases e <;> cases h
    rfl
  cases hresult : (sourceRun source).result with
  | none =>
    rw [parseTokens_of_gaveUp hresult] at hparse
    cases hparse
    rw [if_pos rfl]
  | some p => rw [if_neg (Option.some_ne_none p), diagnostics_of_parseTokens hresult hparse]

/-! ## §2. Reported omissions. -/

/-- A `;` that was put in has left its complaint. -/
theorem mismatch_mem_complaintsOf {s : Setting} {events : List Event} {t : Token}
    (h : .put t ∈ events) : .mismatch t [s.label .semicolon] ∈ complaintsOf s events :=
  List.mem_filterMap.mpr ⟨.put t, h, rfl⟩

/-- The complaint about an omission is one of the run's, and a harmless one. -/
theorem complaint_of_omission {source : String} {events : List Event} (h : IsHistory source events)
    {t : Token} (ht : t ∈ omissions events) :
    .mismatch t [";"] ∈ (sourceRun source).complaints
      ∧ isHarmless (.mismatch t [";"]) = true := by
  obtain ⟨hput, hcloses⟩ := put_of_mem_omissions ht
  unfold IsHistory at h
  generalize sourceRun source = o at h ⊢
  have hsource : t ∈ lexicon.bodyTokens source ∧ .mismatch t [";"] ∈ o.complaints := by
    rw [Lexicon.dropLast_tokens] at h
    cases h with
    | ended p h =>
      exact ⟨h.mem_of_put (endToken_kind _) hput, mismatch_mem_complaintsOf hput⟩
    | gaveUp why h =>
      exact ⟨h.mem_of_put (endToken_kind _) hput,
        List.mem_append_left _ (mismatch_mem_complaintsOf hput)⟩
  exact ⟨hsource.2, isHarmless_mismatch (image_mem_closers hsource.1 hcloses)⟩

/-- A source that does not parse is blamed for a `;` that may be left out exactly when the parse
gave up. -/
theorem omission_reported_iff_gaveUp {source : String} {f : Failure}
    (h : parse source = .error f) :
    (∃ events, IsHistory source events)
      ∧ ∀ events, IsHistory source events → ∀ t ∈ omissions events,
        (.mismatch t [";"] ∈ f.diagnostics ↔ (sourceRun source).result = none) := by
  refine ⟨exists_isHistory source, ?_⟩
  intro events hevents t ht
  obtain ⟨hmem, hharmless⟩ := complaint_of_omission hevents ht
  rw [diagnostics_of_parse h]
  by_cases hresult : (sourceRun source).result = none
  · simp [hresult, hmem]
  · simp [hresult, serious, hharmless]

/-- A program without its last word, and without the `;` that may be left out. -/
def cutShort : String :=
  "iniciar-programa inicia-ejecución avanza termina-ejecución"

/-- Its tokens: the last one closes the main list. -/
def cutShortTokens : List Token :=
  [⟨.beginProgram, "iniciar-programa", 1, 1, 1, 0, 15, false⟩,
    ⟨.beginExecution, "inicia-ejecución", 1, 18, 1, 17, 32, false⟩,
    ⟨.move, "avanza", 1, 35, 1, 34, 39, false⟩,
    ⟨.endExecution, "termina-ejecución", 1, 42, 1, 41, 57, false⟩]

/-- What is reported: a `;` that may be left out, and the last word. -/
def cutShortReported : List Diagnostic :=
  [⟨.mismatchedToken, some ⟨"termina-ejecución", some 1, some 42, some [";"]⟩⟩,
    ⟨.mismatchedToken, some ⟨"", some 1, some 59, some ["finalizar-programa"]⟩⟩]

/-- The run on the sample gives up at the end of input, by running the grammar on its tokens. -/
theorem sourceRun_cutShort : sourceRun cutShort = ⟨none, [], cutShortReported⟩ := by
  have hresult : (sourceRun cutShort).result.isNone = true := by decide +kernel
  have hrest : (sourceRun cutShort).rest = [] := by decide +kernel
  have hcomplaints : (sourceRun cutShort).complaints = cutShortReported := by decide +kernel
  generalize sourceRun cutShort = o at hresult hrest hcomplaints
  obtain ⟨result, rest, complaints⟩ := o
  simp only [Option.isNone_iff_eq_none] at hresult hrest hcomplaints
  rw [hresult, hrest, hcomplaints]

theorem parse_cutShort : ∃ f, parse cutShort = .error f := by
  have hgaveUp : (sourceRun cutShort).result = none := by rw [sourceRun_cutShort]
  rw [parse_eq_map, parseTokens_of_gaveUp hgaveUp]
  exact ⟨_, rfl⟩

/-- Three tokens are taken, a `;` is put in before the fourth, and it is taken too. -/
def cutShortEvents : List Event :=
  (cutShortTokens.take 3).map Event.took
    ++ (cutShortTokens.drop 3).flatMap fun t => [Event.put t, Event.took t]

/-- What happened: four words were taken, and a `;` was put in before the last of them. -/
theorem isHistory_cutShort : IsHistory cutShort cutShortEvents := by
  have htokens : (lexicon.tokenize cutShort).tokens.dropLast = cutShortTokens := by decide +kernel
  unfold IsHistory
  rw [htokens, sourceRun_cutShort]
  generalize hs : Setting.forTokens lexicon.label true false (lexicon.tokenize cutShort).tokens = s
  have hcomplaints : cutShortReported
      = complaintsOf s cutShortEvents ++ [cutShortReported.getLast (by decide)] := by
    rw [← hs]
    rfl
  have hhistory : History s [] cutShortTokens cutShortEvents [] [] := by
    refine .took _ (.plain _ (by decide)) (.took _ (.openMain [])
      (.took _ (.plain _ (by decide)) ?_))
    have hfollow : Kind.endExecution ∈ followIn [.endExecution] := by decide
    exact .put hfollow (by simp) (.took _ (.closeMain []) (.done [] []))
  rw [hcomplaints]
  exact .gaveUp _ hhistory

/-- The sample does not parse, it has a history, and for every history it has the `;` that may be
left out is reported exactly because the run gave up. -/
theorem omission_reported_cutShort : ∃ f, parse cutShort = .error f
    ∧ (∃ events, IsHistory cutShort events)
    ∧ ∀ events, IsHistory cutShort events → ∀ t ∈ omissions events,
      (.mismatch t [";"] ∈ f.diagnostics ↔ (sourceRun cutShort).result = none) := by
  obtain ⟨f, hf⟩ := parse_cutShort
  exact ⟨f, hf, omission_reported_iff_gaveUp hf⟩

/-- The source is blamed for the `;`, although one was put in. -/
theorem not_omission_never_reported :
    ¬ ∀ source f, parse source = .error f → ∀ events, IsHistory source events →
      ∀ t ∈ omissions events, .mismatch t [";"] ∉ f.diagnostics := by
  intro h
  obtain ⟨f, hf⟩ := parse_cutShort
  have hreported : f.diagnostics = cutShortReported := by
    rw [diagnostics_of_parse hf, sourceRun_cutShort, if_pos rfl]
  refine h cutShort f hf _ isHistory_cutShort _ (List.mem_singleton_self _) ?_
  rw [hreported]
  exact .head _

end RobotLang.Worded
