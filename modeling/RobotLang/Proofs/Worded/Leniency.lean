/-
  RobotLang.Proofs.Worded.Leniency
  ────────────────────────────────
  **EVERY PROGRAM WRITTEN BY THE LENIENT GRAMMAR IS ACCEPTED.**

  The parts fit together like this.  A source whose kinds are derivable by the
  lenient grammar is written by a program, with a `;` put in where one is
  missing; the program can be rearranged so that each `si-no` belongs to the
  nearest `si`; it is then what the grammar reads from the source, with harmless
  complaints only.  Settled, it has a `;` exactly where the source lacks one:

      parsed.program.view.tokens = withTerminators (the tokens of the source)
-/
import RobotLang.Proofs.Worded.Settling

namespace RobotLang.Worded

open Rule

/-! ## §1. The tokens of a source. -/

/-- The worded table has an entry for every character, so nothing is a stray. -/
theorem lexicon_takesEverything : lexicon.TakesEverything := by
  intro c cs
  unfold Lexicon.next
  rw [List.findSome?_isSome_iff]
  refine ⟨.skip .anyChar, by simp [lexicon], ?_⟩
  simp [Entry.apply, Entry.skip, Pattern.matchLength, Pattern.rawLength]

/-- A closing word is spelled like one. -/
theorem image_mem_closers {source : String} {t : Token} (ht : t ∈ lexicon.bodyTokens source)
    (hcloses : closesList t = true) : t.image ∈ closers := by
  simp only [closesList, Bool.or_eq_true, beq_iff_eq] at hcloses
  rcases hcloses with hk | hk
  · have himage : t.image ∈ ["fin"] :=
      Lexicon.image_of_kind ht hk (by decide) (by decide)
    simp only [List.mem_singleton] at himage
    simp [closers, himage]
  · have himage : t.image ∈ ["termina-ejecución", "termina-ejecucion"] :=
      Lexicon.image_of_kind ht hk (by decide) (by decide)
    simp only [List.mem_cons, List.not_mem_nil, or_false] at himage
    simp [closers, himage]

/-- A literal is digits. -/
theorem isDigits_of_mem {source : String} {t : Token} (ht : t ∈ lexicon.bodyTokens source)
    (hliteral : t.kind = .integerLiteral) : IsDigits t.image :=
  Lexicon.digits_of_kind ht hliteral (by decide) (by decide)

/-- Tokens of a source are genuine if the literals among them can be held. -/
theorem genuine_of_mem {source : String}
    (hfits : ∀ t ∈ lexicon.bodyTokens source,
      t.kind = .integerLiteral → decimal t.image ≤ 2 ^ 63 - 1) :
    ∀ t ∈ lexicon.bodyTokens source, Genuine t := by
  intro t ht
  have hfits := (Token.literalFits_iff_of_isDigits (isDigits_of_mem ht)).mpr (hfits t ht)
  exact ⟨hfits, Lexicon.inserted_eq_false_of_mem ht, image_mem_closers ht⟩

/-! ## §2. Accepting. -/

/-- Without a complaint, a program is read from exactly its tokens. -/
theorem eq_append_of_reads {s : Setting} {ts tree rest : List Token} {ds : List Diagnostic}
    (h : Reads s ts tree ds rest) (hds : ds = []) : ts = tree ++ rest := by
  induction h with
  | done ts => rfl
  | take t _ ih => rw [ih hds, List.cons_append]
  | put | drop | skip => cases hds

/-- What passes is accepted, and settled. -/
theorem parseTokens_of_passes {tokens : List Token} {p : Program}
    (hinserted : ∀ t ∈ beforeEnd tokens, t.inserted = false)
    (h : Passes program (.forTokens lexicon.label true false tokens) (beforeEnd tokens) p []) :
    parseTokens tokens = .ok p.settle := by
  obtain ⟨cs, hends, hserious⟩ := h
  have hrun : program.run lexicon.label true false tokens = ⟨some p, [], cs⟩ := hends
  have hsettled : (if cs.isEmpty then p else p.settle) = p.settle := by
    cases cs with
    | cons d cs => rfl
    | nil =>
      -- nothing was put in, so there is nothing to settle
      obtain ⟨_, hreads, _⟩ := makes_program (endToken_kind tokens) hends
      have htokens := eq_append_of_reads hreads rfl
      rw [List.append_nil] at htokens
      show p = p.settle
      exact (Program.settle_eq_self (by rwa [← htokens])).symm
  simp only [parseTokens, hrun, hserious, hsettled]

/-- The worded dialect is read with repairs, and without parentheses behind sensors. -/
theorem repairs_forTokens (tokens : List Token) :
    Repairs (.forTokens lexicon.label true false tokens) :=
  ⟨endToken_kind tokens, rfl, rfl⟩

/-- A source whose kinds are derivable from the documented grammar, with the `;`
of a last statement optional, and whose literals are at most 2^63 - 1 is
accepted.  The tokens of its program are those of the source, with a `;` put in
exactly where one is missing before a closing word.  They are a program by the
documented grammar as it stands, and every `si-no` belongs to the nearest `si`
before it that can take it. -/
theorem parse_of_lenient_derivation {source : String}
    (hderives : Derives (grammar true) (.symbol .program)
      ((lexicon.tokenize source).tokens.dropLast.map (·.kind)))
    (hfits : ∀ t ∈ (lexicon.tokenize source).tokens.dropLast,
      t.kind = .integerLiteral → decimal t.image ≤ 2 ^ 63 - 1) :
    ∃ parsed, parse source = .ok parsed
      ∧ sourceTokens parsed.program.view.tokens = (lexicon.tokenize source).tokens.dropLast
      ∧ parsed.program.view.tokens
        = withTerminators (lexicon.tokenize source).tokens.dropLast
      ∧ Derives (grammar false) (.symbol .program)
        (parsed.program.view.tokens.map (·.kind))
      ∧ parsed.program.Spelled false ∧ parsed.program.NearestElse := by
  rw [Lexicon.dropLast_tokens] at *
  have hinserted : ∀ t ∈ lexicon.bodyTokens source, t.inserted = false :=
    fun _ => Lexicon.inserted_eq_false_of_mem
  obtain ⟨q, hq, hqwritten⟩ := exists_lenient_of_derives (genuine_of_mem hfits) hderives
  -- the program that is read has its `si-no`s at the nearest `si`s
  have hlenient := Program.lenient_nearest hq
  have hwritten : q.nearest.written = lexicon.bodyTokens source :=
    q.written_nearest.trans hqwritten
  have htokens : q.nearest.settle.view.tokens = withTerminators (lexicon.bodyTokens source) := by
    rw [Program.tokens_settle hlenient (by rwa [hwritten]), hwritten]
  have hbefore := Lexicon.beforeEnd_tokens lexicon_emitsNoEnd source
  have hparse : parseTokens (lexicon.tokenize source).tokens = .ok q.nearest.settle := by
    refine parseTokens_of_passes (by rwa [hbefore]) ?_
    rw [hbefore, ← hwritten]
    exact passes_program (repairs_forTokens _) hlenient q.nearestElse_nearest
  have hspelled := Program.spelled_settle hlenient
  refine ⟨⟨q.nearest.settle, (lexicon.tokenize source).comments⟩, ?_, ?_, htokens,
    Program.derives hspelled, hspelled, Program.nearestElse_settle q.nearestElse_nearest⟩
  · simp [parse, Lexicon.errors_eq_nil lexicon_takesEverything, hparse, Except.map]
  · show sourceTokens q.nearest.settle.view.tokens = _
    rw [htokens, sourceTokens_withTerminators]
    exact List.filter_eq_self.mpr fun t ht => by simp [hinserted t ht]

/-- A program that lacks a `;` at the end of its block and of its main list, and
whose `si-no` could belong to two `si`s. -/
def unterminated : String :=
  "iniciar-programa inicia-ejecucion si frente-libre entonces "
    ++ "si frente-libre entonces inicio avanza fin si-no apagate "
    ++ "termina-ejecucion finalizar-programa"

/-- The kinds of the sample, by running the lexer on it. -/
theorem kinds_unterminated : (lexicon.tokenize unterminated).tokens.dropLast.map (·.kind)
    = [.beginProgram, .beginExecution, .if_, .sensor .frontIsClear, .then_, .if_,
      .sensor .frontIsClear, .then_, .begin_, .move, .end_, .else_, .turnOff, .endExecution,
      .endProgram] := by
  decide +kernel

/-- The sample is derived by the lenient grammar, which lets the last `;` of a list be left out.
Built from the inside out, statement by statement. -/
theorem derives_unterminated :
    Derives (grammar true) (.symbol .program)
      ((lexicon.tokenize unterminated).tokens.dropLast.map (·.kind)) := by
  have hsensor : ∀ x, Derives (grammar true) (.symbol (.expression .term)) [.sensor x] := by
    intro x
    have hword : Derives (grammar true) (.symbol (.expression .boolFun)) [.sensor x] :=
      .symbol (.word (List.mem_map_of_mem (Sensor.mem_all x)))
    have hclause : Derives (grammar true) (.symbol (.expression .clause)) [.sensor x] :=
      .symbol (.altRight (.altLeft hword))
    have hnot : Derives (grammar true) (.symbol (.expression .notTerm)) [.sensor x] :=
      .symbol (.seq .optNone hclause)
    have hand : Derives (grammar true) (.symbol (.expression .andTerm)) [.sensor x] :=
      .symbol (.seq hnot .starNil)
    exact .symbol (.seq hand .starNil)
  have haction : ∀ kind ∈ Builtin.kinds,
      Derives (grammar true) (.symbol .singleStatement) [kind] :=
    fun _ hmem => derives_command true .statementFun (by decide) (.word hmem)
  have hblock : Derives (grammar true) (.symbol .singleStatement) [.begin_, .move, .end_] :=
    derives_command true .block (by decide) (.seq (.token _) (.seq .starNil
      (.seq (.optSome (haction .move (by decide))) (.seq (.token _) .nothing))))
  have hinner : Derives (grammar true) (.symbol .singleStatement)
      [.if_, .sensor .frontIsClear, .then_, .begin_, .move, .end_, .else_, .turnOff] :=
    derives_command true .cond (by decide) (.seq (.token _) (.seq (hsensor .frontIsClear)
      (.seq (.token _) (.seq hblock (.seq (.optSome (.seq (.token _)
        (.seq (haction .turnOff (by decide)) .nothing))) .nothing)))))
  have houter : Derives (grammar true) (.symbol .singleStatement)
      [.if_, .sensor .frontIsClear, .then_, .if_, .sensor .frontIsClear, .then_, .begin_, .move,
        .end_, .else_, .turnOff] :=
    derives_command true .cond (by decide) (.seq (.token _) (.seq (hsensor .frontIsClear)
      (.seq (.token _) (.seq hinner (.seq .optNone .nothing)))))
  have hmain : Derives (grammar true) (.symbol .programDef)
      [.beginExecution, .if_, .sensor .frontIsClear, .then_, .if_, .sensor .frontIsClear, .then_,
        .begin_, .move, .end_, .else_, .turnOff, .endExecution] :=
    .symbol (.seq (.token _) (.seq .starNil (.seq (.optSome houter) (.seq (.token _) .nothing))))
  rw [kinds_unterminated]
  exact .symbol (.seq (.token _) (.seq .starNil (.seq hmain (.seq (.token _) .nothing))))

/-- The sample is accepted with all of its tokens, with a `;` wherever one is missing, and with its
`si-no` at the nearest `si`. -/
theorem parse_unterminated :
    ∃ parsed, parse unterminated = .ok parsed
      ∧ sourceTokens parsed.program.view.tokens
        = (lexicon.tokenize unterminated).tokens.dropLast
      ∧ parsed.program.view.tokens
        = withTerminators (lexicon.tokenize unterminated).tokens.dropLast
      ∧ parsed.program.NearestElse := by
  have hfits : ∀ t ∈ (lexicon.tokenize unterminated).tokens.dropLast,
      t.kind = .integerLiteral → decimal t.image ≤ 2 ^ 63 - 1 := by
    intro t ht hliteral
    have hmem : t.kind ∈ (lexicon.tokenize unterminated).tokens.dropLast.map (·.kind) :=
      List.mem_map_of_mem ht
    rw [kinds_unterminated, hliteral] at hmem
    exact absurd hmem (by decide)
  obtain ⟨parsed, hparse, hsource, htokens, _, _, hnearest⟩ :=
    parse_of_lenient_derivation derives_unterminated hfits
  exact ⟨parsed, hparse, hsource, htokens, hnearest⟩

end RobotLang.Worded
