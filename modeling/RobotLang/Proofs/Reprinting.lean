/-
  RobotLang.Proofs.Reprinting
  ───────────────────────────
  **A PROGRAM PRINTED FROM ITS TREE IS THE SAME PROGRAM.**

  Printing a tree writes the texts of its tokens with blanks between them, the
  `;` that were put in with the others.  In either dialect the printed source of
  a program is a source of the same program, and needs no repair:

      dialect.parse source = .ok parsed
        →  ∃ again, dialect.parse (printed parsed.program.tokens) = .ok again
             ∧ no token of `again` was put in
             ∧ again.program.shape = parsed.program.shape, `;` for `<inserted>`

  There are three steps.  The printed tokens are cut apart where the blanks are.
  From the tokens of a program the program is read again.  And the places of
  tokens, all of which have changed, do not matter to a grammar.
-/
import RobotLang.Dialect
import RobotLang.Proofs.Braced.FirstImpossible
import RobotLang.Proofs.Exchange
import RobotLang.Proofs.Lexing.Printing
import RobotLang.Proofs.Shape
import RobotLang.Proofs.Worded.Rereading

namespace RobotLang

open Rule Exchange

/-! ## §1. Printed tokens. -/

/-- The texts of the tokens, with a blank between each two. -/
def printed (ts : List Token) : String :=
  " ".intercalate (ts.map (·.image))

/-- Without its place, a token is its word and whether it was put in. -/
theorem unplaced_eq {t u : Token} (hword : t.word = u.word) (hin : t.inserted = u.inserted) :
    unplaced t = unplaced u := by
  obtain ⟨hkind, himage⟩ := Prod.mk.inj hword
  show Token.mk t.kind t.image 0 0 0 0 0 t.inserted = Token.mk u.kind u.image 0 0 0 0 0 u.inserted
  rw [hkind, himage, hin]

/-- Lists that agree in one respect agree in any other that it settles. -/
theorem map_eq_map_of_map {α β γ : Type} {f : α → β} {g : α → γ} {as bs : List α}
    (h : as.map f = bs.map f) (hfg : ∀ a ∈ as, ∀ b ∈ bs, f a = f b → g a = g b) :
    as.map g = bs.map g := by
  induction as generalizing bs with
  | nil =>
    rw [List.map_nil, eq_comm, List.map_eq_nil_iff] at h
    rw [h]
  | cons a as ih =>
    cases bs with
    | nil => exact absurd h (by simp)
    | cons b bs =>
      obtain ⟨hhead, htail⟩ := List.cons.inj h
      rw [List.map_cons, List.map_cons, hfg a List.mem_cons_self b List.mem_cons_self hhead,
        ih htail fun a ha b hb => hfg a (List.mem_cons_of_mem _ ha) b (List.mem_cons_of_mem _ hb)]

theorem map_unplaced_eq {ts us : List Token} (hwords : ts.map Token.word = us.map Token.word)
    (hts : ∀ t ∈ ts, t.inserted = false) (hus : ∀ u ∈ us, u.inserted = false) :
    ts.map unplaced = us.map unplaced :=
  map_eq_map_of_map hwords fun t ht u hu hword =>
    unplaced_eq hword ((hts t ht).trans (hus u hu).symm)

/-- What is printed does not depend on places. -/
theorem printed_eq {ts us : List Token} (h : ts.map unplaced = us.map unplaced) :
    printed ts = printed us := by
  have himages (ts : List Token) :
      ts.map (·.image) = (ts.map unplaced).map (·.image) := by
    rw [List.map_map]
    rfl
  unfold printed
  rw [himages, h, ← himages]

section Lexing

variable {lexicon : Lexicon}

/-- Tokens that stand on their own are cut apart when they are printed, and all of them stand in
the source then. -/
theorem tokenize_printed (hlexicon : lexicon.SkipsBlanks) (ts : List Token)
    (hts : ∀ t ∈ ts, lexicon.Stands t.kind t.image.toList) :
    (lexicon.tokenize (printed ts)).errors = []
      ∧ (lexicon.bodyTokens (printed ts)).map unplaced
        = (ts.map Token.present).map unplaced := by
  have hprinted : printed ts = " ".intercalate ((ts.map Token.word).map (·.2)) := by
    rw [List.map_map]
    rfl
  obtain ⟨herrors, hwords⟩ := Lexicon.tokenize_intercalate hlexicon (ts.map Token.word)
    (List.forall_mem_map.mpr hts)
  rw [← hprinted] at herrors hwords
  refine ⟨herrors, map_unplaced_eq ?_ (fun _ => Lexicon.inserted_eq_false_of_mem)
    (List.forall_mem_map.mpr fun _ _ => rfl)⟩
  rw [hwords, List.map_map]
  rfl

/-- The settings of two sources differ in where the input ends only. -/
theorem exchange_forTokens (hlexicon : lexicon.EmitsNoEnd) (label : Kind → String)
    (recovery sensorParens : Bool) (source : String) :
    (Setting.forTokens label recovery sensorParens (lexicon.tokenize source).tokens).exchange
      unplaced = ⟨label, recovery, sensorParens, .endOfInput 0 0 0⟩ := by
  have hstop : endToken (lexicon.tokenize source).tokens = Lexicon.endOfText source.toList :=
    endToken_append_stop rfl fun _ => Lexicon.kind_ne_eof_of_mem hlexicon
  unfold Setting.forTokens Setting.exchange
  rw [hstop]
  rfl

/-- No token of a source was put in, the end of input among them. -/
theorem Lexicon.inserted_eq_false_of_mem_tokens {source : String} {t : Token}
    (ht : t ∈ (lexicon.tokenize source).tokens) : t.inserted = false := by
  rw [tokenize_tokens, List.mem_append, List.mem_singleton] at ht
  rcases ht with ht | rfl
  · exact inserted_eq_false_of_mem ht
  · rfl

/-- Sources whose tokens an exchange makes the same run to outcomes that it makes the same.  The
settings become the same too, as they differ in the end of input only. -/
theorem exists_exchanged_run {α : Type} {rule : Rule α} {e : Exchange} {f : α → α}
    {source source' : String} (hend : lexicon.EmitsNoEnd)
    (hrule : ∀ s, Exchanges e f s rule rule) (label : Kind → String) (recovery sensorParens : Bool)
    (h : (lexicon.tokenize source).tokens.map e = (lexicon.tokenize source').tokens.map e) :
    ∃ o, Exchanged e f
        (rule.run label recovery sensorParens (lexicon.tokenize source).tokens) o
      ∧ Exchanged e f
        (rule.run label recovery sensorParens (lexicon.tokenize source').tokens) o := by
  have hstop (source : String) :
      endToken (lexicon.tokenize source).tokens = Lexicon.endOfText source.toList :=
    endToken_append_stop rfl fun _ => Lexicon.kind_ne_eof_of_mem hend
  rw [Lexicon.tokenize_tokens, Lexicon.tokenize_tokens, List.map_append, List.map_append] at h
  obtain ⟨hbody, hlast⟩ := List.append_inj' h rfl
  -- exchanging makes the settings equal too, as they differ in the end of input only
  have hsetting :
      (Setting.forTokens label recovery sensorParens (lexicon.tokenize source).tokens).exchange e
        = (Setting.forTokens label recovery sensorParens
            (lexicon.tokenize source').tokens).exchange e := by
    unfold Setting.forTokens Setting.exchange
    rw [hstop, hstop, List.head_eq_of_cons_eq hlast]
  unfold Rule.run
  rw [Lexicon.beforeEnd_tokens hend, Lexicon.beforeEnd_tokens hend]
  have hrun := hrule (.forTokens label recovery sensorParens (lexicon.tokenize source).tokens)
    (lexicon.bodyTokens source)
  rw [hsetting, hbody] at hrun
  exact ⟨_, hrun, hrule _ (lexicon.bodyTokens source')⟩

/-- A token of a source is no mark. -/
theorem Lexicon.Foreign.clear_of_mem (hlexicon : lexicon.Foreign '<') {source : String} {t : Token}
    (ht : t ∈ lexicon.bodyTokens source) : t.Clear := by
  rw [Token.Clear, if_neg (by simp [Lexicon.inserted_eq_false_of_mem ht])]
  exact hlexicon.not_mem_image ht

/-- What a rule makes of tokens that stand in the source it makes of the printed ones, in other
places. -/
theorem ends_printed {α : Type} {rule : Rule α} {f : α → α} {label : Kind → String}
    {recovery sensorParens : Bool} {source : String} {ts : List Token} {a : α}
    (hskips : lexicon.SkipsBlanks) (hend : lexicon.EmitsNoEnd)
    (hrule : ∀ s, Exchanges unplaced f s rule rule)
    (hts : ∀ t ∈ ts, lexicon.Stands t.kind t.image.toList)
    (h : Ends rule (.forTokens label recovery sensorParens (lexicon.tokenize source).tokens)
      (ts.map Token.present) a [] []) :
    (lexicon.tokenize (printed ts)).errors = []
      ∧ ∃ a', Ends rule (.forTokens label recovery sensorParens
            (lexicon.tokenize (printed ts)).tokens) (lexicon.bodyTokens (printed ts)) a' [] []
          ∧ f a' = f a := by
  obtain ⟨herrors, hwords⟩ := tokenize_printed hskips ts hts
  refine ⟨herrors, ?_⟩
  have hsetting := exchange_forTokens hend label recovery sensorParens source
  rw [← exchange_forTokens hend label recovery sensorParens (printed ts)] at hsetting
  obtain ⟨a', rest, ha', hfa, hrest⟩ := ends_of_exchanged hrule hsetting hwords.symm h
  obtain rfl : rest = [] := List.map_eq_nil_iff.mp hrest
  exact ⟨a', ha', hfa⟩

end Lexing

/-! ## §2. Reread trees. -/

/-- Forgetting places keeps the shape. -/
theorem shape_map_unplaced (node : Node) : (node.map unplaced).shape = node.shape :=
  Node.shape_map (f := unplaced) fun _ _ => rfl

/-- The shape of a tree that was read from other places tells of no repairs. -/
theorem shape_of_map_unplaced {node again : Node} (hnode : node.Unmarked)
    (hclear : ∀ t ∈ node.tokens, t.Clear)
    (h : again.map unplaced = (node.map Token.present).map unplaced) :
    again.shape = Text.replaceAll "<inserted>" ";" node.shape := by
  rw [Node.replaceAll_shape hnode hclear, ← shape_map_unplaced again, h, shape_map_unplaced]

/-! ## §3. The braced dialect. -/

namespace Braced

/-- No token of the braced dialect has a `<` in it. -/
theorem foreign_less : lexicon.Foreign '<' :=
  ⟨by decide +kernel, by decide, by decide⟩

/-- An accepted program was read from the tokens of its source. -/
theorem ends_of_parse {source : String} {parsed : Parsed Program}
    (h : parse source = .ok parsed) :
    Ends program (sourceSetting source) (lexicon.bodyTokens source) parsed.program [] [] := by
  have hlexed := errors_eq_nil_of_accepted ⟨parsed, h⟩
  obtain ⟨p, hp⟩ := (exists_ends_program_iff (sourceSetting_stop_kind source) rfl rfl
    fun _ => kind_ne_eof).mpr (accepted_iff.mp ⟨parsed, h⟩).2
  obtain rfl := Except.ok.inj ((parse_of_ends hlexed hp).symm.trans h)
  exact hp

/-- A program is read again from its tokens when they are printed.  Its tokens are those of the
source, each stands for itself before a blank, and the rules do not look at places. -/
theorem parse_printed {source : String} {parsed : Parsed Program}
    (h : parse source = .ok parsed) :
    ∃ again, parse (printed parsed.program.view.tokens) = .ok again
      ∧ (∀ t ∈ again.program.view.tokens, t.inserted = false)
      ∧ again.program.view.shape
        = Text.replaceAll "<inserted>" ";" parsed.program.view.shape := by
  obtain ⟨-, htokens⟩ := spelled_of_parse h
  have hsource : ∀ t ∈ parsed.program.view.tokens, t.present = t := by
    intro t ht
    exact Token.present_eq_self (Lexicon.inserted_eq_false_of_mem (htokens ▸ ht))
  have hends := ends_of_parse h
  rw [← htokens, ← List.map_id' parsed.program.view.tokens, ← List.map_congr_left hsource] at hends
  obtain ⟨herrors, p, hp, hmap⟩ := ends_printed lexicon_separates.skipsBlanks lexicon_emitsNoEnd
    (fun _ => exchanges_program) (fun t ht => stands_of_mem (htokens ▸ ht)) hends
  have hparse := parse_of_ends herrors hp
  refine ⟨_, hparse, ?_, shape_of_map_unplaced (Program.legible _).unmarked ?_ ?_⟩
  · intro t ht
    exact Lexicon.inserted_eq_false_of_mem ((spelled_of_parse hparse).2 ▸ ht)
  · intro t ht
    rw [htokens] at ht
    exact foreign_less.clear_of_mem ht
  · rw [← Program.view_map, hmap, Program.view_map]
    show _ = Node.map _ ⟨_, parsed.program.view.children.map Token.present⟩
    rw [Forest.map_eq_self hsource]

end Braced

/-! ## §4. The worded dialect. -/

namespace Worded

/-- What starts a mark or a comment is in no token. -/
theorem foreign {c : Char} (hc : c ∈ ['<', '*', '\x7b']) : lexicon.Foreign c := by
  have hentries : (['<', '*', '\x7b'].all fun c => lexicon.entries.all (·.avoids c)) = true := by
    decide +kernel
  have hstart : (['<', '*', '\x7b'].all fun c => lexicon.names.start c == false) = true := by
    decide
  have hcontinue : (['<', '*', '\x7b'].all fun c => lexicon.names.continue_ c == false) = true := by
    decide
  exact ⟨List.all_eq_true.mp hentries c hc, eq_of_beq (List.all_eq_true.mp hstart c hc),
    eq_of_beq (List.all_eq_true.mp hcontinue c hc)⟩

/-- The words of the table stop at blanks, and what starts its comments is in no word. -/
theorem lexicon_prints : lexicon.Prints where
  blanks := rfl
  entries := by
    have hwords : ∀ entry ∈ [Entry.skip .blanks] ++ keywords
        ++ [.emit .digits .integerLiteral, .emit .name .identifier],
        entry.pattern.StopsAtBlank := by decide +kernel
    have hsigns : ∀ entry ∈ signs, entry.pattern.StopsAtBlank := by decide
    have hcomments : ∀ entry ∈ comments, entry.Aside lexicon := by
      simp only [comments, List.forall_mem_cons]
      exact ⟨⟨nofun, rfl, by decide, '\x7b', by decide, foreign (by decide)⟩,
        ⟨nofun, rfl, by decide, '*', by decide, foreign (by decide)⟩, by simp⟩
    have hrest : (Entry.skip .anyChar).Aside lexicon := ⟨nofun, rfl, trivial⟩
    show ∀ entry ∈ [Entry.skip .blanks] ++ keywords
      ++ [.emit .digits .integerLiteral, .emit .name .identifier] ++ comments ++ signs
      ++ [.skip .anyChar], _
    rw [List.forall_mem_append, List.forall_mem_append, List.forall_mem_append]
    exact ⟨⟨⟨fun entry h => .inl (hwords entry h), fun entry h => .inr (hcomments entry h)⟩,
      fun entry h => .inl (hsigns entry h)⟩, by simpa using .inr hrest⟩
  names := by decide

/-- How the tokens of a source are read. -/
def sourceSetting (source : String) : Setting :=
  .forTokens lexicon.label true false (lexicon.tokenize source).tokens

/-- Reading a whole source is reading its tokens, with the end of its text behind them. -/
theorem run_source (source : String) :
    program.run lexicon.label true false (lexicon.tokenize source).tokens
      = program (sourceSetting source) (lexicon.bodyTokens source) := by
  unfold Rule.run
  rw [Lexicon.beforeEnd_tokens lexicon_emitsNoEnd]
  rfl

/-- An accepted program was read from the tokens of its source, and perhaps settled. -/
theorem exists_ends_of_parse {source : String} {parsed : Parsed Program}
    (h : parse source = .ok parsed) :
    ∃ p rest cs, Ends program (sourceSetting source) (lexicon.bodyTokens source) p rest cs
      ∧ (parsed.program = p ∨ parsed.program = p.settle) := by
  simp only [parse, Lexicon.errors_eq_nil lexicon_takesEverything, parseTokens, run_source] at h
  generalize ho : program (sourceSetting source) (lexicon.bodyTokens source) = o at h
  obtain ⟨result, rest, cs⟩ := o
  cases result with
  | none => cases h
  | some p =>
    refine ⟨p, rest, cs, ho, ?_⟩
    dsimp only at h
    split at h
    · obtain rfl := Except.ok.inj h
      dsimp only
      split
      · exact .inl rfl
      · exact .inr rfl
    · cases h

/-- A program that was read without a complaint is accepted as it is: there is nothing to settle. -/
theorem parse_of_ends {source : String} {p : Program} {rest : List Token}
    (h : Ends program (sourceSetting source) (lexicon.bodyTokens source) p rest []) :
    parse source = .ok ⟨p, (lexicon.tokenize source).comments⟩ := by
  unfold Ends at h
  simp only [parse, Lexicon.errors_eq_nil lexicon_takesEverything, parseTokens, run_source, h]
  rfl

/-- Where a `;` that was put in stands is all that settling changes. -/
theorem Code.map_settle {part : Part} (c : Code part) :
    c.settle.map unplaced = c.map unplaced := by
  have hsettled (command : Command) (semicolon : Token) :
      unplaced (settledTerminator command semicolon) = unplaced semicolon := by
    unfold settledTerminator
    split
    · split <;> rfl
    · rfl
  induction c with
  | nil | empty | builtin | call | callWith => rfl
  | cons head tail ihhead ihtail => rw [Code.settle, Code.map, Code.map, ihhead, ihtail]
  | ended command semicolon ih => rw [Code.settle, Code.map, Code.map, ih, hsettled]
  | cond _ _ _ _ ih | whileDo _ _ _ _ ih | times _ _ _ _ ih | block _ _ _ ih =>
    rw [Code.settle, Code.map, Code.map, ih]
  | condElse _ _ _ _ _ _ ihyes ihno => rw [Code.settle, Code.map, Code.map, ihyes, ihno]

/-- Without places, a settled program is the program. -/
theorem Program.map_settle (p : Program) : p.settle.map unplaced = p.map unplaced := by
  have hdefinition (d : Definition) : d.settle.map unplaced = d.map unplaced := by
    cases d with
    | full => rw [Definition.settle, Definition.map, Definition.map, Code.map_settle]
    | prototype => rfl
  simp [Program.settle, Program.map, Main.map, Code.map_settle, hdefinition, Function.comp_def]

/-- An accepted program was read from the tokens of its source, apart from places. -/
theorem exists_ends_map_of_parse {source : String} {parsed : Parsed Program}
    (h : parse source = .ok parsed) :
    ∃ p rest cs, Ends program (sourceSetting source) (lexicon.bodyTokens source) p rest cs
      ∧ parsed.program.map unplaced = p.map unplaced := by
  obtain ⟨p, rest, cs, hends, hp | hp⟩ := exists_ends_of_parse h
  · exact ⟨p, rest, cs, hends, by rw [hp]⟩
  · exact ⟨p, rest, cs, hends, by rw [hp, Program.map_settle]⟩

/-- Every token of a program that was read stands on its own and has no `<`, also one that was put
in. -/
theorem stands_of_ends {source : String} {p : Program} {rest : List Token}
    {cs : List Diagnostic}
    (h : Ends program (sourceSetting source) (lexicon.bodyTokens source) p rest cs) :
    ∀ t ∈ p.view.tokens, lexicon.Stands t.kind t.image.toList ∧ t.Clear := by
  intro t ht
  obtain ⟨-, hreads, -⟩ := makes_program (endToken_kind _) h
  rcases hreads.mem_or_put ht with hmem | ⟨u, rfl⟩
  · exact ⟨lexicon_prints.stands_of_mem hmem, (foreign (by decide)).clear_of_mem hmem⟩
  · have hnext : lexicon.next (";".toList ++ []) = some (.emit .semicolon, ";".toList.length) := by
      decide +kernel
    exact ⟨lexicon_prints.stands_of_next hnext, rfl⟩

/-- A program is read again from its tokens when they are printed.  Each `;` that was put in is
printed, so nothing is missing when the text is read, and nothing has to be put in. -/
theorem parse_printed {source : String} {parsed : Parsed Program}
    (h : parse source = .ok parsed) :
    ∃ again, parse (printed parsed.program.view.tokens) = .ok again
      ∧ (∀ t ∈ again.program.view.tokens, t.inserted = false)
      ∧ again.program.view.shape
        = Text.replaceAll "<inserted>" ";" parsed.program.view.shape := by
  obtain ⟨p, rest, cs, hends, hsettled⟩ := exists_ends_map_of_parse h
  -- places are neither printed nor part of the shape
  have hsame : parsed.program.view.map unplaced = p.view.map unplaced := by
    rw [← Program.view_map, ← Program.view_map, hsettled]
  have hprinted : printed parsed.program.view.tokens = printed p.view.tokens := by
    refine printed_eq ?_
    rw [← Node.tokens_map, hsame, Node.tokens_map]
  have hshape : parsed.program.view.shape = p.view.shape := by
    rw [← shape_map_unplaced, hsame, shape_map_unplaced]
  rw [hprinted, hshape]
  have htokens := stands_of_ends hends
  -- read from its own tokens, and then from those that were printed
  obtain ⟨-, q, hq, hmap⟩ := ends_printed lexicon_prints.blanks lexicon_emitsNoEnd
    (fun _ => exchanges_program) (fun t ht => (htokens t ht).1)
    (ends_program_again (repairs_forTokens _) hends)
  refine ⟨_, parse_of_ends hq, ?_, shape_of_map_unplaced (Program.legible p).unmarked
    (fun t ht => (htokens t ht).2) ?_⟩
  · obtain ⟨-, hreads, -⟩ := makes_program (endToken_kind _) hq
    intro t ht
    have hmem : t ∈ lexicon.bodyTokens (printed p.view.tokens) := by
      rw [eq_append_of_reads hreads rfl]
      exact List.mem_append_left [] ht
    exact Lexicon.inserted_eq_false_of_mem hmem
  · rw [← Program.view_map, hmap, Program.view_map, Program.view_map]

end Worded

/-! ## §5. Both dialects. -/

/-- **Printing a program and reading it again is stable.**  In either dialect, the texts of the
tokens of an accepted program, with single blanks between them, are an accepted source again.
No repair is needed to read it, and the shape of its tree is that of the program, with `;`
written over every mark of a `;` that was put in. -/
theorem Dialect.reprinting_keeps_shape {dialect : Dialect} {source : String}
    {parsed : Parsed Node} (h : dialect.parse source = .ok parsed) :
    ∃ again, dialect.parse (printed parsed.program.tokens) = .ok again
      ∧ (∀ t ∈ again.program.tokens, t.inserted = false)
      ∧ again.program.shape = Text.replaceAll "<inserted>" ";" parsed.program.shape := by
  cases dialect with
  | braced =>
    cases hprogram : Braced.parse source with
    | error failure =>
      rw [Dialect.parse, hprogram] at h
      cases h
    | ok program =>
      rw [Dialect.parse, hprogram] at h
      obtain rfl := Except.ok.inj h
      obtain ⟨again, hagain, hsource, hshape⟩ := Braced.parse_printed hprogram
      refine ⟨⟨again.program.view, again.comments⟩, ?_, hsource, hshape⟩
      rw [Dialect.parse, hagain]
      rfl
  | worded =>
    cases hprogram : Worded.parse source with
    | error failure =>
      rw [Dialect.parse, hprogram] at h
      cases h
    | ok program =>
      rw [Dialect.parse, hprogram] at h
      obtain rfl := Except.ok.inj h
      obtain ⟨again, hagain, hsource, hshape⟩ := Worded.parse_printed hprogram
      refine ⟨⟨again.program.view, again.comments⟩, ?_, hsource, hshape⟩
      rw [Dialect.parse, hagain]
      rfl

/-- A program without blanks around its signs, with a comment, with a `;` missing before each of
its closing words, and with a `si-no` that two `si`s could take. -/
def crowded : String :=
  "iniciar-programa inicia-ejecución si(frente-libre)entonces si frente-libre entonces "
    ++ "inicio avanza(*!*)fin si-no x(sucede(1))termina-ejecución finalizar-programa"

/-- Its tokens as they are printed. -/
def crowdedPrinted : String :=
  "iniciar-programa inicia-ejecución si ( frente-libre ) entonces si frente-libre entonces "
    ++ "inicio avanza ; fin si-no x ( sucede ( 1 ) ) ; termina-ejecución finalizar-programa"

/-- What is printed of the sample, by running the parser on it. -/
theorem printed_crowded : (Dialect.worded.parse crowded).toOption.map (fun parsed =>
    printed parsed.program.tokens) = some crowdedPrinted := by
  decide +kernel

/-- The sample is printed with its missing `;`s and reads again with all of them in the source.  Its
shape is that of the first reading, with `;` written over each mark. -/
theorem reprinting_crowded :
    ∃ parsed again, Dialect.worded.parse crowded = .ok parsed
      ∧ printed parsed.program.tokens = crowdedPrinted
      ∧ Dialect.worded.parse crowdedPrinted = .ok again
      ∧ (∀ t ∈ again.program.tokens, t.inserted = false)
      ∧ again.program.shape = Text.replaceAll "<inserted>" ";" parsed.program.shape := by
  have hprinted := printed_crowded
  cases hparse : Dialect.worded.parse crowded with
  | error failure =>
    rw [hparse] at hprinted
    cases hprinted
  | ok parsed =>
    rw [hparse] at hprinted
    have htext : printed parsed.program.tokens = crowdedPrinted := Option.some.inj hprinted
    obtain ⟨again, hagain, hsource, hshape⟩ := Dialect.reprinting_keeps_shape hparse
    rw [htext] at hagain
    exact ⟨parsed, again, rfl, htext, hagain, hsource, hshape⟩

end RobotLang
