/-
  RobotLang.Proofs.Worded.Offsets
  ───────────────────────────────
  **WHEN THE TOKENS OF AN ACCEPTED PROGRAM STAND AT INCREASING OFFSETS.**

  A `;` that was put in stands one place behind the token before it.  There is
  room for it unless the closing word starts at that very place:

      a ( 1 ) termina-ejecución        the `;` stands between the two
      a ( 1 )termina-ejecución         the `;` stands where the closing word does

  Only a `)` can touch a closing word.  All other commands end with a word, and
  a word goes on for as long as there are letters (`offset_ne_of_word`).  So
  offsets never decrease, and they increase unless the source has a closing word
  right behind a `)`.
-/
import Mathlib.Data.List.Chain
import RobotLang.Proofs.Lexing.WholeWord
import RobotLang.Proofs.Worded.Placement

namespace RobotLang.Worded

/-! ## §1. Offsets of tokens with their terminators. -/

/-- The tokens stand one behind the other, and none of them is empty. -/
structure Ordered (ts : List Token) : Prop where
  nonempty : ∀ t ∈ ts, t.offset ≤ t.endOffset
  apart : ts.Pairwise (fun t u => t.endOffset < u.offset)

theorem Ordered.tail {t : Token} {ts : List Token} (h : Ordered (t :: ts)) : Ordered ts :=
  ⟨(List.forall_mem_cons.mp h.nonempty).2, (List.pairwise_cons.mp h.apart).2⟩

theorem Ordered.sublist {ts us : List Token} (h : Ordered us) (hsub : ts.Sublist us) :
    Ordered ts :=
  ⟨fun t ht => h.nonempty t (hsub.subset ht), h.apart.sublist hsub⟩

/-- What is missing behind a token is the `;` right after it. -/
theorem eq_of_mem_missingTerminator {t u : Token} {ts : List Token}
    (h : u ∈ missingTerminator t ts) : u = terminatorAfter t := by
  unfold missingTerminator at h
  split at h
  · exact List.mem_singleton.mp h
  · cases h

/-- A token, or the `;` that is missing right behind it. -/
theorem mem_withTerminators {ts : List Token} {t : Token} (h : t ∈ withTerminators ts) :
    ∃ u ∈ ts, t = u ∨ t = terminatorAfter u := by
  induction ts with
  | nil => cases h
  | cons u us ih =>
    rw [withTerminators, List.mem_cons, List.mem_append] at h
    rcases h with rfl | hmissing | hrest
    · exact ⟨t, .head _, .inl rfl⟩
    · exact ⟨u, .head _, .inr (eq_of_mem_missingTerminator hmissing)⟩
    · obtain ⟨v, hv, ht⟩ := ih hrest
      exact ⟨v, .tail _ hv, ht⟩

/-- All that stands behind a token starts behind its end. -/
theorem endOffset_lt_of_mem {t u : Token} {ts : List Token} (h : Ordered (t :: ts))
    (hu : u ∈ withTerminators ts) : t.endOffset < u.offset := by
  obtain ⟨v, hv, rfl | rfl⟩ := mem_withTerminators hu
  · exact (List.pairwise_cons.mp h.apart).1 u hv
  · have hbehind := (List.pairwise_cons.mp h.apart).1 v hv
    have hnonempty := h.tail.nonempty v hv
    show t.endOffset < v.endOffset + 1
    omega

/-- Offsets never decrease, also where a `;` was put in: it has the place right behind the token
before it, and the next token stands there or further on. -/
theorem pairwise_withTerminators {ts : List Token} (h : Ordered ts) :
    (withTerminators ts).Pairwise (·.offset ≤ ·.offset) := by
  induction ts with
  | nil => exact .nil
  | cons t ts ih =>
    have hnonempty := h.nonempty t (.head _)
    -- a `;` that was put in has the place behind `t`, at most that of the next token
    have hmissing : ∀ u ∈ missingTerminator t ts, u.offset = t.endOffset + 1 := by
      intro u hu
      rw [eq_of_mem_missingTerminator hu]
      rfl
    rw [withTerminators, List.pairwise_cons, List.pairwise_append]
    refine ⟨fun u hu => ?_, ?_, ih h.tail, fun u hu v hv => ?_⟩
    · rcases List.mem_append.mp hu with hu | hu
      · have := hmissing u hu
        omega
      · have := endOffset_lt_of_mem h hu
        omega
    · unfold missingTerminator
      split
      · exact List.pairwise_singleton _ _
      · exact .nil
    · have hu := hmissing u hu
      have hv := endOffset_lt_of_mem h hv
      omega

/-- Two tokens next to each other are the first two, or stand behind the first one. -/
theorem forall_neighbours_cons {P : Token → Token → Prop} {t u : Token} {ts : List Token} :
    (∀ a b, [a, b] <:+: t :: u :: ts → P a b) ↔ P t u ∧ ∀ a b, [a, b] <:+: u :: ts → P a b := by
  constructor
  · intro h
    refine ⟨h t u ⟨[], ts, rfl⟩, fun a b hab => h a b (List.infix_cons hab)⟩
  · rintro ⟨hfirst, hrest⟩ a b hab
    rcases List.infix_cons_iff.mp hab with hab | hab
    · obtain ⟨rfl, hb⟩ := List.cons_prefix_cons.mp hab
      obtain ⟨rfl, -⟩ := List.cons_prefix_cons.mp hb
      exact hfirst
    · exact hrest a b hab

/-- Offsets increase if there is room for each `;` that is missing.  By induction on the tokens,
looking at two neighbours at a time. -/
theorem isChain_withTerminators_iff {ts : List Token} (h : Ordered ts) :
    (withTerminators ts).IsChain (·.offset < ·.offset)
      ↔ ∀ t u, [t, u] <:+: ts → lacksTerminator t u = true → u.offset ≠ t.endOffset + 1 := by
  induction ts with
  | nil => simp [withTerminators]
  | cons t ts ih =>
    cases ts with
    | nil =>
      refine iff_of_true (.singleton t) fun a b hab => ?_
      exact absurd hab.length_le (by simp)
    | cons u us =>
      have hnonempty := h.nonempty t (.head _)
      have hbehind := (List.pairwise_cons.mp h.apart).1 u (.head _)
      rw [forall_neighbours_cons, ← ih h.tail]
      by_cases hlacks : lacksTerminator t u = true
      · have htokens : withTerminators (t :: u :: us)
            = t :: terminatorAfter t :: withTerminators (u :: us) := by
          simp [withTerminators, missingTerminator, hlacks]
        -- the `;` takes the place right behind `t`, which must not be that of `u`
        have hroom : (terminatorAfter t).offset = t.endOffset + 1 := rfl
        rw [htokens, withTerminators, List.isChain_cons_cons, List.isChain_cons_cons, hroom]
        constructor
        · rintro ⟨-, hlt, hrest⟩
          exact ⟨fun _ => by omega, hrest⟩
        · rintro ⟨hne, hrest⟩
          have := hne hlacks
          exact ⟨by omega, by omega, hrest⟩
      · have htokens : withTerminators (t :: u :: us) = t :: withTerminators (u :: us) := by
          simp [withTerminators, missingTerminator, hlacks]
        rw [htokens, withTerminators, List.isChain_cons_cons]
        constructor
        · rintro ⟨-, hrest⟩
          exact ⟨fun h => absurd h hlacks, hrest⟩
        · rintro ⟨-, hrest⟩
          exact ⟨by omega, hrest⟩

/-! ## §2. What a command ends with. -/

/-- The kinds that the last token of a command can have, `)` apart. -/
def lastWords : List Kind :=
  Builtin.kinds ++ [.identifier, .end_]

/-- Tokens behind others end like the whole. -/
theorem exists_last_append {P : Token → Prop} {ts : List Token} (head : List Token)
    (h : ∃ before last, ts = before ++ [last] ∧ P last) :
    ∃ before last, head ++ ts = before ++ [last] ∧ P last := by
  obtain ⟨before, last, rfl, hlast⟩ := h
  exact ⟨head ++ before, last, by simp, hlast⟩

/-- A command ends with a parenthesis or with a word, by its form.  What it ends with is what a `;`
is put in behind. -/
theorem exists_last_of_spelled {parens : Bool} :
    (c : Command) → c.Spelled parens → ∃ before last, c.children.tokens = before ++ [last]
      ∧ (last.kind = .rightParen ∨ last.kind ∈ lastWords)
  | .builtin action keyword, hc => by
    have hmem := (Builtin.ofKind?_isSome_iff keyword.kind).mp
      (by rw [show Builtin.ofKind? keyword.kind = some action from hc]; rfl)
    exact ⟨[], keyword, rfl, .inr (List.mem_append_left _ hmem)⟩
  | .call name, hc => ⟨[], name, rfl, .inr (by simp [lastWords, show name.kind = _ from hc])⟩
  | .callWith name left argument right, hc =>
    ⟨name :: left :: argument.children.tokens, right, by simp [Code.children], .inl hc.2.2.2⟩
  | .cond keyword test then_ yes, hc => by
    simpa [Code.children] using exists_last_append (keyword :: test.children.tokens ++ [then_])
      (exists_last_of_spelled yes hc.2.2.2)
  | .condElse keyword test then_ yes otherwise no, hc => by
    simpa [Code.children] using exists_last_append
      (keyword :: test.children.tokens ++ then_ :: yes.children.tokens ++ [otherwise])
      (exists_last_of_spelled no hc.2.2.2.2.2)
  | .whileDo keyword test do_ body, hc => by
    simpa [Code.children] using exists_last_append (keyword :: test.children.tokens ++ [do_])
      (exists_last_of_spelled body hc.2.2.2)
  | .times keyword count unit body, hc => by
    simpa [Code.children] using exists_last_append (keyword :: count.children.tokens ++ [unit])
      (exists_last_of_spelled body hc.2.2.2)
  | .block opening body closing, hc =>
    ⟨opening :: body.children.tokens, closing, by simp [Code.children],
      .inr (by simp [lastWords, hc.2.2])⟩

/-- The lists in spelled code are spelled.  By induction on the code; blocks are the only lists in
it. -/
theorem Code.spelled_of_mem_lists {parens : Bool} {part : Part} {c : Code part}
    (hc : c.Spelled parens) {front : List Token} {l : Enclosed} (hl : l ∈ c.lists front) :
    l.body.Spelled parens := by
  induction c generalizing front with
  | nil | empty | builtin | call | callWith => cases hl
  | cons head tail ihhead ihtail =>
    rcases List.mem_append.mp hl with hl | hl
    · exact ihhead hc.1 hl
    · exact ihtail hc.2 hl
  | ended command semicolon ih => exact ih hc.1 hl
  | cond _ _ _ _ ih | whileDo _ _ _ _ ih | times _ _ _ _ ih => exact ih hc.2.2.2 hl
  | condElse keyword test then_ yes otherwise no ihyes ihno =>
    obtain ⟨-, -, -, hyes, -, hno⟩ := hc
    rcases List.mem_append.mp hl with hl | hl
    · exact ihyes hyes hl
    · exact ihno hno hl
  | block opening body closing ih =>
    rcases List.mem_cons.mp hl with rfl | hl
    · exact hc.2.1
    · exact ih hc.2.1 hl

theorem Definition.spelled_of_mem_lists {parens : Bool} {ds : List Definition}
    (hd : ∀ d ∈ ds, d.Spelled parens) {front : List Token} {l : Enclosed}
    (hl : l ∈ Definition.listsOfAll front ds) : l.body.Spelled parens := by
  induction ds generalizing front with
  | nil => cases hl
  | cons d ds ih =>
    rw [List.forall_mem_cons] at hd
    rcases List.mem_append.mp hl with hl | hl
    · cases d with
      | full => exact Code.spelled_of_mem_lists hd.1.2.2.2.2 hl
      | prototype => cases hl
    · exact ih hd.2 hl

/-- The lists of a spelled program are spelled, in its functions and in its main part. -/
theorem Program.spelled_of_mem_lists {parens : Bool} {p : Program} (hp : p.Spelled parens)
    {l : Enclosed} (hl : l ∈ p.lists) : l.body.Spelled parens := by
  obtain ⟨-, hd, ⟨-, hmain, -⟩, -⟩ := hp
  rcases List.mem_append.mp hl with hl | hl
  · exact Definition.spelled_of_mem_lists hd hl
  · rcases List.mem_cons.mp hl with rfl | hl
    · exact hmain
    · exact Code.spelled_of_mem_lists hmain hl

/-- The statements of a spelled list are spelled. -/
theorem spelled_of_ofList {parens : Bool} {ss : List Statement} {c : Statement}
    (h : (Code.ofList ss).Spelled parens) (hc : c ∈ ss) : c.Spelled parens := by
  induction ss with
  | nil => cases hc
  | cons d ss ih =>
    rcases List.mem_cons.mp hc with rfl | hc
    · exact h.1
    · exact ih h.2 hc

/-- What stands before the end of a list is a `)` or a word. -/
theorem kind_of_endsAt {parens : Bool} {l : Enclosed} {front back : List Token} {t last : Token}
    (hl : l.body.Spelled parens) (h : l.EndsAt front t back) (hlast : front.getLast? = some last) :
    last.kind = .rightParen ∨ last.kind ∈ lastWords := by
  obtain ⟨init, command, hbody, rfl, -⟩ := h
  rw [hbody] at hl
  have hstatement : (Code.ended command t).Spelled parens :=
    spelled_of_ofList hl (List.mem_append_right _ (.head _))
  obtain ⟨before, last', hcommand, hk⟩ := exists_last_of_spelled command hstatement.1
  rw [hcommand, ← List.append_assoc, List.getLast?_concat] at hlast
  obtain rfl := Option.some.inj hlast
  exact hk

/-! ## §3. No closing word starts where a word ends. -/

/-- A token of a source has the text between its two offsets. -/
theorem spanOf_of_mem_bodyTokens {source : String} {t : Token}
    (ht : t ∈ lexicon.bodyTokens source) : t.SpanOf source.toList := by
  obtain ⟨l, hl, htoken⟩ := List.mem_filterMap.mp ht
  obtain ⟨kind, -, rfl⟩ := Lexeme.token?_eq_some_iff.mp htoken
  exact Lexicon.spanOf_of_mem hl kind

/-- Tokens of a source stand one behind the other. -/
theorem ordered_bodyTokens (source : String) : Ordered (lexicon.bodyTokens source) := by
  refine ⟨fun t ht => (spanOf_of_mem_bodyTokens ht).nonempty, ?_⟩
  refine Lexicon.pairwise_filterMap fun l t ht => ?_
  obtain ⟨kind, -, rfl⟩ := Lexeme.token?_eq_some_iff.mp ht
  exact ⟨kind, rfl⟩

/-- The text of a token is as long as its place in the source. -/
theorem length_image_of_mem {source : String} {t : Token} (ht : t ∈ lexicon.bodyTokens source) :
    t.offset + t.image.toList.length = t.endOffset + 1 := by
  have hspan := spanOf_of_mem_bodyTokens ht
  have hnonempty := hspan.nonempty
  have hinside := hspan.inside
  rw [hspan.image, String.toList_ofList, stretch, List.length_take, List.length_drop]
  omega

/-- Neither a sign nor a number is a word. -/
theorem exists_start_of_mem {source : String} {t : Token} (ht : t ∈ lexicon.bodyTokens source)
    (hkind : t.kind ∈ lastWords ++ [.endExecution]) :
    ∃ c, t.image.toList.head? = some c ∧ lexicon.names.start c = true := by
  obtain ⟨before, text, after, kind, -, hnext, rfl⟩ := Lexicon.exists_lexeme_of_mem_bodyTokens ht
  have hpos := (Lexicon.next_pos hnext).1
  cases text with
  | nil => simp at hpos
  | cons c text =>
    refine ⟨c, by simp [Lexeme.toToken], ?_⟩
    rw [← Bool.not_eq_false]
    intro hc
    obtain ⟨entry, hmem, haction⟩ := readsWords.action_of_not_start hc hnext
    have hnone : ∀ entry ∈ .skip .blanks :: .emit .digits .integerLiteral
        :: (comments ++ signs ++ [.skip .anyChar]),
        ∀ kind ∈ lastWords ++ [.endExecution], entry.action ≠ .emit kind := by decide
    exact hnone entry hmem kind hkind haction

/-- A word and a closing word do not touch: the one would go on with the other.  Both are whole
words, and the first letter of the second could continue the first. -/
theorem offset_ne_of_word {source : String} {t u : Token} (ht : t ∈ lexicon.bodyTokens source)
    (hu : u ∈ lexicon.bodyTokens source) (hword : t.kind ∈ lastWords)
    (hcloses : closesList u = true) : u.offset ≠ t.endOffset + 1 := by
  intro htouch
  have hclosing : u.kind ∈ lastWords ++ [.endExecution] := by
    simp only [closesList, Bool.or_eq_true, beq_iff_eq] at hcloses
    rcases hcloses with hk | hk <;> simp [lastWords, hk]
  obtain ⟨c, hc, hstart⟩ := exists_start_of_mem ht (List.mem_append_left _ hword)
  obtain ⟨d, hd, hstart'⟩ := exists_start_of_mem hu hclosing
  have hmem {v : Token} (hv : v ∈ lexicon.bodyTokens source) :
      v ∈ (lexicon.tokenize source).tokens ++ (lexicon.tokenize source).comments := by
    rw [Lexicon.tokenize_tokens]
    exact List.mem_append_left _ (List.mem_append_left _ hv)
  have hlongest := (readsWords.whole (hmem ht) hc hstart).1
  have hlongest' := (readsWords.whole (hmem hu) hd hstart').1
  -- the first letter of the closing word stands right behind the word
  have hbehind : source.toList[t.offset + t.image.toList.length]? = some d := by
    rw [length_image_of_mem ht, ← htouch]
    obtain ⟨more, himage⟩ := List.head?_eq_some_iff.mp hd
    obtain ⟨after, hafter⟩ := hlongest'.stands
    rw [himage] at hafter
    rw [← List.head?_drop, ← hafter]
    rfl
  have hgoesOn : lexicon.names.continue_ d = true := by
    have : Text.isLatinLetter d = true ∨ d = '_' := by simpa [lexicon] using hstart'
    rcases this with h | h <;> simp [lexicon, h]
  rw [hlongest.stops d hbehind] at hgoesOn
  cases hgoesOn

/-! ## §4. Accepted programs. -/

/-- Where a `;` is missing, one is put in. -/
theorem exists_terminatorAfter {ts : List Token} {t u : Token} (h : [t, u] <:+: ts)
    (hlacks : lacksTerminator t u = true) :
    ∃ f b, withTerminators ts = f ++ terminatorAfter t :: b ∧ f.getLast? = some t := by
  obtain ⟨before, after, rfl⟩ := h
  induction before with
  | nil =>
    refine ⟨[t], withTerminators (u :: after), ?_, rfl⟩
    simp [withTerminators, missingTerminator, hlacks]
  | cons v before ih =>
    obtain ⟨f, b, hsplit, hlast⟩ := ih
    refine ⟨v :: (missingTerminator v (before ++ [t, u] ++ after) ++ f), b, ?_, ?_⟩
    · show v :: (missingTerminator v (before ++ [t, u] ++ after)
        ++ withTerminators (before ++ [t, u] ++ after)) = _
      rw [hsplit]
      simp
    · rw [List.getLast?_cons, List.getLast?_append, hlast]
      rfl

/-- In an accepted program, a `;` is only ever missing behind a `)` or a word. -/
theorem Program.Accepted.kind_of_lacks {parens : Bool} {p : Program} (hp : p.Accepted parens)
    {t u : Token} (h : [t, u] <:+: p.written) (hlacks : lacksTerminator t u = true) :
    t.kind = .rightParen ∨ t.kind ∈ lastWords := by
  obtain ⟨f, b, hsplit, hlast⟩ := exists_terminatorAfter h hlacks
  rw [← Program.tokens_settle hp.lenient hp.written] at hsplit
  obtain ⟨l, hl, hends⟩ := Program.exists_enclosed hp hsplit rfl
  have hspelled := Program.spelled_settle hp.lenient
  exact kind_of_endsAt (Program.spelled_of_mem_lists hspelled hl) hends hlast

/-- The offsets of the tokens of an accepted program never decrease.  They increase from each token
to the next exactly if no word that closes a list starts right behind a `)`. -/
theorem offsets_increase_iff_apart {source : String} {parsed : Parsed Program}
    (h : parse source = .ok parsed) :
    parsed.program.view.tokens.Pairwise (·.offset ≤ ·.offset)
      ∧ (parsed.program.view.tokens.IsChain (·.offset < ·.offset)
        ↔ ∀ t u, [t, u] <:+: sourceTokens parsed.program.view.tokens → t.kind = .rightParen →
          closesList u = true → u.offset ≠ t.endOffset + 1) := by
  -- settled, the tree has a `;` wherever its source lacks one
  obtain ⟨p, hp, hsub, hprogram⟩ := exists_accepted_of_parse h
  have htokens : parsed.program.view.tokens = withTerminators p.written := by
    rw [hprogram, Program.tokens_settle hp.lenient hp.written]
  have hsource : sourceTokens parsed.program.view.tokens = p.written := by
    rw [htokens, sourceTokens_withTerminators]
    exact List.filter_eq_self.mpr fun t ht => by simp [hp.written t ht]
  have hordered : Ordered p.written := (ordered_bodyTokens source).sublist hsub
  rw [hsource, htokens]
  refine ⟨pairwise_withTerminators hordered, ?_⟩
  rw [isChain_withTerminators_iff hordered]
  constructor
  · intro hroom t u hpair hparen hcloses
    exact hroom t u hpair (by simp [lacksTerminator, opensList, hparen, hcloses])
  · intro hapart t u hpair hlacks
    have hcloses := closesList_of_lacks hlacks
    rcases hp.kind_of_lacks hpair hlacks with hparen | hword
    · exact hapart t u hpair hparen hcloses
    -- two words that touch would be one
    · exact offset_ne_of_word (hsub.subset (hpair.subset (by simp)))
        (hsub.subset (hpair.subset (by simp))) hword hcloses

/-- A program whose last word closes the main list right behind a `)`. -/
def touching : String :=
  "iniciar-programa inicia-ejecución a(1)termina-ejecución finalizar-programa"

/-- The offsets of the sample, by running the parser on it. -/
theorem offsets_touching : (parse touching).toOption.map (fun parsed =>
    parsed.program.view.tokens.map (·.offset)) = some [0, 17, 34, 35, 36, 37, 38, 38, 56] := by
  decide +kernel

/-- The sample is accepted, and two of its tokens have one offset. -/
theorem parse_touching : ∃ parsed, parse touching = .ok parsed
    ∧ parsed.program.view.tokens.map (·.offset) = [0, 17, 34, 35, 36, 37, 38, 38, 56] := by
  have hoffsets := offsets_touching
  generalize parse touching = result at hoffsets ⊢
  cases result with
  | error failure => simp [Except.toOption] at hoffsets
  | ok parsed => exact ⟨parsed, rfl, by simpa [Except.toOption] using hoffsets⟩

/-- The sample is accepted, so its offsets never decrease.  They would increase if the word that
closes its main list did not start right behind the `)`. -/
theorem offsets_increase_iff_apart_touching : ∃ parsed, parse touching = .ok parsed
    ∧ parsed.program.view.tokens.Pairwise (·.offset ≤ ·.offset)
    ∧ (parsed.program.view.tokens.IsChain (·.offset < ·.offset)
      ↔ ∀ t u, [t, u] <:+: sourceTokens parsed.program.view.tokens → t.kind = .rightParen →
        closesList u = true → u.offset ≠ t.endOffset + 1) := by
  obtain ⟨parsed, hparse, -⟩ := parse_touching
  exact ⟨parsed, hparse, offsets_increase_iff_apart hparse⟩

/-- The `;` that was put in and the closing word stand at the same offset. -/
theorem not_offsets_increase :
    ¬ ∀ source parsed, parse source = .ok parsed →
      parsed.program.view.tokens.IsChain (·.offset < ·.offset) := by
  intro h
  obtain ⟨parsed, hparse, hoffsets⟩ := parse_touching
  have hchain : (parsed.program.view.tokens.map (·.offset)).IsChain (· < ·) :=
    (List.isChain_map _).mpr (h touching parsed hparse)
  rw [hoffsets] at hchain
  exact absurd hchain (by decide)

end RobotLang.Worded
