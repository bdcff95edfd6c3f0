/-
  RobotLang.Proofs.Worded.Acceptance
  ──────────────────────────────────
  **WHAT BECOMES OF THE TOKENS OF AN ACCEPTED PROGRAM.**

  A program is accepted when all that its repairs left behind are complaints
  about a `;` missing before a closing word.  Such a complaint comes from one
  of two repairs: a `;` was put in before the closing word, or a closing word
  that stands in front of a `;` was dropped.  The second one is no different
  from the first to whoever reads the complaint, so an accepted program may
  have lost closing words, and nothing else (`sheds_of_reads`):

      … avanza fin ; termina-ejecución …        loses its `fin`

  In the tree every closing word has its opening word.  Hence an accepted
  program has kept all of its tokens exactly when its source has as many
  closing words as opening words.
-/
import RobotLang.Proofs.Lexing.Keyword
import RobotLang.Proofs.Worded.Reading

namespace RobotLang.Worded

open Rule

/-! ## §1. The source tokens of a tree. -/

/-- The tokens that stand in the source. -/
def sourceTokens (ts : List Token) : List Token :=
  ts.filter fun t => !t.inserted

/-- What stands in the source is found part by part. -/
@[simp] theorem sourceTokens_append (ts ts' : List Token) :
    sourceTokens (ts ++ ts') = sourceTokens ts ++ sourceTokens ts' := by
  simp [sourceTokens]

@[simp] theorem sourceTokens_cons (t : Token) (ts : List Token) :
    sourceTokens (t :: ts) = if t.inserted then sourceTokens ts else t :: sourceTokens ts := by
  cases h : t.inserted <;> simp [sourceTokens, h]

@[simp] theorem sourceTokens_nil : sourceTokens [] = [] := rfl

/-- Where a `;` is moved to, it still counts as put in; one of the source is not moved. -/
theorem sourceTokens_settledTerminator (command : Command) (semicolon : Token) :
    sourceTokens [settledTerminator command semicolon] = sourceTokens [semicolon] := by
  unfold settledTerminator
  split
  · next h =>
    split
    · simp [movedAfter, h]
    · rfl
  · rfl

/-- Settling only moves what a repair put in. -/
theorem Code.sourceTokens_settle {part : Part} (c : Code part) :
    sourceTokens c.settle.children.tokens = sourceTokens c.children.tokens := by
  induction c with
  | cons head tail ihh iht => simp [Code.settle, Code.children, ihh, iht]
  | ended command semicolon ih =>
    simp only [Code.settle, Code.children, Forest.tokens_branch, Forest.tokens_ofToken,
      sourceTokens_append, ih, sourceTokens_settledTerminator]
  | cond keyword test then_ yes ih => simp [Code.settle, Code.children, ih]
  | condElse keyword test then_ yes otherwise no ihy ihn =>
    simp [Code.settle, Code.children, ihy, ihn]
  | whileDo keyword test do_ body ih => simp [Code.settle, Code.children, ih]
  | times keyword count unit body ih => simp [Code.settle, Code.children, ih]
  | block opening body closing ih => simp [Code.settle, Code.children, ih]
  | _ => rfl

theorem Definition.sourceTokens_settle (d : Definition) :
    sourceTokens d.settle.view.tokens = sourceTokens d.view.tokens := by
  cases d with
  | full keyword name parameter as_ body =>
    simp [Definition.settle, Definition.view, Node.tokens, Code.sourceTokens_settle]
  | prototype keyword name parameter semicolon => rfl

/-- Settling a program keeps all that stands in the source, in its order. -/
theorem Program.sourceTokens_settle (p : Program) :
    sourceTokens p.settle.view.tokens = sourceTokens p.view.tokens := by
  have hdefinitions : sourceTokens ((p.definitions.map Definition.settle).flatMap (·.view.tokens))
      = sourceTokens (p.definitions.flatMap (·.view.tokens)) := by
    induction p.definitions with
    | nil => rfl
    | cons d ds ih => simpa [Definition.sourceTokens_settle] using ih
  simp [Program.tokens_view, Main.tokens_view, Program.settle, Code.sourceTokens_settle,
    hdefinitions]

/-! ## §2. Closing words that were lost. -/

/-- The word opens a list of statements. -/
def opensList (t : Token) : Bool :=
  t.kind == .begin_ || t.kind == .beginExecution

/-- The word closes a list of statements. -/
def closesList (t : Token) : Bool :=
  t.kind == .end_ || t.kind == .endExecution

/-- As many words close a list as open one. -/
def Balanced (ts : List Token) : Prop :=
  ts.countP opensList = ts.countP closesList

instance (ts : List Token) : Decidable (Balanced ts) :=
  inferInstanceAs (Decidable (_ = _))

/-- `kept` is what is left of the tokens after some closing words in front of a
`;` were dropped. -/
inductive Sheds : List Token → List Token → Prop where
  | nil : Sheds [] []
  | keep (t : Token) {ts kept : List Token} : Sheds ts kept → Sheds (t :: ts) (t :: kept)
  | shed (closing semicolon : Token) {ts kept : List Token} :
      closesList closing = true → semicolon.kind = .semicolon → Sheds ts kept →
      Sheds (closing :: semicolon :: ts) (semicolon :: kept)

namespace Sheds

variable {ts kept : List Token}

/-- No opening word is lost. -/
theorem countP_opensList (h : Sheds ts kept) :
    ts.countP opensList = kept.countP opensList := by
  induction h with
  | nil => rfl
  | keep t _ ih => simp only [List.countP_cons, ih]
  | shed closing semicolon hc hs _ ih =>
    have hno : opensList closing = false := by
      simp only [closesList, Bool.or_eq_true, beq_iff_eq] at hc
      rcases hc with hc | hc <;> simp [opensList, hc]
    simp [List.countP_cons, ih, hno]

/-- Whatever is lost is a closing word. -/
theorem countP_closesList (h : Sheds ts kept) :
    ts.countP closesList + kept.length = kept.countP closesList + ts.length := by
  induction h with
  | nil => rfl
  | keep t _ ih =>
    simp only [List.countP_cons, List.length_cons]
    omega
  | shed closing semicolon hc hs _ ih =>
    simp only [List.countP_cons, List.length_cons, hc, if_true]
    omega

/-- What is kept stands in its old order. -/
theorem sublist (h : Sheds ts kept) : kept.Sublist ts := by
  induction h with
  | nil => exact .slnil
  | keep t _ ih => exact ih.cons_cons t
  | shed closing semicolon _ _ _ ih => exact (ih.cons_cons semicolon).cons closing

/-- Nothing was lost when no closing word was. -/
theorem eq_of_countP (h : Sheds ts kept)
    (hcount : ts.countP closesList = kept.countP closesList) : kept = ts := by
  have hlen := h.countP_closesList
  exact h.sublist.eq_of_length (by omega)

end Sheds

/-! ## §3. Harmless complaints. -/

/-- Only `;` is called so. -/
theorem kind_of_label {kind : Kind} (h : label kind = ";") : kind = .semicolon := by
  cases kind with
  | sensor x => cases x <;> simp [label, sensorLabel] at h
  | semicolon => rfl
  | _ => simp [label] at h

/-- A harmless complaint is about a closing word in the place of a `;`. -/
theorem of_isHarmless_mismatch {t : Token} {expected : String}
    (h : isHarmless (.mismatch t [expected]) = true) : t.image ∈ closers ∧ expected = ";" := by
  simpa [isHarmless, Diagnostic.mismatch, Diagnostic.atToken, Diagnostic.text,
    Diagnostic.expected] using h

/-- Nothing is serious if every complaint is harmless by itself. -/
theorem serious_eq_nil_iff {ds : List Diagnostic} :
    serious ds = [] ↔ ∀ d ∈ ds, isHarmless d = true := by
  simp [serious]

/-- With harmless complaints only, all that a trace loses are closing words in
front of a `;`. -/
theorem sheds_of_reads {s : Setting} {ts tree rest : List Token} {ds : List Diagnostic}
    (hlabel : s.label = label) (h : Reads s ts tree ds rest)
    (hharmless : ∀ d ∈ ds, isHarmless d = true)
    (hinserted : ∀ t ∈ ts, t.inserted = false)
    (hclosers : ∀ t ∈ ts, t.image ∈ closers → closesList t = true) :
    ∃ used, ts = used ++ rest ∧ Sheds used (sourceTokens tree) := by
  induction h with
  | done ts => exact ⟨[], rfl, .nil⟩
  | take t _ ih =>
    obtain ⟨used, rfl, hsheds⟩ := ih hharmless (fun t' h => hinserted t' (by simp [h]))
      (fun t' h => hclosers t' (by simp [h]))
    refine ⟨t :: used, rfl, ?_⟩
    simpa [hinserted t (by simp)] using hsheds.keep t
  | put _ _ _ ih =>
    -- what was put in is not in the source
    obtain ⟨used, rfl, hsheds⟩ := ih (fun d h => hharmless d (by simp [h])) hinserted hclosers
    exact ⟨used, rfl, by simpa [Token.insertedBefore] using hsheds⟩
  | drop stray t _ _ _ ih =>
    obtain ⟨used, rfl, hsheds⟩ := ih (fun d h => hharmless d (by simp [h]))
      (fun t' h => hinserted t' (by simp [h])) (fun t' h => hclosers t' (by simp [h]))
    obtain ⟨himage, hexpected⟩ := of_isHarmless_mismatch (hharmless _ List.mem_cons_self)
    refine ⟨stray :: t :: used, rfl, ?_⟩
    have hsemi : t.kind = .semicolon := kind_of_label (hlabel ▸ hexpected)
    simpa [hinserted t (by simp)] using
      hsheds.shed stray t (hclosers stray (by simp) himage) hsemi
  | skip stray run t closer _ hcloser _ _ =>
    -- a run of tokens is never skipped for a `;`, and no other complaint is harmless
    obtain ⟨_, hexpected⟩ := of_isHarmless_mismatch (hharmless _ List.mem_cons_self)
    exact absurd (kind_of_label (hlabel ▸ hexpected)) hcloser

/-! ## §4. Spelled programs are balanced. -/

/-- Neither of the two. -/
def Inner (t : Token) : Prop :=
  opensList t = false ∧ closesList t = false

/-- A token of any other kind is none of the four words for lists. -/
theorem inner_of_kind {t : Token} {kind : Kind} (h : t.kind = kind)
    (hk : (kind == .begin_ || kind == .beginExecution || kind == .end_ || kind == .endExecution)
      = false) : Inner t := by
  simp only [Bool.or_eq_false_iff] at hk
  obtain ⟨⟨⟨h₁, h₂⟩, h₃⟩, h₄⟩ := hk
  simp [Inner, opensList, closesList, h, h₁, h₂, h₃, h₄]

/-- Tokens that open and close nothing are balanced. -/
theorem balanced_of_inner {ts : List Token} (h : ∀ t ∈ ts, Inner t) : Balanced ts := by
  have hopens : ts.countP opensList = 0 := List.countP_eq_zero.mpr fun t ht => by simp [(h t ht).1]
  have hcloses : ts.countP closesList = 0 :=
    List.countP_eq_zero.mpr fun t ht => by simp [(h t ht).2]
  exact hopens.trans hcloses.symm

namespace Balanced

variable {t : Token} {ts ts' : List Token}

/-- Balanced parts are balanced together. -/
theorem append (h : Balanced ts) (h' : Balanced ts') : Balanced (ts ++ ts') := by
  unfold Balanced at *
  rw [List.countP_append, List.countP_append, h, h']

theorem single (ht : Inner t) : Balanced [t] :=
  balanced_of_inner (by simpa using ht)

theorem cons (ht : Inner t) (h : Balanced ts) : Balanced (t :: ts) :=
  (single ht).append h

/-- A list of statements between its two words. -/
theorem enclose {opening closing : Token}
    (ho : opening.kind = .begin_ ∨ opening.kind = .beginExecution)
    (hc : closing.kind = .end_ ∨ closing.kind = .endExecution) (h : Balanced ts) :
    Balanced (opening :: ts ++ [closing]) := by
  have hopening : opensList opening = true ∧ closesList opening = false := by
    rcases ho with ho | ho <;> simp [opensList, closesList, ho]
  have hclosing : opensList closing = false ∧ closesList closing = true := by
    rcases hc with hc | hc <;> simp [opensList, closesList, hc]
  unfold Balanced at *
  simp [List.countP_append, hopening, hclosing, h]

end Balanced

/-- Expressions are written without the words for lists. -/
theorem inner_of_mem_expressionKinds {t : Token} (h : t.kind ∈ expressionKinds) : Inner t := by
  have hinner : ∀ kind ∈ expressionKinds, (kind == .begin_ || kind == .beginExecution
      || kind == .end_ || kind == .endExecution) = false := by decide
  exact inner_of_kind rfl (hinner _ h)

/-- Numbers are written without the words for lists. -/
theorem inner_of_integer {n : Integer} (h : n.Spelled) : ∀ t ∈ n.children.tokens, Inner t :=
  Integer.forall_mem_tokens (fun _ => inner_of_mem_expressionKinds)
    (fun _ _ ht _ => inner_of_kind ht rfl) h

theorem inner_of_condition {parens : Bool} {level : Level} {c : Condition level}
    (h : c.Spelled parens) : ∀ t ∈ c.children.tokens, Inner t :=
  Condition.forall_mem_tokens (fun _ => inner_of_mem_expressionKinds)
    (fun _ _ ht _ => inner_of_kind ht rfl) h

theorem inner_of_builtin {t : Token} {action : Builtin}
    (h : Builtin.ofKind? t.kind = some action) : Inner t := by
  have hmem := (Builtin.ofKind?_isSome_iff t.kind).mp (by simp [h])
  have hinner : ∀ kind ∈ Builtin.kinds, (kind == .begin_ || kind == .beginExecution
      || kind == .end_ || kind == .endExecution) = false := by decide
  exact inner_of_kind rfl (hinner _ hmem)

/-- Every block of spelled code has its two words.  All its other tokens neither open nor close a
list. -/
theorem Code.balanced {parens : Bool} {part : Part} {c : Code part} (h : c.Spelled parens) :
    Balanced c.children.tokens := by
  induction c with
  | nil => rfl
  | cons head tail ihh iht => exact (ihh h.1).append (iht h.2)
  | empty semicolon => exact .single (inner_of_kind h rfl)
  | ended command semicolon ih =>
    exact (ih h.1).append (.single (inner_of_kind h.2 rfl))
  | builtin action keyword => exact .single (inner_of_builtin h)
  | call name => exact .single (inner_of_kind h rfl)
  | callWith name left argument right =>
    obtain ⟨hn, hl, ha, hr⟩ := h
    simpa [Code.children] using Balanced.cons (inner_of_kind hn rfl)
      (.cons (inner_of_kind hl rfl)
        ((balanced_of_inner (inner_of_integer ha)).append (.single (inner_of_kind hr rfl))))
  | cond keyword test then_ yes ih =>
    obtain ⟨hk, ht, hth, hy⟩ := h
    simpa [Code.children] using Balanced.cons (inner_of_kind hk rfl)
      ((balanced_of_inner (inner_of_condition ht)).append (.cons (inner_of_kind hth rfl) (ih hy)))
  | condElse keyword test then_ yes otherwise no ihy ihn =>
    obtain ⟨hk, ht, hth, hy, ho, hn⟩ := h
    simpa [Code.children] using Balanced.cons (inner_of_kind hk rfl)
      ((balanced_of_inner (inner_of_condition ht)).append (.cons (inner_of_kind hth rfl)
        ((ihy hy).append (.cons (inner_of_kind ho rfl) (ihn hn)))))
  | whileDo keyword test do_ body ih =>
    obtain ⟨hk, ht, hd, hb⟩ := h
    simpa [Code.children] using Balanced.cons (inner_of_kind hk rfl)
      ((balanced_of_inner (inner_of_condition ht)).append (.cons (inner_of_kind hd rfl) (ih hb)))
  | times keyword count unit body ih =>
    obtain ⟨hk, hc, hu, hb⟩ := h
    simpa [Code.children] using Balanced.cons (inner_of_kind hk rfl)
      ((balanced_of_inner (inner_of_integer hc)).append (.cons (inner_of_kind hu rfl) (ih hb)))
  | block opening body closing ih =>
    obtain ⟨ho, hb, hc⟩ := h
    -- the one node with words that open and close
    simpa [Code.children] using Balanced.enclose (.inl ho) (.inl hc) (ih hb)

/-- A parameter is parentheses with a name between them or not, and so opens and closes no list. -/
theorem inner_of_parameter {parameter : Option Parameter} (h : ∀ p ∈ parameter, p.Spelled) :
    ∀ t ∈ (parameterForest parameter).tokens, Inner t := by
  intro t ht
  cases parameter with
  | none => simp [parameterForest] at ht
  | some p =>
    obtain ⟨hl, hn, hr⟩ := h p rfl
    cases hname : p.name with
    | none =>
      simp only [parameterForest, Parameter.view, Parameter.children, hname, Forest.tokens_ofNode,
        Forest.tokens_leaf, Forest.tokens_ofToken, List.mem_cons, List.not_mem_nil, or_false] at ht
      rcases ht with rfl | rfl
      · exact inner_of_kind hl rfl
      · exact inner_of_kind hr rfl
    | some name =>
      simp only [parameterForest, Parameter.view, Parameter.children, hname, Forest.tokens_ofNode,
        Forest.tokens_leaf, Forest.tokens_ofToken, List.mem_cons, List.not_mem_nil, or_false] at ht
      rcases ht with rfl | rfl | rfl
      · exact inner_of_kind hl rfl
      · exact inner_of_kind (hn _ hname) rfl
      · exact inner_of_kind hr rfl

/-- A spelled definition is balanced if its body is; the words of its head open and close
nothing. -/
theorem Definition.balanced {parens : Bool} {d : Definition} (h : d.Spelled parens) :
    Balanced d.view.tokens := by
  cases d with
  | full keyword name parameter as_ body =>
    obtain ⟨hk, hn, hp, ha, hb⟩ := h
    simpa [Definition.view, Node.tokens] using Balanced.cons (inner_of_kind hk rfl)
      (.cons (inner_of_kind hn rfl) ((balanced_of_inner (inner_of_parameter hp)).append
        (.cons (inner_of_kind ha rfl) (Code.balanced hb))))
  | prototype keyword name parameter semicolon =>
    obtain ⟨hk, hn, hp, hs⟩ := h
    simpa [Definition.view, Node.tokens] using Balanced.cons (inner_of_kind hk rfl)
      (.cons (inner_of_kind hn rfl) ((balanced_of_inner (inner_of_parameter hp)).append
        (.single (inner_of_kind hs rfl))))

/-- In a spelled program every list has its two words, so it is balanced as a whole. -/
theorem Program.balanced {parens : Bool} {p : Program} (h : p.Spelled parens) :
    Balanced p.view.tokens := by
  obtain ⟨ho, hd, ⟨hmo, hmb, hmc⟩, hc⟩ := h
  have hdefinitions : Balanced (p.definitions.flatMap (·.view.tokens)) := by
    generalize p.definitions = ds at hd
    induction ds with
    | nil => rfl
    | cons d ds ih =>
      exact (Definition.balanced (hd d (by simp))).append (ih fun d' h => hd d' (by simp [h]))
  have hmain := Balanced.enclose (.inr hmo) (.inr hmc) (Code.balanced hmb)
  simpa [Program.tokens_view, Main.tokens_view] using Balanced.cons (inner_of_kind ho rfl)
    (hdefinitions.append (hmain.append (.single (inner_of_kind hc rfl))))

/-- What holds of no token that was put in is counted in the source. -/
theorem countP_sourceTokens {ts : List Token} {p : Token → Bool}
    (h : ∀ t ∈ ts, t.inserted = true → p t = false) :
    (sourceTokens ts).countP p = ts.countP p := by
  rw [sourceTokens, List.countP_filter]
  apply List.countP_congr
  intro t ht
  cases hi : t.inserted
  · simp
  · simp [h t ht hi]

/-- Tokens that were put in open and close nothing. -/
theorem balanced_sourceTokens_iff {ts : List Token}
    (h : ∀ t ∈ ts, t.inserted = true → t.kind = .semicolon) :
    Balanced (sourceTokens ts) ↔ Balanced ts := by
  have hinner (t : Token) (ht : t ∈ ts) (hi : t.inserted = true) : Inner t :=
    inner_of_kind (h t ht hi) rfl
  rw [Balanced, countP_sourceTokens fun t ht hi => (hinner t ht hi).1,
    countP_sourceTokens fun t ht hi => (hinner t ht hi).2, Balanced]

/-! ## §5. Accepted programs. -/

/-- No keyword is the head of a later one. -/
theorem keepsApart_keywords : KeepsApart keywords := by
  decide +kernel

/-- Only closing words are spelled like one. -/
theorem closesList_of_image {source : String} {t : Token} (ht : t ∈ lexicon.bodyTokens source)
    (himage : t.image ∈ closers) : closesList t = true := by
  have hkind {S : List String} {K : Kind}
      (hmem : Entry.keyword S K ∈ keywords) (hpos : ∀ w ∈ S, w ≠ "")
      (h : t.image ∈ S) : t.kind = K :=
    Lexicon.kind_of_keyword_image keepsApart_keywords rfl ht hmem rfl hpos h
  simp only [closers, List.mem_cons, List.not_mem_nil, or_false] at himage
  rcases himage with h | h
  · have := hkind (S := ["fin"]) (K := .end_) (by decide) (by decide) (by simp [h])
    simp [closesList, this]
  · have := hkind (S := ["termina-ejecución", "termina-ejecucion"])
      (K := .endExecution) (by decide) (by decide) (by simpa using h)
    simp [closesList, this]

/-- An accepted program has lost nothing but closing words in front of a `;`,
and it has kept every token exactly when the source closes as many lists as it
opens. -/
theorem accepted_keeps_tokens_iff_balanced {source : String} {parsed : Parsed Program}
    (h : parse source = .ok parsed) :
    Sheds (lexicon.tokenize source).tokens.dropLast (sourceTokens parsed.program.view.tokens)
      ∧ (sourceTokens parsed.program.view.tokens = (lexicon.tokenize source).tokens.dropLast
        ↔ Balanced (lexicon.tokenize source).tokens.dropLast) := by
  obtain ⟨s, p, cs, hlabel, hspelled, hreads, hserious, hp⟩ := exists_reads_of_parse h
  have hinserted : ∀ t ∈ lexicon.bodyTokens source, t.inserted = false :=
    fun _ => Lexicon.inserted_eq_false_of_mem
  have htree : sourceTokens parsed.program.view.tokens = sourceTokens p.view.tokens := by
    rw [hp]
    split
    · rfl
    · exact p.sourceTokens_settle
  have hsheds : Sheds (lexicon.bodyTokens source) (sourceTokens p.view.tokens) := by
    obtain ⟨used, hused, hsheds⟩ := sheds_of_reads hlabel hreads
      (serious_eq_nil_iff.mp hserious) hinserted fun _ => closesList_of_image
    rwa [hused, List.append_nil]
  have hbalanced : Balanced (sourceTokens p.view.tokens) := by
    refine (balanced_sourceTokens_iff fun t ht hi => ?_).mpr (Program.balanced hspelled)
    rcases hreads.mem_or_inserted ht with hmem | ⟨hkind, _⟩
    · simp [hinserted t hmem] at hi
    · exact hkind
  rw [Lexicon.dropLast_tokens, htree]
  refine ⟨hsheds, fun heq => heq ▸ hbalanced, fun hsource => (hsheds.eq_of_countP ?_)⟩
  -- nothing that opens a list is lost, and on both sides as much closes one
  calc (lexicon.bodyTokens source).countP closesList
      = (lexicon.bodyTokens source).countP opensList := hsource.symm
    _ = (sourceTokens p.view.tokens).countP opensList := hsheds.countP_opensList
    _ = (sourceTokens p.view.tokens).countP closesList := hbalanced

/-- A program whose main list has a `fin` that closes nothing. -/
def strayEnd : String :=
  "iniciar-programa inicia-ejecución avanza fin ; termina-ejecución finalizar-programa"

/-- The tokens kept of the sample are not those of the source, by running the parser on it. -/
theorem keeps_strayEnd : (parse strayEnd).toOption.map (fun parsed =>
    decide (sourceTokens parsed.program.view.tokens
      = (lexicon.tokenize strayEnd).tokens.dropLast)) = some false := by
  decide +kernel

/-- The sample is accepted, and has not kept every token. -/
theorem parse_strayEnd : ∃ parsed, parse strayEnd = .ok parsed
    ∧ sourceTokens parsed.program.view.tokens
      ≠ (lexicon.tokenize strayEnd).tokens.dropLast := by
  have hkept := keeps_strayEnd
  generalize (lexicon.tokenize strayEnd).tokens.dropLast = tokens at hkept ⊢
  generalize parse strayEnd = result at hkept ⊢
  cases result with
  | error failure => simp [Except.toOption] at hkept
  | ok parsed => exact ⟨parsed, rfl, by simpa [Except.toOption] using hkept⟩

/-- The sample with a stray `fin` is accepted, so what is said of accepted programs applies to it:
it has shed closing words only, and would have kept all tokens if it were balanced. -/
theorem accepted_strayEnd :
    ∃ parsed, parse strayEnd = .ok parsed
      ∧ Sheds (lexicon.tokenize strayEnd).tokens.dropLast
        (sourceTokens parsed.program.view.tokens)
      ∧ (sourceTokens parsed.program.view.tokens = (lexicon.tokenize strayEnd).tokens.dropLast
        ↔ Balanced (lexicon.tokenize strayEnd).tokens.dropLast) := by
  obtain ⟨parsed, hparse, _⟩ := parse_strayEnd
  exact ⟨parsed, hparse, accepted_keeps_tokens_iff_balanced hparse⟩

/-- It is accepted, and its `fin` is nowhere in the tree. -/
theorem not_accepted_keeps_tokens :
    ¬ ∀ source parsed, parse source = .ok parsed →
      sourceTokens parsed.program.view.tokens = (lexicon.tokenize source).tokens.dropLast := by
  intro h
  obtain ⟨parsed, hparse, hlost⟩ := parse_strayEnd
  exact hlost (h strayEnd parsed hparse)

end RobotLang.Worded
