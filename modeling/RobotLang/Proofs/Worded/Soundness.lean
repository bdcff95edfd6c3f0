/-
  RobotLang.Proofs.Worded.Soundness
  ─────────────────────────────────
  **WHAT IS ACCEPTED IS LENIENT.**

  A rule that reads tokens of a source and has only harmless complaints
  (`Passes`) has done nothing but this: it took the tokens that it wanted, it
  dropped closing words in front of a `;`, and it put in a `;` where the word
  at hand closes a list.  So the program that is made is a lenient one:

      parse source = .ok parsed  →  parsed.program = p.settle  with p.Lenient false

  `Accepts` is the promise of a rule to do so.  The grammar is gone through
  with it once, rule by rule.  Where a `;` is put in, the list around it can
  neither go on nor skip, so it ends there and its closing word is taken.
-/
import RobotLang.Proofs.Worded.Leniency

namespace RobotLang.Worded

open Rule

variable {α β : Type} {s : Setting} {ts rest : List Token}

/-! ## §1. Rules that pass, taken apart. -/

/-- A sequence passes if both parts do: complaints are harmless one by one. -/
theorem passes_bind_iff {first : Rule α} {next : α → Rule β} {b : β} :
    Passes (first >>= next) s ts b rest
      ↔ ∃ a mid, Passes first s ts a mid ∧ Passes (next a) s mid b rest := by
  constructor
  · rintro ⟨cs, he, hcs⟩
    obtain ⟨a, mid, cs₁, cs₂, h₁, h₂, rfl⟩ := ends_bind.mp he
    unfold serious at hcs
    rw [List.filter_append, List.append_eq_nil_iff] at hcs
    exact ⟨a, mid, ⟨cs₁, h₁, hcs.1⟩, ⟨cs₂, h₂, hcs.2⟩⟩
  · rintro ⟨a, mid, h₁, h₂⟩
    exact h₁.bind h₂

theorem passes_pure_iff {a b : α} : Passes (pure a) s ts b rest ↔ b = a ∧ rest = ts := by
  constructor
  · rintro ⟨cs, he, -⟩
    obtain ⟨hb, hrest, -⟩ := ends_pure.mp he
    exact ⟨hb, hrest⟩
  · rintro ⟨rfl, rfl⟩
    exact .pure b rest

theorem passes_peek_iff {next : Kind → Rule β} {b : β} :
    Passes (peek >>= next) s ts b rest ↔ Passes (next (front s ts).kind) s ts b rest := by
  simp only [Passes, ends_peek_bind]

theorem passes_isAt_iff {kind : Kind} {next : Bool → Rule β} {b : β} :
    Passes (isAt kind >>= next) s ts b rest
      ↔ Passes (next ((front s ts).kind == kind)) s ts b rest := by
  simp only [Passes, ends_isAt_bind]

/-- Looking at the token at hand leaves no complaint. -/
theorem passes_isAtAny_iff {kinds : List Kind} {next : Bool → Rule β} {b : β} :
    Passes (isAtAny kinds >>= next) s ts b rest
      ↔ Passes (next (kinds.contains (front s ts).kind)) s ts b rest := by
  simp only [Passes, ends_isAtAny_bind]

/-- A harmless complaint wants a `;`. -/
theorem kind_of_serious (hlabel : s.label = label) {t : Token} {kind : Kind}
    (h : serious [.mismatch t [s.label kind]] = []) : t.image ∈ closers ∧ kind = .semicolon := by
  have hharmless := serious_eq_nil_iff.mp h _ (List.mem_singleton_self _)
  obtain ⟨himage, hexpected⟩ := of_isHarmless_mismatch hharmless
  exact ⟨himage, kind_of_label (hlabel ▸ hexpected)⟩

/-! ## §2. Rules that accept. -/

/-- A token as a source has it: no repair put it in, and it is spelled like a
closing word only if it is one. -/
structure Native (t : Token) : Prop where
  notInserted : t.inserted = false
  closes : t.image ∈ closers → closesList t = true

/-- Where the rule passes on tokens of a source, what it makes is `good` and what
it leaves are tokens of the source. -/
def Accepts (rule : Rule α) (s : Setting) (good : α → Prop) : Prop :=
  ∀ ⦃ts a rest⦄, (∀ t ∈ ts, Native t) → Passes rule s ts a rest →
    good a ∧ ∀ t ∈ rest, Native t

/-- The token is of the kind and stands in the source. -/
def Stands (kind : Kind) (t : Token) : Prop :=
  t.kind = kind ∧ t.inserted = false

namespace Accepts

variable {good : β → Prop}

theorem pure {b : β} (hb : good b) : Accepts (pure b) s good := by
  intro ts b' rest hts h
  obtain ⟨rfl, rfl⟩ := passes_pure_iff.mp h
  exact ⟨hb, hts⟩

/-- The second rule reads tokens of the source too, since those are what the first has left. -/
theorem bind {first : Rule α} {next : α → Rule β} {fine : α → Prop}
    (hfirst : Accepts first s fine) (hnext : ∀ a, fine a → Accepts (next a) s good) :
    Accepts (first >>= next) s good := by
  intro ts b rest hts h
  obtain ⟨a, mid, ha, hb⟩ := passes_bind_iff.mp h
  obtain ⟨hfine, hmid⟩ := hfirst hts ha
  exact hnext a hfine hmid hb

theorem isAtAny {kinds : List Kind} {next : Bool → Rule β}
    (h : ∀ b, Accepts (next b) s good) : Accepts (isAtAny kinds >>= next) s good := by
  intro ts b rest hts hpass
  exact h _ hts (passes_isAtAny_iff.mp hpass)

/-- A token that may be there stands in the source if it is taken. -/
theorem eat (hs : s.stop.kind = .eof) {kind : Kind} (hk : kind ≠ .eof)
    {next : Option Token → Rule β}
    (hsome : ∀ t, Stands kind t → Accepts (next (some t)) s good)
    (hnone : Accepts (next none) s good) : Accepts (eat kind >>= next) s good := by
  intro ts b rest hts ⟨cs, he, hcs⟩
  rw [ends_eat_bind] at he
  split at he
  · next hfront =>
    obtain ⟨t, tail, rfl, ht⟩ := exists_cons_of_front_kind hs hk hfront
    rw [List.forall_mem_cons] at hts
    exact hsome t ⟨ht, hts.1.notInserted⟩ hts.2 ⟨cs, he, hcs⟩
  · exact hnone hts ⟨cs, he, hcs⟩

/-- Giving up never passes. -/
theorem noViable (kinds : List Kind) : Accepts (noViable kinds) s good := by
  rintro ts b rest - ⟨cs, he, -⟩
  exact absurd he ends_noViable

/-- A rule nested in itself accepts if each layer does, given that what is nested in it does. -/
theorem nested {step : Rule β → Rule β} {starts : List Kind}
    (h : ∀ inner, Accepts inner s good → Accepts (step inner) s good) :
    Accepts (nested step starts) s good :=
  fun ts _ _ hts hpass => nestedUpTo_induction (P := (Accepts · s good)) (.noViable starts) h
    (ts.length + 1) hts hpass

/-- Items in a row are all good.  By induction on the bound of the repetition. -/
theorem many {starts : List Kind} {item : Rule β} (h : Accepts item s good) :
    Accepts (many starts item) s (∀ b ∈ ·, good b) := by
  have hnil : Accepts (Pure.pure []) s (∀ b ∈ ·, good b) := .pure (List.forall_mem_nil _)
  have hbound : ∀ bound, Accepts (manyUpTo starts item bound) s (∀ b ∈ ·, good b) := by
    intro bound
    induction bound with
    | zero => exact hnil
    | succ bound ih =>
      refine isAtAny fun isItem => ?_
      cases isItem with
      | true =>
        exact h.bind fun b hb => ih.bind fun bs hbs => .pure (List.forall_mem_cons.mpr ⟨hb, hbs⟩)
      | false => exact hnil
  exact fun ts _ _ hts hpass => hbound ts.length hts hpass

end Accepts

/-- Any other token than a `;` is at hand when it is wanted. -/
theorem eq_cons_of_passes_expect (hs : s.stop.kind = .eof) (hlabel : s.label = label)
    {kind : Kind} (hkind : kind ∉ [.eof, .semicolon]) {t : Token}
    (h : Passes (expect kind) s ts t rest) : ts = t :: rest ∧ t.kind = kind := by
  simp only [List.mem_cons, List.not_mem_nil, or_false, not_or] at hkind
  obtain ⟨cs, he, hcs⟩ := h
  rcases (ends_expect hs hkind.1).mp he with ⟨hts, ht, -⟩ | ⟨stray, -, -, -, -, rfl⟩
  · exact ⟨hts, ht⟩
  · exact absurd (kind_of_serious hlabel hcs).2 hkind.2

/-- Any other token than a `;` is taken from the source. -/
theorem accepts_expect (hs : s.stop.kind = .eof) (hlabel : s.label = label) {kind : Kind}
    (hkind : kind ∉ [.eof, .semicolon]) : Accepts (expect kind) s (Stands kind) := by
  intro ts t rest hts h
  obtain ⟨rfl, ht⟩ := eq_cons_of_passes_expect hs hlabel hkind h
  rw [List.forall_mem_cons] at hts
  exact ⟨⟨ht, hts.1.notInserted⟩, hts.2⟩

/-- What a rule makes without a `;` stands in the source. -/
theorem accepts_of_makes {rule : Rule α} {good : α → Prop} {tokens : α → List Token}
    (h : Makes rule s good tokens) (hsemi : ∀ a, good a → ∀ t ∈ tokens a, t.kind ≠ .semicolon) :
    Accepts rule s fun a => good a ∧ ∀ t ∈ tokens a, t.inserted = false := by
  rintro ts a rest hts ⟨cs, he, -⟩
  obtain ⟨hgood, hreads⟩ := h he
  refine ⟨⟨hgood, fun t ht => ?_⟩, fun t ht => hts t (hreads.suffix.subset ht)⟩
  rcases hreads.mem_or_inserted ht with hmem | ⟨hkind, -⟩
  · exact (hts t hmem).notInserted
  · exact absurd hkind (hsemi a hgood t ht)

/-- A number is read from the source, token by token: nothing in it can be left out. -/
theorem accepts_integer (hs : s.stop.kind = .eof) :
    Accepts integer s fun n => n.Spelled ∧ ∀ t ∈ n.children.tokens, t.inserted = false := by
  refine accepts_of_makes (makes_integer hs) fun n hn => ?_
  refine Integer.forall_mem_tokens (fun t ht hsemi => ?_) (fun t _ ht _ => by simp [ht]) hn
  exact absurd (hsemi ▸ ht) (by decide)

/-- A condition is read from the source, token by token, with or without parentheses behind its
sensors. -/
theorem accepts_term (hs : s.stop.kind = .eof) :
    Accepts term s fun c =>
      c.Spelled s.sensorParens ∧ ∀ t ∈ c.children.tokens, t.inserted = false := by
  refine accepts_of_makes (makes_term hs) fun c hc => ?_
  refine Condition.forall_mem_tokens (fun t ht hsemi => ?_) (fun t _ ht _ => by simp [ht]) hc
  exact absurd (hsemi ▸ ht) (by decide)

/-! ## §3. Commands. -/

/-- The code is lenient, and all of it that is written stands in the source. -/
structure Code.Accepted (parens : Bool) (closing : Option Token) {part : Part} (c : Code part) :
    Prop where
  lenient : c.Lenient parens closing
  written : ∀ t ∈ c.written, t.inserted = false

/-- What holds of the head of a command and of what is behind it. -/
theorem forall_mem_headed {P : Token → Prop} {keyword word : Token} {inside behind : List Token}
    (hkeyword : P keyword) (hinside : ∀ t ∈ inside, P t) (hword : P word)
    (hbehind : ∀ t ∈ behind, P t) : ∀ t ∈ keyword :: inside ++ word :: behind, P t := by
  rw [List.forall_mem_append, List.forall_mem_cons, List.forall_mem_cons]
  exact ⟨⟨hkeyword, hinside⟩, hword, hbehind⟩

section Commands

variable (hs : s.stop.kind = .eof) (hlabel : s.label = label)

include hs hlabel

/-- A call has no `;` in it, so all of it stands in the source. -/
theorem accepts_call : Accepts call s (Code.Accepted s.sensorParens none) := by
  refine (accepts_expect hs hlabel (by decide)).bind fun name hn => ?_
  refine .eat hs (by decide) (fun left hl => ?_) (.pure ⟨hn.1, by simpa [Code.written] using hn.2⟩)
  refine (accepts_integer hs).bind fun argument ha => ?_
  refine (accepts_expect hs hlabel (by decide)).bind fun right hr => .pure ?_
  refine ⟨⟨hn.1, hl.1, ha.1, hr.1⟩, ?_⟩
  have hinside : ∀ t ∈ left :: argument.children.tokens, t.inserted = false := by
    rw [List.forall_mem_cons]
    exact ⟨hl.2, ha.2⟩
  exact forall_mem_headed hn.2 hinside hr.2 (List.forall_mem_nil _)

section Nested

variable {command : Rule Command} (h : Accepts command s (Code.Accepted s.sensorParens none))

include h

/-- Both branches of a conditional are accepted, in front of no closing word of their own. -/
theorem accepts_cond : Accepts (cond command) s (Code.Accepted s.sensorParens none) := by
  refine (accepts_expect hs hlabel (by decide)).bind fun keyword hk => ?_
  refine (accepts_term hs).bind fun test ht => ?_
  refine (accepts_expect hs hlabel (by decide)).bind fun then_ hth => ?_
  refine h.bind fun yes hyes => ?_
  have hhead := forall_mem_headed hk.2 ht.2 hth.2 hyes.written
  refine .eat hs (by decide) (fun otherwise ho => h.bind fun no hno => .pure ?_)
    (.pure ⟨⟨hk.1, ht.1, hth.1, hyes.lenient⟩, hhead⟩)
  refine ⟨⟨hk.1, ht.1, hth.1, hyes.lenient, ho.1, hno.lenient⟩, ?_⟩
  exact forall_mem_headed hk.2 (List.forall_mem_cons.mp hhead).2 ho.2 hno.written

/-- A loop is accepted if its body is. -/
theorem accepts_whileDo : Accepts (whileDo command) s (Code.Accepted s.sensorParens none) := by
  refine (accepts_expect hs hlabel (by decide)).bind fun keyword hk => ?_
  refine (accepts_term hs).bind fun test ht => ?_
  refine (accepts_expect hs hlabel (by decide)).bind fun do_ hd => ?_
  refine h.bind fun body hbody => .pure ⟨⟨hk.1, ht.1, hd.1, hbody.lenient⟩, ?_⟩
  exact forall_mem_headed hk.2 ht.2 hd.2 hbody.written

/-- A repetition is accepted if its body is. -/
theorem accepts_times : Accepts (times command) s (Code.Accepted s.sensorParens none) := by
  refine (accepts_expect hs hlabel (by decide)).bind fun keyword hk => ?_
  refine (accepts_integer hs).bind fun count hc => ?_
  refine (accepts_expect hs hlabel (by decide)).bind fun unit hu => ?_
  refine h.bind fun body hbody => .pure ⟨⟨hk.1, hc.1, hu.1, hbody.lenient⟩, ?_⟩
  exact forall_mem_headed hk.2 hc.2 hu.2 hbody.written

end Nested

/-! ## §4. Statements and lists. -/

omit hs hlabel in
/-- Of a `;` that was put in nothing is in the source. -/
theorem inserted_of_mem_sourceOf {semicolon t : Token} (h : t ∈ sourceOf semicolon) :
    t.inserted = false := by
  unfold sourceOf at h
  split at h
  · cases h
  · next hin =>
    obtain rfl := List.mem_singleton.mp h
    simpa using hin

/-- A `;` comes from the source, or it was put in before the word at hand, which
closes a list and may follow it. -/
theorem terminates_of_passes {follow : List Kind} (heof : Kind.eof ∉ follow) {t : Token}
    (hts : ∀ t ∈ ts, Native t) (h : Passes (expectTerminator follow) s ts t rest) :
    (∀ t ∈ rest, Native t)
      ∧ (Stands .semicolon t
        ∨ rest = ts ∧ ∃ word, ClosesWith s follow (some word) ts ∧ Terminates (some word) t) := by
  obtain ⟨cs, he, hcs⟩ := h
  rcases (ends_expectTerminator hs).mp he with
    ⟨rfl, ht, -⟩ | ⟨-, hfollow, -, rfl, rfl, rfl⟩ | ⟨stray, rfl, -, -, ht, -, -⟩
  · rw [List.forall_mem_cons] at hts
    exact ⟨hts.2, .inl ⟨ht, hts.1.notInserted⟩⟩
  · obtain ⟨word, tail, rfl, hword⟩ := exists_cons_of_front_kind hs
      (fun hk => heof (hk ▸ hfollow)) (rfl : (front s rest).kind = (front s rest).kind)
    have himage : word.image ∈ closers := (kind_of_serious hlabel hcs).1
    have hcloses : closesList word = true := (hts word List.mem_cons_self).closes himage
    refine ⟨hts, .inr ⟨rfl, word, ?_, .inr ⟨word, rfl, himage, ?_⟩⟩⟩
    · rintro _ ⟨⟩
      exact ⟨rfl, hcloses, hfollow⟩
    · rw [hlabel]
      rfl
  · rw [List.forall_mem_cons, List.forall_mem_cons] at hts
    exact ⟨hts.2.2, .inl ⟨ht, hts.2.1.notInserted⟩⟩

section Statements

variable {command : Rule Command} (h : Accepts command s (Code.Accepted s.sensorParens none))
  {follow : List Kind} (heof : Kind.eof ∉ follow)

include h heof

/-- A statement is accepted in front of the word at hand.  Where none starts with a word that
closes a list, a lone `;` is never put in. -/
theorem accepted_of_statementOf {c : Statement} (hts : ∀ t ∈ ts, Native t)
    (hstart : ∀ word, ¬ClosesWith s follow (some word) ts)
    (hpass : Passes (statementOf command follow) s ts c rest) :
    (∀ t ∈ rest, Native t)
      ∧ ∃ closing, ClosesWith s follow closing rest ∧ c.Accepted s.sensorParens closing := by
  rw [statementOf, passes_isAtAny_iff] at hpass
  split at hpass
  · obtain ⟨c, mid, hc, hpass⟩ := passes_bind_iff.mp hpass
    obtain ⟨semicolon, _, hsemi, hpass⟩ := passes_bind_iff.mp hpass
    obtain ⟨rfl, rfl⟩ := passes_pure_iff.mp hpass
    obtain ⟨hcommand, hmid⟩ := h hts hc
    obtain ⟨hrest, hterminator⟩ := terminates_of_passes hs hlabel heof hmid hsemi
    refine ⟨hrest, ?_⟩
    have hwritten : ∀ t ∈ (Code.ended c semicolon).written, t.inserted = false := by
      rw [Code.written, List.forall_mem_append]
      exact ⟨hcommand.written, fun t => inserted_of_mem_sourceOf⟩
    rcases hterminator with ⟨hk, hin⟩ | ⟨rfl, word, hcloses, hterminates⟩
    · exact ⟨none, by simp [ClosesWith], ⟨hcommand.lenient, .inl ⟨hk, hin⟩⟩, hwritten⟩
    · exact ⟨some word, hcloses, ⟨hcommand.lenient, hterminates⟩, hwritten⟩
  · obtain ⟨semicolon, _, hsemi, hpass⟩ := passes_bind_iff.mp hpass
    obtain ⟨rfl, rfl⟩ := passes_pure_iff.mp hpass
    obtain ⟨hrest, ⟨hk, hin⟩ | ⟨-, word, hcloses, -⟩⟩ :=
      terminates_of_passes hs hlabel heof hts hsemi
    · exact ⟨hrest, none, by simp [ClosesWith], hk, by simpa [Code.written] using hin⟩
    -- an empty statement has no `;` put in: it would end where it started
    · exact absurd hcloses (hstart word)

end Statements

omit hs in
/-- Nothing is skipped harmlessly. -/
theorem eq_of_passes_resume {first resync : List Kind} {closer : Kind} {b : Bool}
    (hcloser : closer ≠ .semicolon) (hfirst : (front s ts).kind ∉ first)
    (h : Passes (resume first closer resync) s ts b rest) : b = false ∧ rest = ts := by
  obtain ⟨cs, he, hcs⟩ := h
  rcases ends_resume hfirst he with ⟨hb, hrest, -⟩ | ⟨stray, run, -, -, rfl, -⟩
  · exact ⟨hb, hrest⟩
  · exact absurd (kind_of_serious hlabel hcs).2 hcloser

omit hs in
/-- Where no item starts, a list ends. -/
theorem eq_nil_of_passes_listUpTo {first resync : List Kind} {closer : Kind} {item : Rule α}
    {as : List α} (hcloser : closer ≠ .semicolon) (hfirst : (front s ts).kind ∉ first)
    (bound : Nat) (h : Passes (listUpTo first closer resync item bound) s ts as rest) :
    as = [] ∧ rest = ts := by
  cases bound with
  | zero => exact passes_pure_iff.mp h
  | succ bound =>
    rw [listUpTo, passes_isAtAny_iff, if_neg (by simpa using hfirst)] at h
    obtain ⟨b, mid, hresume, hgo⟩ := passes_bind_iff.mp h
    obtain ⟨rfl, rfl⟩ := eq_of_passes_resume hlabel hcloser hfirst hresume
    exact passes_pure_iff.mp hgo

section Lists

variable {command : Rule Command} (h : Accepts command s (Code.Accepted s.sensorParens none))
  {closer : Kind} (hcloser : closer = .end_ ∨ closer = .endExecution)

include h hcloser

/-- The statements of a list are accepted in front of the word that the list ends at.  A `;` was
put in only if that word closes a list, and then the list has no more statements. -/
theorem accepted_of_listUpTo {resync : List Kind} (bound : Nat) {ss : List Statement}
    (hts : ∀ t ∈ ts, Native t)
    (hpass : Passes (listUpTo statementFirst closer resync
      (statementOf command (statementFirst ++ [closer])) bound) s ts ss rest) :
    (∀ t ∈ rest, Native t)
      ∧ (Code.ofList ss).Accepted s.sensorParens (some (front s rest)) := by
  have hsemi : closer ≠ .semicolon := by rcases hcloser with rfl | rfl <;> decide
  have heof : Kind.eof ∉ statementFirst ++ [closer] := by
    rcases hcloser with rfl | rfl <;> decide
  have hfirst : ∀ t, closesList t = true → t.kind ∉ statementFirst := by
    intro t ht
    simp only [closesList, Bool.or_eq_true, beq_iff_eq] at ht
    rcases ht with ht | ht <;> rw [ht] <;> decide
  have hnil : ∀ t, (Code.ofList []).Accepted s.sensorParens (some t) :=
    fun t => ⟨trivial, List.forall_mem_nil _⟩
  induction bound generalizing ts ss with
  | zero =>
    obtain ⟨rfl, rfl⟩ := passes_pure_iff.mp hpass
    exact ⟨hts, hnil _⟩
  | succ bound ih =>
    by_cases hin : (front s ts).kind ∈ statementFirst
    · rw [listUpTo, passes_isAtAny_iff, if_pos (by simpa using hin)] at hpass
      obtain ⟨c, mid, hc, hmore⟩ := passes_bind_iff.mp hpass
      obtain ⟨ss, _, hss, hcons⟩ := passes_bind_iff.mp hmore
      obtain ⟨rfl, rfl⟩ := passes_pure_iff.mp hcons
      -- the statement is not empty: a word that closes a list starts no statement
      have hstart : ∀ word, ¬ClosesWith s (statementFirst ++ [closer]) (some word) ts := by
        intro word hword
        obtain ⟨rfl, hcloses, -⟩ := hword word rfl
        exact hfirst _ hcloses hin
      obtain ⟨hmid, closing, hclosing, hstatement⟩ :=
        accepted_of_statementOf hs hlabel h heof hts hstart hc
      cases closing with
      | none =>
        obtain ⟨hrest, htail⟩ := ih hmid hss
        refine ⟨hrest, .inl ⟨hstatement.lenient, htail.lenient⟩, ?_⟩
        exact List.forall_mem_append.mpr ⟨hstatement.written, htail.written⟩
      | some word =>
        -- its `;` was put in before `word`, and there the list ends
        obtain ⟨rfl, hcloses, -⟩ := hclosing word rfl
        obtain ⟨rfl, rfl⟩ :=
          eq_nil_of_passes_listUpTo hlabel hsemi (hfirst _ hcloses) bound hss
        refine ⟨hmid, .inr ⟨hstatement.lenient, rfl⟩, ?_⟩
        exact List.forall_mem_append.mpr ⟨hstatement.written, List.forall_mem_nil _⟩
    · obtain ⟨rfl, rfl⟩ := eq_nil_of_passes_listUpTo hlabel hsemi hin _ hpass
      exact ⟨hts, hnil _⟩

/-- A list of statements between its two words is accepted.  The word that the list ended at is the
one that is taken behind it, so it may stand for the `;` of the last statement. -/
theorem accepts_enclosed {opener : Kind} {resync : List Kind}
    (hopener : opener ∉ [.eof, .semicolon]) {make : Token → Statements → Token → β}
    {good : β → Prop}
    (hmake : ∀ opening body closing, Stands opener opening →
      Code.Accepted s.sensorParens (some closing) body → Stands closer closing →
      good (make opening body closing)) :
    Accepts (do
      let opening ← expect opener
      let body ← list statementFirst closer resync
        (statementOf command (statementFirst ++ [closer]))
      return make opening (.ofList body) (← expect closer)) s good := by
  refine (accepts_expect hs hlabel hopener).bind fun opening hopening => ?_
  intro ts b rest hts hpass
  obtain ⟨ss, mid, hlist, hpass⟩ := passes_bind_iff.mp hpass
  obtain ⟨closing, _, hclosing, hpass⟩ := passes_bind_iff.mp hpass
  obtain ⟨rfl, rfl⟩ := passes_pure_iff.mp hpass
  obtain ⟨hmid, hbody⟩ := accepted_of_listUpTo hs hlabel h hcloser ts.length hts hlist
  have hkind : closer ∉ [.eof, .semicolon] := by rcases hcloser with rfl | rfl <;> decide
  -- the word that the list ended at is the one that is taken
  obtain ⟨rfl, hk⟩ := eq_cons_of_passes_expect hs hlabel hkind hclosing
  rw [List.forall_mem_cons] at hmid
  exact ⟨hmake opening _ closing hopening hbody ⟨hk, hmid.1.notInserted⟩, hmid.2⟩

end Lists

/-- Whatever the first token chooses, what is read is accepted if what is nested in it is.  A block
hands its own closing word to the list in it. -/
theorem accepts_commandStep {inner : Rule Command}
    (h : Accepts inner s (Code.Accepted s.sensorParens none)) :
    Accepts (commandStep inner) s (Code.Accepted s.sensorParens none) := by
  intro ts c rest hts hpass
  rw [commandStep, passes_peek_iff] at hpass
  split at hpass
  · exact accepts_call hs hlabel hts hpass
  · exact accepts_cond hs hlabel h hts hpass
  · exact accepts_whileDo hs hlabel h hts hpass
  · exact accepts_times hs hlabel h hts hpass
  · refine accepts_enclosed hs hlabel h (.inl rfl) (by decide) ?_ hts hpass
    intro opening body closing ho hbody hc
    exact ⟨⟨ho.1, hbody.lenient, hc.1⟩,
      forall_mem_headed ho.2 hbody.written hc.2 (List.forall_mem_nil _)⟩
  · split at hpass
    · next action haction =>
      have hne : (front s ts).kind ≠ .eof := by
        intro heof
        simp [heof, Builtin.ofKind?] at haction
      obtain ⟨t, tail, rfl, -⟩ := exists_cons_of_front_kind hs hne rfl
      obtain ⟨cs, he, -⟩ := hpass
      rw [ends_advance_bind] at he
      obtain ⟨rfl, rfl, -⟩ := ends_pure.mp he
      rw [List.forall_mem_cons] at hts
      exact ⟨⟨haction, by simpa [Code.written] using hts.1.notInserted⟩, hts.2⟩
    · exact Accepts.noViable _ hts hpass

/-- Commands of any depth are accepted. -/
theorem accepts_command : Accepts command s (Code.Accepted s.sensorParens none) :=
  .nested fun _ => accepts_commandStep hs hlabel

/-! ## §5. Definitions and programs. -/

/-- The parentheses behind a function's name stand in the source. -/
theorem accepts_parameter :
    Accepts parameter s fun p => p.Spelled ∧ ∀ t ∈ p.children.tokens, t.inserted = false := by
  refine (accepts_expect hs hlabel (by decide)).bind fun left hl => ?_
  refine .eat hs (by decide) (fun name hn => ?_) ?_
  · refine (accepts_expect hs hlabel (by decide)).bind fun right hr => .pure ?_
    exact ⟨⟨hl.1, by simpa using hn.1, hr.1⟩, by simp [Parameter.children, hl.2, hn.2, hr.2]⟩
  · refine (accepts_expect hs hlabel (by decide)).bind fun right hr => .pure ?_
    exact ⟨⟨hl.1, by simp, hr.1⟩, by simp [Parameter.children, hl.2, hr.2]⟩

theorem accepts_optionalParameter :
    Accepts optionalParameter s fun parameter => (∀ p ∈ parameter, p.Spelled)
      ∧ ∀ t ∈ (parameterForest parameter).tokens, t.inserted = false := by
  intro ts parameter rest hts hpass
  rw [optionalParameter, passes_isAt_iff] at hpass
  split at hpass
  · obtain ⟨p, mid, hp, hpass⟩ := passes_bind_iff.mp hpass
    obtain ⟨rfl, rfl⟩ := passes_pure_iff.mp hpass
    obtain ⟨⟨hspelled, hin⟩, hrest⟩ := accepts_parameter hs hlabel hts hp
    exact ⟨⟨by simpa using hspelled,
      by simpa [parameterForest, Parameter.view] using hin⟩, hrest⟩
  · obtain ⟨rfl, rfl⟩ := passes_pure_iff.mp hpass
    exact ⟨⟨by simp, by simp [parameterForest]⟩, hts⟩

/-- The definition is lenient, and all of it that is written stands in the source. -/
structure Definition.Accepted (parens : Bool) (d : Definition) : Prop where
  lenient : d.Lenient parens
  written : ∀ t ∈ d.written, t.inserted = false

omit hs hlabel in
/-- No list can end where a function ends, so its `;` stands in the source. -/
theorem not_closesWith_definitionFollow (word : Token) (ts : List Token) :
    ¬ClosesWith s definitionFollow (some word) ts := by
  intro h
  obtain ⟨-, hcloses, hfollow⟩ := h word rfl
  have hnot : ∀ kind ∈ definitionFollow, (kind == .end_ || kind == .endExecution) = false := by
    decide
  rw [closesList, hnot _ hfollow] at hcloses
  cases hcloses

/-- The body of a function ends with a `;` of the source, since no list can end there. -/
theorem accepts_fullDefinition :
    Accepts fullDefinition s (Definition.Accepted s.sensorParens) := by
  refine (accepts_expect hs hlabel (by decide)).bind fun keyword hk => ?_
  refine (accepts_expect hs hlabel (by decide)).bind fun name hn => ?_
  refine (accepts_optionalParameter hs hlabel).bind fun parameter hp => ?_
  refine (accepts_expect hs hlabel (by decide)).bind fun as_ ha => ?_
  have hbody : Accepts (statement definitionFollow) s (Code.Accepted s.sensorParens none) := by
    intro ts c rest hts hpass
    obtain ⟨hrest, closing, hclosing, hc⟩ := accepted_of_statementOf hs hlabel
      (accepts_command hs hlabel) (by decide) hts (not_closesWith_definitionFollow · ts) hpass
    cases closing with
    | none => exact ⟨hc, hrest⟩
    | some word => exact absurd hclosing (not_closesWith_definitionFollow word rest)
  refine hbody.bind fun body hb => .pure ⟨⟨hk.1, hn.1, hp.1, ha.1, hb.lenient⟩, ?_⟩
  have hinside : ∀ t ∈ name :: (parameterForest parameter).tokens, t.inserted = false := by
    rw [List.forall_mem_cons]
    exact ⟨hn.2, hp.2⟩
  exact forall_mem_headed hk.2 hinside ha.2 hb.written

/-- A prototype ends with a `;` of the source. -/
theorem accepts_prototype : Accepts prototype s (Definition.Accepted s.sensorParens) := by
  refine (accepts_expect hs hlabel (by decide)).bind fun keyword hk => ?_
  refine (accepts_expect hs hlabel (by decide)).bind fun name hn => ?_
  refine (accepts_optionalParameter hs hlabel).bind fun parameter hp => ?_
  have hterminator : Accepts (expectTerminator definitionFollow) s (Stands .semicolon) := by
    intro ts t rest hts hpass
    obtain ⟨hrest, hstands | ⟨-, word, hword, -⟩⟩ :=
      terminates_of_passes hs hlabel (by decide) hts hpass
    · exact ⟨hstands, hrest⟩
    · exact absurd hword (not_closesWith_definitionFollow word ts)
  refine hterminator.bind fun semicolon hsemi => .pure ⟨⟨hk.1, hn.1, hp.1, hsemi.1⟩, ?_⟩
  have hinside : ∀ t ∈ name :: (parameterForest parameter).tokens, t.inserted = false := by
    rw [List.forall_mem_cons]
    exact ⟨hn.2, hp.2⟩
  exact forall_mem_headed hk.2 hinside hsemi.2 (List.forall_mem_nil _)

theorem accepts_definition : Accepts definition s (Definition.Accepted s.sensorParens) := by
  intro ts d rest hts hpass
  rw [definition, passes_peek_iff] at hpass
  split at hpass
  · exact accepts_fullDefinition hs hlabel hts hpass
  · exact accepts_prototype hs hlabel hts hpass
  · exact Accepts.noViable _ hts hpass

/-- The program is lenient, and all of it that is written stands in the source. -/
structure Program.Accepted (parens : Bool) (p : Program) : Prop where
  lenient : p.Lenient parens
  written : ∀ t ∈ p.written, t.inserted = false

/-- The main part is lenient, and all that is written of it stands in the source. -/
theorem accepts_mainPart :
    Accepts mainPart s fun m => m.Lenient s.sensorParens
      ∧ ∀ t ∈ m.written, t.inserted = false := by
  refine accepts_enclosed hs hlabel (accepts_command hs hlabel) (.inr rfl) (by decide) ?_
  intro opening body closing ho hbody hc
  exact ⟨⟨ho.1, hbody.lenient, hc.1⟩,
    forall_mem_headed ho.2 hbody.written hc.2 (List.forall_mem_nil _)⟩

/-- A program is accepted if all its functions are and its main part is. -/
theorem accepts_program : Accepts program s (Program.Accepted s.sensorParens) := by
  refine (accepts_expect hs hlabel (by decide)).bind fun opening ho => ?_
  refine (accepts_definition hs hlabel).many.bind fun definitions hd => ?_
  refine (accepts_mainPart hs hlabel).bind fun main hm => ?_
  refine (accepts_expect hs hlabel (by decide)).bind fun closing hc => ?_
  have hfinish : Accepts finish s fun _ => True := by
    rintro ts u rest hts ⟨cs, he, -⟩
    obtain ⟨-, rfl, -⟩ := ends_finish.mp he
    exact ⟨trivial, hts⟩
  refine hfinish.bind fun _ _ => .pure ?_
  refine ⟨⟨ho.1, fun d hmem => (hd d hmem).lenient, hm.1, hc.1⟩, ?_⟩
  have hdefinitions : ∀ t ∈ definitions.flatMap (·.written), t.inserted = false := by
    intro t ht
    obtain ⟨d, hmem, ht⟩ := List.mem_flatMap.mp ht
    exact (hd d hmem).written t ht
  simp only [Program.written, List.forall_mem_append, List.forall_mem_cons]
  exact ⟨⟨⟨ho.2, hdefinitions⟩, hm.2⟩, hc.2, List.forall_mem_nil _⟩

end Commands

/-! ## §6. Accepted sources. -/

/-- What the lexer makes of a source are tokens as a source has them. -/
theorem native_of_mem {source : String} {t : Token} (ht : t ∈ lexicon.bodyTokens source) :
    Native t :=
  ⟨Lexicon.inserted_eq_false_of_mem ht, closesList_of_image ht⟩

/-- A parse without serious complaints is a run that passes, up to the end of input. -/
theorem exists_passes_of_parseTokens {tokens : List Token} {q : Program}
    (h : parseTokens tokens = .ok q) :
    ∃ p rest, Passes program (.forTokens lexicon.label true false tokens) (beforeEnd tokens) p rest
      ∧ (front (.forTokens lexicon.label true false tokens) rest).kind = .eof := by
  simp only [parseTokens] at h
  split at h
  · cases h
  · next p hresult =>
    split at h
    · next hserious =>
      have hends := ends_of_result hresult
      obtain ⟨-, -, heof⟩ := makes_program (endToken_kind tokens) hends
      exact ⟨p, _, ⟨_, hends, hserious⟩, heof⟩
    · cases h

/-- What is accepted passes on all tokens of the source, and is settled.  Settling changes nothing
where no complaint was made, so it can be said of both cases. -/
theorem exists_passes_of_parse {source : String} {parsed : Parsed Program}
    (h : parse source = .ok parsed) :
    ∃ p, Passes program (.forTokens lexicon.label true false (lexicon.tokenize source).tokens)
        (lexicon.bodyTokens source) p []
      ∧ parsed.program = p.settle := by
  have hbefore := Lexicon.beforeEnd_tokens lexicon_emitsNoEnd source
  simp only [parse, Lexicon.errors_eq_nil lexicon_takesEverything] at h
  cases htokens : parseTokens (lexicon.tokenize source).tokens with
  | error failure => simp [htokens, Except.map] at h
  | ok q =>
    obtain rfl : ⟨q, _⟩ = parsed := by simpa [htokens, Except.map] using h
    obtain ⟨p, rest, hpass, heof⟩ := exists_passes_of_parseTokens htokens
    -- reading goes on up to the end of input, which no token before it is
    have hrest : rest = [] := by
      obtain ⟨cs, hends, -⟩ := hpass
      obtain ⟨-, hreads, -⟩ := makes_program (endToken_kind _) hends
      rw [hbefore] at hreads
      exact eq_nil_of_front_eof (fun t => Lexicon.kind_ne_eof_of_mem lexicon_emitsNoEnd)
        hreads.suffix heof
    subst hrest
    have hsettled := parseTokens_of_passes
      (by rw [hbefore]; exact fun t => Lexicon.inserted_eq_false_of_mem) hpass
    rw [htokens] at hsettled
    exact ⟨p, hbefore ▸ hpass, Except.ok.inj hsettled⟩

/-- **What is accepted is lenient.**  All that is written of it stands in the source, in the same
order. -/
theorem exists_accepted_of_parse {source : String} {parsed : Parsed Program}
    (h : parse source = .ok parsed) :
    ∃ p : Program, p.Accepted false ∧ p.written.Sublist (lexicon.bodyTokens source)
      ∧ parsed.program = p.settle := by
  obtain ⟨p, hpass, hp⟩ := exists_passes_of_parse h
  have hnative : ∀ t ∈ lexicon.bodyTokens source, Native t := fun _ => native_of_mem
  obtain ⟨haccepted, -⟩ := accepts_program (endToken_kind _) rfl hnative hpass
  refine ⟨p, haccepted, ?_, hp⟩
  obtain ⟨cs, hends, hserious⟩ := hpass
  obtain ⟨-, hreads, -⟩ := makes_program (endToken_kind _) hends
  obtain ⟨used, hused, hsheds⟩ := sheds_of_reads rfl hreads (serious_eq_nil_iff.mp hserious)
    (fun t ht => (hnative t ht).notInserted) (fun t ht => (hnative t ht).closes)
  have hwritten : sourceTokens p.view.tokens = p.written := by
    rw [← Program.sourceTokens_settle, Program.tokens_settle haccepted.lenient haccepted.written,
      sourceTokens_withTerminators]
    exact List.filter_eq_self.mpr fun t ht => by simp [haccepted.written t ht]
  rw [hused, List.append_nil, ← hwritten]
  exact hsheds.sublist

end RobotLang.Worded
