/-
  RobotLang.Proofs.Rule.ValidPrefix
  ─────────────────────────────────
  **WHAT WAS READ BEFORE A RULE GAVE UP CAN STILL BE COMPLETED.**

  A rule follows a phrase of a grammar when, on any tokens and without
  repairs, one of three things happens (`Outcome.Follows`):

      ends       what it read is a way to write the phrase
      stops      what it read starts one, and so does what it read together
                 with any of the kinds it wanted instead of the token at hand
      tooLarge   the same, but the token that it stops at is a literal that
                 cannot be held

  The relation passes through sequences, options, repetition and nesting.  A
  phrase that follows a rule that gave up has to be completed too, which is
  possible when it can be written at all (`Productive`).
-/
import RobotLang.Proofs.Grammar.Expression
import RobotLang.Proofs.Rule.Lockstep

namespace RobotLang

/-! ## §1. Starts of phrases. -/

section Starts

variable {R : Type} {g : R → Phrase R} {p q : Phrase R} {ks ls : List Kind}

/-- Some way to write the phrase starts with these kinds. -/
def Starts (g : R → Phrase R) (p : Phrase R) (ks : List Kind) : Prop :=
  ∃ more, Derives g p (ks ++ more)

/-- There is a way to write the phrase. -/
class Productive (g : R → Phrase R) (p : Phrase R) : Prop where
  exists_derives : ∃ ks, Derives g p ks

/-- A whole way to write a phrase is a start of it. -/
theorem Derives.starts (h : Derives g p ks) : Starts g p ks :=
  ⟨[], by rwa [List.append_nil]⟩

theorem Derives.productive (h : Derives g p ks) : Productive g p :=
  ⟨ks, h⟩

/-- More ways to write a phrase have more starts. -/
theorem Starts.mono (h : Starts g p ks) (hpq : ∀ ls, Derives g p ls → Derives g q ls) :
    Starts g q ks := by
  obtain ⟨more, hmore⟩ := h
  exact ⟨more, hpq _ hmore⟩

/-- A start of the first part is a start of the sequence. -/
theorem Starts.seqLeft [Productive g q] (h : Starts g p ks) : Starts g (.seq p q) ks := by
  obtain ⟨more, hmore⟩ := h
  obtain ⟨ls, hls⟩ := Productive.exists_derives (g := g) (p := q)
  exact ⟨more ++ ls, by rw [← List.append_assoc]; exact .seq hmore hls⟩

/-- Behind a whole first part, a start of the second part goes on. -/
theorem Starts.seqRight (hp : Derives g p ks) (h : Starts g q ls) :
    Starts g (.seq p q) (ks ++ ls) := by
  obtain ⟨more, hmore⟩ := h
  exact ⟨more, by rw [List.append_assoc]; exact .seq hp hmore⟩

instance (kind : Kind) : Productive g (.token kind) :=
  (Derives.token kind).productive

instance : Productive g .nothing :=
  Derives.nothing.productive

instance [Productive g p] [Productive g q] : Productive g (.seq p q) := by
  obtain ⟨ks, hks⟩ := Productive.exists_derives (g := g) (p := p)
  obtain ⟨ls, hls⟩ := Productive.exists_derives (g := g) (p := q)
  exact (Derives.seq hks hls).productive

instance : Productive g (.inOrder []) :=
  Derives.nothing.productive

instance {ps : List (Phrase R)} [Productive g p] [Productive g (.inOrder ps)] :
    Productive g (.inOrder (p :: ps)) :=
  inferInstanceAs (Productive g (.seq p (.inOrder ps)))

instance : Productive g (.opt p) :=
  Derives.optNone.productive

instance : Productive g (.star p) :=
  Derives.starNil.productive

end Starts

/-! ## §2. Rules that follow a phrase. -/

/-- The diagnostic blames the token for not being one of the kinds. -/
inductive Blames (label : Kind → String) (t : Token) : Diagnostic → List Kind → Prop where
  | mismatch (wanted : List Kind) :
      wanted ≠ [] → Blames label t (.mismatch t (wanted.map label)) wanted
  /-- The input should have ended. -/
  | leftover : Blames label t (.atToken .expectedEof t (some [])) []

/-- The outcome of a rule that reads the phrase from the tokens. -/
inductive Outcome.Follows {R α : Type} (g : R → Phrase R) (p : Phrase R) (s : Setting)
    (ts : List Token) : Outcome α → Prop where
  | ends (a : α) (used rest : List Token) :
      ts = used ++ rest → (∀ t ∈ used, t.LiteralFits) → Derives g p (used.map (·.kind)) →
      Follows g p s ts ⟨some a, rest, []⟩
  | stops (used rest : List Token) (d : Diagnostic) (wanted : List Kind) :
      ts = used ++ rest → (∀ t ∈ used, t.LiteralFits) →
      Blames s.label (Rule.front s rest) d wanted →
      Starts g p (used.map (·.kind)) → (∀ e ∈ wanted, Starts g p (used.map (·.kind) ++ [e])) →
      Follows g p s ts ⟨none, rest, [d]⟩
  | tooLarge (used : List Token) (t : Token) (rest : List Token) :
      ts = used ++ t :: rest → (∀ t ∈ used, t.LiteralFits) → ¬t.LiteralFits →
      Starts g p (used.map (·.kind) ++ [t.kind]) →
      Follows g p s ts ⟨none, rest, [.atToken .parseError t none]⟩

namespace Outcome.Follows

variable {R α β : Type} {g : R → Phrase R} {p q : Phrase R} {s : Setting} {ts mid : List Token}

/-- What reads a phrase reads every phrase with at least its ways to be written. -/
theorem mono {o : Outcome α} (h : o.Follows g p s ts)
    (hpq : ∀ ks, Derives g p ks → Derives g q ks) : o.Follows g q s ts := by
  cases h with
  | ends a used rest hts hfits hp => exact .ends a used rest hts hfits (hpq _ hp)
  | stops used rest d wanted hts hfits hd hstarts hwanted =>
    exact .stops used rest d wanted hts hfits hd (hstarts.mono hpq)
      fun e he => (hwanted e he).mono hpq
  | tooLarge used t rest hts hfits ht hstarts =>
    exact .tooLarge used t rest hts hfits ht (hstarts.mono hpq)

/-- What was read before goes in front.  In each of the three endings the tokens before it are a
derivation of the first phrase, so the sequence goes on as the second one does. -/
theorem prepend {o : Outcome α} {used : List Token} (hts : ts = used ++ mid)
    (hfits : ∀ t ∈ used, t.LiteralFits) (hp : Derives g p (used.map (·.kind)))
    (h : o.Follows g q s mid) : o.Follows g (.seq p q) s ts := by
  cases h with
  | ends a used' rest hmid hfits' hq =>
    refine .ends a (used ++ used') rest (by rw [hts, hmid, List.append_assoc]) ?_ ?_
    · exact List.forall_mem_append.mpr ⟨hfits, hfits'⟩
    · rw [List.map_append]
      exact .seq hp hq
  | stops used' rest d wanted hmid hfits' hd hstarts hwanted =>
    refine .stops (used ++ used') rest d wanted (by rw [hts, hmid, List.append_assoc]) ?_ hd ?_ ?_
    · exact List.forall_mem_append.mpr ⟨hfits, hfits'⟩
    · rw [List.map_append]
      exact .seqRight hp hstarts
    · intro e he
      rw [List.map_append, List.append_assoc]
      exact .seqRight hp (hwanted e he)
  | tooLarge used' t rest hmid hfits' ht hstarts =>
    refine .tooLarge (used ++ used') t rest (by rw [hts, hmid, List.append_assoc]) ?_ ht ?_
    · exact List.forall_mem_append.mpr ⟨hfits, hfits'⟩
    · rw [List.map_append, List.append_assoc]
      exact .seqRight hp hstarts

/-- A sequence reads its first phrase and then its second. -/
theorem bind [Productive g q] {first : Rule α} {next : α → Rule β}
    (h : (first s ts).Follows g p s ts)
    (hnext : ∀ a mid, first s ts = ⟨some a, mid, []⟩ → (next a s mid).Follows g q s mid) :
    ((first >>= next) s ts).Follows g (.seq p q) s ts := by
  generalize ho : first s ts = o at h
  cases h with
  | ends a used rest hts hfits hp =>
    rw [Rule.bind_of_quiet ho]
    exact (hnext a rest ho).prepend hts hfits hp
  | stops used rest d wanted hts hfits hd hstarts hwanted =>
    rw [Rule.bind_of_givenUp ho]
    exact .stops used rest d wanted hts hfits hd hstarts.seqLeft
      fun e he => (hwanted e he).seqLeft
  | tooLarge used t rest hts hfits ht hstarts =>
    rw [Rule.bind_of_givenUp ho]
    exact .tooLarge used t rest hts hfits ht hstarts.seqLeft

/-- Nothing more is read where a node is put together. -/
theorem andPure {rule : Rule α} {f : α → β} (h : (rule s ts).Follows g p s ts) :
    ((rule >>= fun a => pure (f a)) s ts).Follows g p s ts := by
  have hseq : ((rule >>= fun a => pure (f a)) s ts).Follows g (.seq p .nothing) s ts :=
    h.bind fun a mid _ => .ends (f a) [] mid rfl (by simp) .nothing
  refine hseq.mono fun ks hks => ?_
  cases hks with
  | seq hp hnothing =>
    cases hnothing
    rwa [List.append_nil]

end Outcome.Follows

namespace Rule

variable {R α β : Type} {g : R → Phrase R} {p q : Phrase R} {s : Setting} {ts : List Token}

/-- On any tokens, the rule reads the phrase. -/
def Follows (rule : Rule α) (s : Setting) (g : R → Phrase R) (p : Phrase R) : Prop :=
  ∀ ts, (rule s ts).Follows g p s ts

/-- On tokens that start with that kind, the rule reads the phrase. -/
def FollowsFrom (kind : Kind) (rule : Rule α) (s : Setting) (g : R → Phrase R) (p : Phrase R) :
    Prop :=
  ∀ ts, (front s ts).kind = kind → (rule s ts).Follows g p s ts

/-- A rule that follows its phrase does so where that kind is at hand. -/
theorem Follows.followsFrom {rule : Rule α} (h : Follows rule s g p) (kind : Kind) :
    FollowsFrom kind rule s g p :=
  fun ts _ => h ts

/-- A rule that follows a phrase follows every phrase with at least its ways to be written. -/
theorem Follows.mono {rule : Rule α} (h : Follows rule s g p)
    (hpq : ∀ ks, Derives g p ks → Derives g q ks) : Follows rule s g q :=
  fun ts => (h ts).mono hpq

theorem FollowsFrom.mono {rule : Rule α} {kind : Kind} (h : FollowsFrom kind rule s g p)
    (hpq : ∀ ks, Derives g p ks → Derives g q ks) : FollowsFrom kind rule s g q :=
  fun ts hk => (h ts hk).mono hpq

/-- Rules one after the other follow their phrases one after the other.  Where the first gives up
the second phrase is still to be written, so there has to be a way. -/
theorem Follows.bind [Productive g q] {first : Rule α} {next : α → Rule β}
    (h : Follows first s g p) (hnext : ∀ a, Follows (next a) s g q) :
    Follows (first >>= next) s g (.seq p q) :=
  fun ts => (h ts).bind fun a mid _ => hnext a mid

theorem FollowsFrom.bind [Productive g q] {first : Rule α} {next : α → Rule β} {kind : Kind}
    (h : FollowsFrom kind first s g p) (hnext : ∀ a, Follows (next a) s g q) :
    FollowsFrom kind (first >>= next) s g (.seq p q) :=
  fun ts hk => (h ts hk).bind fun a mid _ => hnext a mid

/-- Where nothing is read, nothing is written. -/
theorem follows_pure (a : α) : Follows (pure a) s g .nothing :=
  fun ts => .ends a [] ts rfl (by simp) .nothing

theorem Follows.andPure {rule : Rule α} {f : α → β} (h : Follows rule s g p) :
    Follows (rule >>= fun a => pure (f a)) s g p :=
  fun ts => (h ts).andPure

theorem FollowsFrom.andPure {rule : Rule α} {f : α → β} {kind : Kind}
    (h : FollowsFrom kind rule s g p) : FollowsFrom kind (rule >>= fun a => pure (f a)) s g p :=
  fun ts hk => (h ts hk).andPure

/-- The last phrase of a sequence. -/
theorem Follows.last {rule : Rule α} (h : Follows rule s g p) :
    Follows rule s g (.seq p .nothing) := by
  refine h.mono fun ks hks => ?_
  have hseq := Derives.seq hks .nothing
  rwa [List.append_nil] at hseq

/-! ## §3. Looking, taking and wanting. -/

/-- A choice by the kind at hand follows the phrase if each of its ways does, with that kind at
hand. -/
theorem follows_peek_bind {next : Kind → Rule α}
    (h : ∀ kind, FollowsFrom kind (next kind) s g p) : Follows (peek >>= next) s g p := by
  intro ts
  rw [bind_of_quiet (show peek s ts = ⟨some (front s ts).kind, ts, []⟩ from rfl)]
  exact h _ ts rfl

/-- A choice by whether one kind is at hand. -/
theorem follows_isAt_bind {kind : Kind} {next : Bool → Rule α}
    (h : ∀ b, Follows (next b) s g p) : Follows (isAt kind >>= next) s g p := by
  intro ts
  rw [bind_of_quiet (show isAt kind s ts = ⟨some ((front s ts).kind == kind), ts, []⟩ from rfl)]
  exact h _ ts

/-- A choice by whether one of several kinds is at hand. -/
theorem follows_isAtAny_bind {kinds : List Kind} {next : Bool → Rule α}
    (h : ∀ b, Follows (next b) s g p) : Follows (isAtAny kinds >>= next) s g p := by
  intro ts
  rw [bind_of_quiet (isAtAny_eq kinds s ts)]
  exact h _ ts

theorem follows_setting_bind {next : Setting → Rule α} (h : Follows (next s) s g p) :
    Follows (setting >>= next) s g p := by
  intro ts
  rw [bind_of_quiet (show setting s ts = ⟨some s, ts, []⟩ from rfl)]
  exact h ts

/-- Every kind that is wanted at the start of a phrase can start it. -/
theorem follows_noViable {kinds : List Kind} (hne : kinds ≠ [])
    (h : ∀ e ∈ kinds, Starts g p [e]) : Follows (noViable kinds : Rule α) s g p := by
  intro ts
  have hstarts : Starts g p [] := by
    obtain ⟨e, kinds, rfl⟩ := List.exists_cons_of_ne_nil hne
    obtain ⟨more, hmore⟩ := h e List.mem_cons_self
    exact ⟨e :: more, hmore⟩
  exact .stops [] ts _ kinds rfl (by simp) (.mismatch kinds hne) hstarts h

/-- Where the input should end, nothing more can be written, and nothing is wanted. -/
theorem follows_finish : Follows finish s g .nothing := by
  intro ts
  unfold finish
  rw [bind_of_quiet (show isAt .eof s ts = ⟨some ((front s ts).kind == .eof), ts, []⟩ from rfl)]
  by_cases h : (front s ts).kind = .eof
  · simp only [h]
    exact follows_pure () ts
  · simp only [beq_eq_false_iff_ne.mpr h]
    exact .stops [] ts _ [] rfl (by simp) .leftover Derives.nothing.starts (by simp)

section Words

variable (hs : s.stop.kind = .eof)

include hs

/-- A token that a phrase starts with is taken. -/
theorem followsFrom_advance {kind : Kind} {kinds : List Kind} (hmem : kind ∈ kinds)
    (heof : kind ≠ .eof) (hliteral : kind ≠ .integerLiteral) :
    FollowsFrom kind advance s g (.word kinds) := by
  intro ts hk
  obtain ⟨t, tail, rfl, ht⟩ := exists_cons_of_front_kind hs heof hk
  refine .ends t [t] tail rfl ?_ (.word (show t.kind ∈ kinds from ht ▸ hmem))
  simpa using Token.literalFits_of_kind ht hliteral

/-- A literal is taken, or it cannot be held. -/
theorem followsFrom_literal :
    FollowsFrom .integerLiteral literal s g (.token .integerLiteral) := by
  intro ts hk
  obtain ⟨t, tail, rfl, ht⟩ := exists_cons_of_front_kind hs (by decide) hk
  unfold literal
  rw [bind_of_quiet (show advance s (t :: tail) = ⟨some t, tail, []⟩ from rfl)]
  cases hvalue : literalValue? t.image with
  | some value =>
    have hfits : t.LiteralFits := Token.literalFits_of_value (literalValue?_eq_some_iff.mp hvalue)
    exact .ends _ [t] tail rfl (by simpa using hfits) (.word (by simp [ht]))
  | none =>
    refine .tooLarge [] t tail rfl (by simp) ?_ (Derives.starts (.word (by simp [ht])))
    intro hfits
    obtain ⟨value, hstands⟩ := holdable_iff.mp (hfits ht)
    have hsome := literalValue?_eq_some_iff.mpr hstands
    rw [hvalue] at hsome
    exact absurd hsome (by simp)

/-- A token that may be there or not.  The literal is left out, as its value may be too large. -/
theorem follows_eat {kind : Kind} (heof : kind ≠ .eof) (hliteral : kind ≠ .integerLiteral) :
    Follows (eat kind) s g (.opt (.token kind)) := by
  intro ts
  unfold eat
  split
  · next h =>
    obtain ⟨t, tail, rfl, ht⟩ := exists_cons_of_front_kind hs heof h
    refine .ends _ [t] tail rfl ?_ (.optSome (.word (by simp [ht])))
    simpa using Token.literalFits_of_kind ht hliteral
  · exact .ends none [] ts rfl (by simp) .optNone

/-- What comes behind an operator if there is one, and what comes if there is
none. -/
theorem follows_eat_bind {kind : Kind} {next : Option Token → Rule α} (heof : kind ≠ .eof)
    (hliteral : kind ≠ .integerLiteral) (hsome : ∀ t, Follows (next (some t)) s g p)
    (hnone : Follows (next none) s g q) :
    Follows (eat kind >>= next) s g (.alt (.seq (.token kind) p) q) := by
  intro ts
  by_cases h : (front s ts).kind = kind
  · obtain ⟨t, tail, rfl, ht⟩ := exists_cons_of_front_kind hs heof h
    have heat : eat kind s (t :: tail) = ⟨some (some t), tail, []⟩ := if_pos h
    rw [bind_of_quiet heat]
    have hfits : ∀ u ∈ [t], u.LiteralFits := by
      simpa using Token.literalFits_of_kind ht hliteral
    have hword : Derives g (.token kind) ([t].map (·.kind)) := .word (by simp [ht])
    have hts : t :: tail = [t] ++ tail := rfl
    exact ((hsome t tail).prepend hts hfits hword).mono fun _ => .altLeft
  · have heat : eat kind s ts = ⟨some none, ts, []⟩ := if_neg h
    rw [bind_of_quiet heat]
    exact (hnone ts).mono fun _ => .altRight

/-- What comes behind an operator, if there is one. -/
theorem follows_eat_opt {kind : Kind} {next : Option Token → Rule α} (heof : kind ≠ .eof)
    (hliteral : kind ≠ .integerLiteral) (hsome : ∀ t, Follows (next (some t)) s g p)
    (hnone : Follows (next none) s g .nothing) :
    Follows (eat kind >>= next) s g (.opt (.seq (.token kind) p)) := by
  refine (follows_eat_bind hs heof hliteral hsome hnone).mono fun ks hks => ?_
  cases hks with
  | altLeft hks => exact .optSome hks
  | altRight hks =>
    cases hks
    exact .optNone

/-- A wanted token is there, or it is what is wanted instead of the token at hand. -/
theorem follows_expect (hr : s.recovery = false) {kind : Kind} (heof : kind ≠ .eof)
    (hliteral : kind ≠ .integerLiteral) : Follows (expect kind) s g (.token kind) := by
  intro ts
  rw [expect_strict hr]
  split
  · next h =>
    obtain ⟨t, tail, rfl, ht⟩ := exists_cons_of_front_kind hs heof h
    refine .ends t [t] tail rfl ?_ (.word (by simp [ht]))
    simpa using Token.literalFits_of_kind ht hliteral
  · have hstarts : Starts g (.token kind) [kind] := (Derives.token kind).starts
    refine .stops [] ts _ [kind] rfl (by simp) (.mismatch [kind] (by simp)) ⟨[kind], .token kind⟩ ?_
    simpa using hstarts

end Words

/-! ## §4. Repetition and nesting. -/

/-- Items in a row.  Where one of them gives up, those before it are whole, and what it wanted may
come next. -/
theorem Follows.many {starts : List Kind} {item : Rule α} (h : Follows item s g p) :
    Follows (many starts item) s g (.star p) := by
  have hbound : ∀ bound, Follows (manyUpTo starts item bound) s g (.star p) := by
    intro bound
    induction bound with
    | zero =>
      refine (follows_pure []).mono fun ks hks => ?_
      cases hks
      exact .starNil
    | succ bound ih =>
      refine follows_isAtAny_bind fun b => ?_
      cases b with
      | true =>
        refine (h.bind fun a => ih.andPure).mono fun ks hks => ?_
        cases hks with
        | seq hitem hmore => exact .starCons hitem hmore
      | false =>
        refine (follows_pure []).mono fun ks hks => ?_
        cases hks
        exact .starNil
  exact fun ts => hbound ts.length ts

/-- Further items, each behind its operator, follow the repetition of both, by induction on the
turns of the loop. -/
theorem Follows.chain [Productive g p] {operator : Kind} {item : Rule β}
    {join : α → Token → β → α} (h : Follows item s g p) (hs : s.stop.kind = .eof)
    (heof : operator ≠ .eof) (hliteral : operator ≠ .integerLiteral) (a : α) :
    Follows (chain operator item join a) s g (.star (.inOrder [.token operator, p])) := by
  have hbound : ∀ bound a, Follows (chainUpTo operator item join bound a) s g
      (.star (.inOrder [.token operator, p])) := by
    intro bound
    induction bound with
    | zero =>
      intro a
      refine (follows_pure a).mono fun ks hks => ?_
      cases hks
      exact .starNil
    | succ bound ih =>
      intro a
      refine (follows_eat_bind hs heof hliteral (fun t => h.bind fun b => ih (join a t b))
        (follows_pure a)).mono fun ks hks => ?_
      cases hks with
      | altLeft hks =>
        cases hks with
        | seq hop hks =>
          cases hks with
          | seq hitem hmore =>
            -- an operator, an item and the further rounds are one more round
            have hstep : Derives g (.star (.inOrder [.token operator, p])) _ :=
              .starCons (.seq hop (.seq hitem .nothing)) hmore
            simpa using hstep
      | altRight hks =>
        cases hks
        exact .starNil
  exact fun ts => hbound ts.length a ts

/-- A rule nested in itself follows its phrase if each layer does.  Where the bound is used up the
rule wants the kinds that start the phrase. -/
theorem Follows.nested {step : Rule α → Rule α} {starts : List Kind} (hne : starts ≠ [])
    (hstarts : ∀ e ∈ starts, Starts g p [e])
    (h : ∀ inner, Follows inner s g p → Follows (step inner) s g p) :
    Follows (nested step starts) s g p :=
  fun ts => nestedUpTo_induction (P := (Follows · s g p)) (follows_noViable hne hstarts) h
    (ts.length + 1) ts

end Rule
end RobotLang
