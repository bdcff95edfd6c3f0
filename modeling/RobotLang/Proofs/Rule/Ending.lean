/-
  RobotLang.Proofs.Rule.Ending
  ────────────────────────────
  **HOW A RULE ENDS WITH A NODE, PIECE BY PIECE.**

  `Ends rule s ts a rest cs` says that, on the tokens `ts`, the rule ends with
  the node `a`, leaves `rest` and complains `cs`.  A sequence of rules ends
  exactly as its parts do, one after the other:

      Ends (first >>= next) s ts b rest cs
        ↔  ∃ a mid cs₁ cs₂, Ends first s ts a mid cs₁
             ∧ Ends (next a) s mid b rest cs₂ ∧ cs = cs₁ ++ cs₂

  With one such equivalence for every primitive, a rule of a grammar is taken
  apart by rewriting, and put together again the same way.
-/
import RobotLang.Rule.Expression

namespace RobotLang.Rule

variable {α β : Type} {s : Setting} {ts rest : List Token} {cs : List Diagnostic}

/-- The rule ends with `a`, leaving `rest`, and complains `cs`. -/
def Ends (rule : Rule α) (s : Setting) (ts : List Token) (a : α) (rest : List Token)
    (cs : List Diagnostic) : Prop :=
  rule s ts = ⟨some a, rest, cs⟩

/-- What a rule ends with is determined by what it reads. -/
theorem Ends.unique {rule : Rule α} {a a' : α} {rest' : List Token} {cs' : List Diagnostic}
    (h : Ends rule s ts a rest cs) (h' : Ends rule s ts a' rest' cs') :
    a = a' ∧ rest = rest' ∧ cs = cs' := by
  unfold Ends at h h'
  rw [h] at h'
  simpa using h'

/-- A rule that made a node ended with it, and with whatever it left and complained about. -/
theorem ends_of_result {rule : Rule α} {a : α} (h : (rule s ts).result = some a) :
    Ends rule s ts a (rule s ts).rest (rule s ts).complaints := by
  rw [Ends, ← h]

/-- Whatever the tokens are, what stands behind them is an end of input. -/
theorem endToken_kind (tokens : List Token) : (endToken tokens).kind = .eof := by
  unfold endToken
  split
  · next stop h => simpa using List.find?_some h
  · split <;> rfl

/-- Tokens that end with their only end of input stand before it. -/
theorem beforeEnd_append_stop {body : List Token} {stop : Token} (hstop : stop.kind = .eof)
    (hbody : ∀ t ∈ body, t.kind ≠ .eof) : beforeEnd (body ++ [stop]) = body := by
  unfold beforeEnd
  rw [List.takeWhile_append_of_pos (by simpa using hbody)]
  simp [hstop]

/-- The end of input that they end with is the one the rules see. -/
theorem endToken_append_stop {body : List Token} {stop : Token} (hstop : stop.kind = .eof)
    (hbody : ∀ t ∈ body, t.kind ≠ .eof) : endToken (body ++ [stop]) = stop := by
  have hnone : body.find? (fun t => t.kind == .eof) = none := by simpa using hbody
  simp [endToken, List.find?_append, hnone, hstop]

/-! ## §1. Sequences. -/

@[simp] theorem ends_pure {a b : α} :
    Ends (pure a) s ts b rest cs ↔ b = a ∧ rest = ts ∧ cs = [] := by
  show (⟨some a, ts, []⟩ : Outcome α) = ⟨some b, rest, cs⟩ ↔ _
  simp only [Outcome.mk.injEq, Option.some.injEq]
  constructor
  · rintro ⟨rfl, rfl, rfl⟩; exact ⟨rfl, rfl, rfl⟩
  · rintro ⟨rfl, rfl, rfl⟩; exact ⟨rfl, rfl, rfl⟩

/-- A sequence ends as its parts do, one after the other, and complains as they do. -/
theorem ends_bind {first : Rule α} {next : α → Rule β} {b : β} :
    Ends (first >>= next) s ts b rest cs
      ↔ ∃ a mid cs₁ cs₂, Ends first s ts a mid cs₁ ∧ Ends (next a) s mid b rest cs₂
          ∧ cs = cs₁ ++ cs₂ := by
  show andThen first next s ts = _ ↔ _
  unfold andThen Ends
  generalize first s ts = o
  obtain ⟨result, mid, cs₁⟩ := o
  cases result with
  | none => simp
  | some a =>
    simp only [Outcome.mk.injEq, Option.some.injEq]
    constructor
    · rintro ⟨hr, hrest, hcs⟩
      refine ⟨a, mid, cs₁, (next a s mid).complaints, ⟨rfl, rfl, rfl⟩, ?_, hcs.symm⟩
      rw [← hr, ← hrest]
    · rintro ⟨_, _, _, cs₂, ⟨rfl, rfl, rfl⟩, h, rfl⟩
      simp [h]

/-- After a rule that only looks or takes, the sequence ends as its rest does. -/
theorem ends_bind_of_ends {first : Rule α} {next : α → Rule β} {a : α} {mid : List Token} {b : β}
    (h : Ends first s ts a mid []) :
    Ends (first >>= next) s ts b rest cs ↔ Ends (next a) s mid b rest cs := by
  rw [ends_bind]
  constructor
  · rintro ⟨a', mid', cs₁, cs₂, h', hn, rfl⟩
    obtain ⟨rfl, rfl, rfl⟩ := h.unique h'
    simpa using hn
  · intro hn
    exact ⟨a, mid, [], cs, h, hn, rfl⟩

/-- Putting a node together takes nothing and complains about nothing. -/
@[simp] theorem ends_map {f : α → β} {rule : Rule α} {b : β} :
    Ends (f <$> rule) s ts b rest cs ↔ ∃ a, Ends rule s ts a rest cs ∧ b = f a := by
  show Ends (rule >>= fun a => pure (f a)) s ts b rest cs ↔ _
  rw [ends_bind]
  constructor
  · rintro ⟨a, mid, cs₁, cs₂, h, hp, rfl⟩
    obtain ⟨rfl, rfl, rfl⟩ := ends_pure.mp hp
    exact ⟨a, by simpa using h, rfl⟩
  · rintro ⟨a, h, rfl⟩
    exact ⟨a, rest, cs, [], h, ends_pure.mpr ⟨rfl, rfl, rfl⟩, by simp⟩

/-- A choice ends as the branch that is taken. -/
@[simp] theorem ends_ite {p : Prop} [Decidable p] {yes no : Rule α} {a : α} :
    Ends (if p then yes else no) s ts a rest cs
      ↔ (p ∧ Ends yes s ts a rest cs) ∨ (¬p ∧ Ends no s ts a rest cs) := by
  by_cases h : p <;> simp [h]

/-! ## §2. Looking and taking. -/

/-- A rule that gives up never ends with a node. -/
@[simp] theorem ends_giveUp {a : α} : ¬Ends giveUp s ts a rest cs := by
  simp [Ends, giveUp]

@[simp] theorem ends_setting_bind {next : Setting → Rule β} {b : β} :
    Ends (setting >>= next) s ts b rest cs ↔ Ends (next s) s ts b rest cs :=
  ends_bind_of_ends rfl

@[simp] theorem ends_current_bind {next : Token → Rule β} {b : β} :
    Ends (current >>= next) s ts b rest cs ↔ Ends (next (front s ts)) s ts b rest cs :=
  ends_bind_of_ends rfl

/-- Looking takes nothing: the rest of the sequence starts at the same token. -/
@[simp] theorem ends_peek_bind {next : Kind → Rule β} {b : β} :
    Ends (peek >>= next) s ts b rest cs ↔ Ends (next (front s ts).kind) s ts b rest cs :=
  ends_bind_of_ends rfl

/-- A rule that looks at the kind at hand goes the way of that kind. -/
theorem ends_peek_of_front {kind : Kind} {next : Kind → Rule β} {b : β}
    (h : (front s ts).kind = kind) (he : Ends (next kind) s ts b rest cs) :
    Ends (peek >>= next) s ts b rest cs := by
  rw [ends_peek_bind, h]
  exact he

/-- The token at hand is taken, whatever it is; at the end of input none is. -/
@[simp] theorem ends_advance_bind {next : Token → Rule β} {b : β} :
    Ends (advance >>= next) s ts b rest cs ↔ Ends (next (front s ts)) s ts.tail b rest cs :=
  ends_bind_of_ends rfl

@[simp] theorem ends_isAt_bind {kind : Kind} {next : Bool → Rule β} {b : β} :
    Ends (isAt kind >>= next) s ts b rest cs
      ↔ Ends (next ((front s ts).kind == kind)) s ts b rest cs :=
  ends_bind_of_ends rfl

/-- Asking for one of several kinds takes nothing. -/
@[simp] theorem ends_isAtAny_bind {kinds : List Kind} {next : Bool → Rule β} {b : β} :
    Ends (isAtAny kinds >>= next) s ts b rest cs
      ↔ Ends (next (kinds.contains (front s ts).kind)) s ts b rest cs :=
  ends_bind_of_ends rfl

/-- What was eaten is at hand, or nothing was. -/
@[simp] theorem ends_eat_bind {kind : Kind} {next : Option Token → Rule β} {b : β} :
    Ends (eat kind >>= next) s ts b rest cs
      ↔ if (front s ts).kind = kind then Ends (next (some (front s ts))) s ts.tail b rest cs
        else Ends (next none) s ts b rest cs := by
  split
  · next h => exact ends_bind_of_ends (by simp [Ends, eat, h])
  · next h => exact ends_bind_of_ends (by simp [Ends, eat, h])

/-- A complaint about the token at hand comes before those of the rest of the sequence. -/
@[simp] theorem ends_mismatch_bind {kinds : List Kind} {next : Unit → Rule β} {b : β} :
    Ends (mismatch kinds >>= next) s ts b rest cs
      ↔ ∃ cs', Ends (next ()) s ts b rest cs'
          ∧ cs = .mismatch (front s ts) (kinds.map s.label) :: cs' := by
  have hm : Ends (mismatch kinds) s ts () ts [.mismatch (front s ts) (kinds.map s.label)] := rfl
  rw [ends_bind]
  constructor
  · rintro ⟨_, mid, cs₁, cs₂, h, hn, rfl⟩
    obtain ⟨_, rfl, rfl⟩ := hm.unique h
    exact ⟨cs₂, hn, rfl⟩
  · rintro ⟨cs', hn, rfl⟩
    exact ⟨(), ts, _, cs', hm, hn, rfl⟩

/-- Who complains that nothing can stand here gives up. -/
@[simp] theorem ends_noViable {kinds : List Kind} {a : α} :
    ¬Ends (noViable kinds) s ts a rest cs := by
  simp [noViable]

@[simp] theorem ends_complain_giveUp {d : Diagnostic} {a : α} :
    ¬Ends (complain d >>= fun _ => giveUp) s ts a rest cs := by
  rw [ends_bind]
  rintro ⟨_, _, _, _, _, h, _⟩
  exact ends_giveUp h

/-- Only the end of input lets a program end, and it is not taken. -/
@[simp] theorem ends_finish {u : Unit} :
    Ends finish s ts u rest cs ↔ (front s ts).kind = .eof ∧ rest = ts ∧ cs = [] := by
  unfold finish
  rw [ends_isAt_bind]
  by_cases h : (front s ts).kind = .eof <;> simp [h]

/-! ## §3. Wanted tokens. -/

/-- Only the end of input stands behind the last token. -/
theorem exists_cons_of_front_kind {kind : Kind} (hs : s.stop.kind = .eof) (hk : kind ≠ .eof)
    (h : (front s ts).kind = kind) : ∃ t tail, ts = t :: tail ∧ t.kind = kind := by
  cases ts with
  | nil => exact absurd (h.symm.trans hs) hk
  | cons t tail => exact ⟨t, tail, rfl, h⟩

@[simp] theorem front_cons (t : Token) (tail : List Token) : front s (t :: tail) = t := rfl

@[simp] theorem front_nil : front s [] = s.stop := rfl

/-- Where the input seems to end it does, unless a token says so. -/
theorem eq_nil_of_front_eof (hts : ∀ t ∈ ts, t.kind ≠ .eof) (hrest : rest <:+ ts)
    (h : (front s rest).kind = .eof) : rest = [] := by
  cases rest with
  | nil => rfl
  | cons t rest => exact absurd h (hts t (hrest.subset List.mem_cons_self))

/-- The wanted token comes right after a stray one.  It is not the end of input, so it is one of the
list. -/
theorem ends_dropBefore {kind : Kind} {t : Token} (hs : s.stop.kind = .eof) (hk : kind ≠ .eof) :
    Ends (dropBefore kind) s ts t rest cs
      ↔ ∃ stray, ts = stray :: t :: rest ∧ s.recovery = true ∧ t.kind = kind ∧ cs = [] := by
  unfold Ends dropBefore
  cases ts with
  | nil => simp
  | cons stray tail =>
    simp only [List.cons.injEq]
    split
    · next h =>
      simp only [Bool.and_eq_true, beq_iff_eq] at h
      obtain ⟨t', tail', rfl, ht'⟩ := exists_cons_of_front_kind hs hk h.2
      simp only [front_cons, List.tail_cons, List.cons.injEq, Outcome.mk.injEq,
        Option.some.injEq]
      constructor
      · rintro ⟨rfl, rfl, rfl⟩
        exact ⟨stray, ⟨rfl, rfl, rfl⟩, h.1, ht', rfl⟩
      · rintro ⟨_, ⟨_, rfl, rfl⟩, _, _, rfl⟩
        exact ⟨rfl, rfl, rfl⟩
    · next h =>
      simp only [Outcome.mk.injEq, reduceCtorEq, false_and, false_iff]
      rintro ⟨_, ⟨_, rfl⟩, hr, ht, _⟩
      simp [hr, ht] at h

/-- A wanted token is at hand, or right behind a stray one that is dropped.  In the second case
there is a complaint about the stray one, and repairs have to be asked for. -/
theorem ends_expect {kind : Kind} {t : Token} (hs : s.stop.kind = .eof) (hk : kind ≠ .eof) :
    Ends (expect kind) s ts t rest cs
      ↔ (ts = t :: rest ∧ t.kind = kind ∧ cs = [])
        ∨ ∃ stray, ts = stray :: t :: rest ∧ stray.kind ≠ kind ∧ t.kind = kind
            ∧ s.recovery = true ∧ cs = [.mismatch stray [s.label kind]] := by
  unfold expect
  rw [ends_eat_bind]
  split
  · next h =>
    obtain ⟨t', tail, rfl, ht'⟩ := exists_cons_of_front_kind hs hk h
    simp only [ends_pure, front_cons, List.tail_cons, List.cons.injEq]
    constructor
    · rintro ⟨rfl, rfl, rfl⟩
      exact .inl ⟨⟨rfl, rfl⟩, ht', rfl⟩
    · rintro (⟨⟨rfl, rfl⟩, _, rfl⟩ | ⟨stray, ⟨rfl, rfl⟩, hne, _⟩)
      · exact ⟨rfl, rfl, rfl⟩
      · exact absurd ht' hne
  · next h =>
    simp only [ends_mismatch_bind, ends_dropBefore hs hk, List.map_cons, List.map_nil]
    constructor
    · rintro ⟨_, ⟨stray, rfl, hr, ht, rfl⟩, rfl⟩
      exact .inr ⟨stray, rfl, h, ht, hr, rfl⟩
    · rintro (⟨rfl, ht, _⟩ | ⟨stray, rfl, _, ht, hr, rfl⟩)
      · exact absurd ht h
      · exact ⟨[], ⟨stray, rfl, hr, ht, rfl⟩, rfl⟩

/-- A wanted token at hand is taken without a complaint. -/
theorem ends_expect_of_kind {kind : Kind} {t : Token} (h : t.kind = kind) :
    Ends (expect kind) s (t :: ts) t ts [] := by
  simp [expect, h]

/-- A wanted token that is at hand is taken. -/
theorem ends_expect_bind_of_kind {kind : Kind} {t : Token} {next : Token → Rule β} {b : β}
    (h : t.kind = kind) :
    Ends (expect kind >>= next) s (t :: ts) b rest cs ↔ Ends (next t) s ts b rest cs :=
  ends_bind_of_ends (ends_expect_of_kind h)

/-- A token that may be eaten is taken when it is at hand. -/
theorem ends_eat_bind_of_kind {kind : Kind} {t : Token} {next : Option Token → Rule β} {b : β}
    (h : t.kind = kind) :
    Ends (eat kind >>= next) s (t :: ts) b rest cs ↔ Ends (next (some t)) s ts b rest cs := by
  rw [ends_eat_bind, front_cons, if_pos h, List.tail_cons]

/-- A token of another kind is left for what follows. -/
theorem ends_eat_bind_of_ne {kind : Kind} {next : Option Token → Rule β} {b : β}
    (h : (front s ts).kind ≠ kind) :
    Ends (eat kind >>= next) s ts b rest cs ↔ Ends (next none) s ts b rest cs := by
  rw [ends_eat_bind, if_neg h]

/-- A `;` is at hand, or one is put in, or one stands right behind a stray
token that is dropped. -/
theorem ends_expectTerminator {follow : List Kind} {t : Token} (hs : s.stop.kind = .eof) :
    Ends (expectTerminator follow) s ts t rest cs
      ↔ (ts = t :: rest ∧ t.kind = .semicolon ∧ cs = [])
        ∨ (s.recovery = true ∧ (front s ts).kind ∈ follow ∧ (front s ts).kind ≠ .semicolon
            ∧ t = (front s ts).insertedBefore .semicolon (s.label .semicolon)
            ∧ rest = ts ∧ cs = [.mismatch (front s ts) [s.label .semicolon]])
        ∨ ∃ stray, ts = stray :: t :: rest ∧ stray.kind ≠ .semicolon ∧ stray.kind ∉ follow
            ∧ t.kind = .semicolon ∧ s.recovery = true
            ∧ cs = [.mismatch stray [s.label .semicolon]] := by
  have hk : Kind.semicolon ≠ .eof := by decide
  unfold expectTerminator
  rw [ends_eat_bind]
  split
  · next h =>
    -- at hand: both repairs ask for another token in front
    obtain ⟨t', tail, rfl, ht'⟩ := exists_cons_of_front_kind hs hk h
    simp only [ends_pure, front_cons, List.tail_cons, List.cons.injEq]
    constructor
    · rintro ⟨rfl, rfl, rfl⟩
      exact .inl ⟨⟨rfl, rfl⟩, ht', rfl⟩
    · rintro (⟨⟨rfl, rfl⟩, _, rfl⟩ | ⟨_, _, hne, _⟩ | ⟨stray, ⟨rfl, rfl⟩, hne, _⟩)
      · exact ⟨rfl, rfl, rfl⟩
      · exact absurd ht' hne
      · exact absurd ht' hne
  · next h =>
    simp only [ends_mismatch_bind, ends_setting_bind, ends_isAtAny_bind, List.map_cons,
      List.map_nil]
    by_cases hf : s.recovery = true ∧ (front s ts).kind ∈ follow
    -- put in: a token of `follow` is never taken for a stray one
    · simp only [hf.1, hf.2, List.contains_eq_mem, decide_true, Bool.and_self, if_true,
        ends_current_bind, ends_pure]
      constructor
      · rintro ⟨_, ⟨rfl, rfl, rfl⟩, rfl⟩
        exact .inr (.inl ⟨trivial, trivial, h, rfl, rfl, rfl⟩)
      · rintro (⟨rfl, ht, _⟩ | ⟨_, _, _, rfl, rfl, rfl⟩ | ⟨stray, rfl, _, hnf, _⟩)
        · exact absurd ht h
        · exact ⟨[], ⟨rfl, rfl, rfl⟩, rfl⟩
        · exact absurd hf.2 hnf
    -- neither, so that only dropping a token can help
    · have hb : ¬(s.recovery && follow.contains (front s ts).kind) = true := by simpa using hf
      simp only [hb, if_false, Bool.false_eq_true, ends_dropBefore hs hk]
      constructor
      · rintro ⟨_, ⟨stray, rfl, hr, ht, rfl⟩, rfl⟩
        exact .inr (.inr ⟨stray, rfl, h, fun hmem => hf ⟨hr, hmem⟩, ht, hr, rfl⟩)
      · rintro (⟨rfl, ht, _⟩ | ⟨hr, hmem, _⟩ | ⟨stray, rfl, _, _, ht, hr, rfl⟩)
        · exact absurd ht h
        · exact absurd ⟨hr, hmem⟩ hf
        · exact ⟨[], ⟨stray, rfl, hr, ht, rfl⟩, rfl⟩

end RobotLang.Rule
