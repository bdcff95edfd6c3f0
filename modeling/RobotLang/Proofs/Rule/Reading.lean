/-
  RobotLang.Proofs.Rule.Reading
  ─────────────────────────────
  **HOW TOKENS BECOME A TREE, AND WHAT EACH REPAIR LEAVES BEHIND.**

  `Reads s ts tree ds rest` is the trace of a rule that turned the front of
  `ts` into the tokens `tree`, left `rest` and complained `ds`.  There are four
  kinds of step, and each repair comes with exactly its own complaint:

      take   the token at hand becomes the next token of the tree
      put    a `;` is put in before the token at hand
      drop   a stray token goes, and the wanted one behind it is taken
      skip   a run of tokens goes, and the one behind it is taken

  Traces are put together like the rules that leave them (`Reads.trans`), and
  without recovery a trace only takes (`Reads.strict`).  `Makes` is the promise
  that a rule leaves a trace of the tokens of its node; it passes through the
  combinators, so each grammar proves it rule by rule.
-/
import RobotLang.Proofs.Rule.Ending

namespace RobotLang.Rule

/-! ## §1. Traces. -/

/-- The front of the tokens became `tree` with the complaints `ds`. -/
inductive Reads (s : Setting) :
    List Token → List Token → List Diagnostic → List Token → Prop where
  | done (ts : List Token) : Reads s ts [] [] ts
  | take (t : Token) {ts tree : List Token} {ds : List Diagnostic} {rest : List Token} :
      Reads s ts tree ds rest → Reads s (t :: ts) (t :: tree) ds rest
  /-- A `;` that was missing. -/
  | put {ts tree : List Token} {ds : List Diagnostic} {rest : List Token} :
      s.recovery = true → (front s ts).kind ≠ .semicolon → Reads s ts tree ds rest →
      Reads s ts ((front s ts).insertedBefore .semicolon (s.label .semicolon) :: tree)
        (.mismatch (front s ts) [s.label .semicolon] :: ds) rest
  /-- A stray token in front of the wanted one. -/
  | drop (stray t : Token) {ts tree : List Token} {ds : List Diagnostic} {rest : List Token} :
      s.recovery = true → stray.kind ≠ t.kind → Reads s ts tree ds rest →
      Reads s (stray :: t :: ts) (t :: tree) (.mismatch stray [s.label t.kind] :: ds) rest
  /-- Garbage in a list that ends with `closer`. -/
  | skip (stray : Token) (run : List Token) (t : Token) (closer : Kind)
      {ts tree : List Token} {ds : List Diagnostic} {rest : List Token} :
      s.recovery = true → closer ≠ .semicolon → Reads s ts tree ds rest →
      Reads s (stray :: run ++ t :: ts) (t :: tree) (.mismatch stray [s.label closer] :: ds) rest

namespace Reads

variable {s : Setting} {ts mid rest tree tree' : List Token} {ds ds' : List Diagnostic}

/-- What one rule left is where the next one reads on. -/
theorem trans (h : Reads s ts tree ds mid) (h' : Reads s mid tree' ds' rest) :
    Reads s ts (tree ++ tree') (ds ++ ds') rest := by
  induction h with
  | done ts => exact h'
  | take t _ ih => exact .take t (ih h')
  | put hr hk _ ih => exact .put hr hk (ih h')
  | drop stray t hr hk _ ih => exact .drop stray t hr hk (ih h')
  | skip stray run t closer hr hc _ ih => exact .skip stray run t closer hr hc (ih h')

theorem one (t : Token) (rest : List Token) : Reads s (t :: rest) [t] [] rest :=
  .take t (.done rest)

/-- Without recovery every token is taken and nothing is complained about. -/
theorem strict (hs : s.recovery = false) (h : Reads s ts tree ds rest) :
    ts = tree ++ rest ∧ ds = [] := by
  induction h with
  | done ts => exact ⟨rfl, rfl⟩
  | take t _ ih => exact ⟨by rw [ih.1]; rfl, ih.2⟩
  | put hr | drop _ _ hr | skip _ _ _ _ hr => simp [hs] at hr

/-- Reading never goes back. -/
theorem suffix (h : Reads s ts tree ds rest) : rest <:+ ts := by
  induction h with
  | done ts => exact List.suffix_rfl
  | take t _ ih => exact ih.trans (List.suffix_cons t _)
  | put _ _ _ ih => exact ih
  | drop stray t _ _ _ ih => exact ih.trans (List.suffix_append [stray, t] _)
  | skip stray run t closer _ _ _ ih =>
    exact ih.trans ((List.suffix_cons t _).trans (List.suffix_append (stray :: run) _))

/-- A token of the tree was among those read, or is a `;` put in before one.  By induction on the
reading, event by event. -/
theorem mem_or_put {t : Token} (h : Reads s ts tree ds rest) (ht : t ∈ tree) :
    t ∈ ts ∨ ∃ u : Token, t = u.insertedBefore .semicolon (s.label .semicolon) := by
  induction h with
  | done ts => simp at ht
  | take t' _ ih =>
    rcases List.mem_cons.mp ht with rfl | ht
    · exact .inl (by simp)
    · exact (ih ht).imp_left fun h => by simp [h]
  | put _ _ _ ih =>
    rcases List.mem_cons.mp ht with rfl | ht
    · exact .inr ⟨_, rfl⟩
    · exact ih ht
  | drop stray t' _ _ _ ih =>
    rcases List.mem_cons.mp ht with rfl | ht
    · exact .inl (by simp)
    · exact (ih ht).imp_left fun h => by simp [h]
  | skip stray run t' closer _ _ _ ih =>
    rcases List.mem_cons.mp ht with rfl | ht
    · exact .inl (by simp)
    · exact (ih ht).imp_left fun h => by simp [h]

/-- A token of the tree was among those read, unless it was put in. -/
theorem mem_or_inserted {t : Token} (h : Reads s ts tree ds rest) (ht : t ∈ tree) :
    t ∈ ts ∨ (t.kind = .semicolon ∧ t.inserted = true) := by
  refine (h.mem_or_put ht).imp_right fun hput => ?_
  obtain ⟨u, rfl⟩ := hput
  exact ⟨rfl, rfl⟩

end Reads

/-! ## §2. Rules that leave a trace of their node. -/

variable {α β : Type} {s : Setting}

/-- What the rule makes is `good`, and its tokens are what was read. -/
def Makes (rule : Rule α) (s : Setting) (good : α → Prop) (tokens : α → List Token) : Prop :=
  ∀ ⦃ts a rest cs⦄, Ends rule s ts a rest cs → good a ∧ Reads s ts (tokens a) cs rest

/-- What the rule makes is `good`, and starts with the token at hand. -/
def Opens (rule : Rule α) (s : Setting) (good : α → Prop) (tokens : α → List Token) : Prop :=
  ∀ ⦃ts a rest cs⦄, Ends rule s ts a rest cs →
    good a ∧ ∃ t tail more, ts = t :: tail ∧ tokens a = t :: more ∧ Reads s tail more cs rest

theorem Opens.makes {rule : Rule α} {good : α → Prop} {tokens : α → List Token}
    (h : Opens rule s good tokens) : Makes rule s good tokens := by
  intro ts a rest cs he
  obtain ⟨hg, t, tail, more, rfl, ht, hr⟩ := h he
  exact ⟨hg, ht ▸ .take t hr⟩

theorem makes_expect {kind : Kind} (hs : s.stop.kind = .eof) (hk : kind ≠ .eof) :
    Makes (expect kind) s (·.kind = kind) (fun t => [t]) := by
  intro ts t rest cs h
  rcases (ends_expect hs hk).mp h with ⟨rfl, ht, rfl⟩ | ⟨stray, rfl, hne, rfl, hr, rfl⟩
  · exact ⟨ht, .one t rest⟩
  · exact ⟨rfl, .drop stray t hr hne (.done rest)⟩

theorem makes_expectTerminator {follow : List Kind} (hs : s.stop.kind = .eof) :
    Makes (expectTerminator follow) s (·.kind = .semicolon) (fun t => [t]) := by
  intro ts t rest cs h
  rcases (ends_expectTerminator hs).mp h with
    ⟨rfl, ht, rfl⟩ | ⟨hr, _, hne, rfl, rfl, rfl⟩ | ⟨stray, rfl, hne, _, ht, hr, rfl⟩
  · exact ⟨ht, .one t rest⟩
  · exact ⟨rfl, .put hr hne (.done _)⟩
  · exact ⟨ht, ht ▸ .drop stray t hr (ht ▸ hne) (.done rest)⟩

/-! ## §3. Repetition and nesting. -/

/-- Items one after the other are made of what was read if each of them is, by induction on the
turns of the loop. -/
theorem makes_manyUpTo {starts : List Kind} {item : Rule α} {good : α → Prop}
    {tokens : α → List Token} (h : Makes item s good tokens) (bound : Nat) :
    Makes (manyUpTo starts item bound) s (∀ a ∈ ·, good a) (·.flatMap tokens) := by
  induction bound with
  | zero =>
    intro ts as rest cs he
    obtain ⟨rfl, rfl, rfl⟩ := ends_pure.mp he
    exact ⟨by simp, .done _⟩
  | succ bound ih =>
    intro ts as rest cs he
    simp only [manyUpTo, ends_isAtAny_bind, ends_ite] at he
    rcases he with ⟨_, he⟩ | ⟨_, he⟩
    · obtain ⟨a, mid, cs₁, _, ha, htail, rfl⟩ := ends_bind.mp he
      obtain ⟨as, rest, cs₂, _, has, hcons, rfl⟩ := ends_bind.mp htail
      obtain ⟨rfl, rfl, rfl⟩ := ends_pure.mp hcons
      obtain ⟨hga, hra⟩ := h ha
      obtain ⟨hgas, hras⟩ := ih has
      exact ⟨by simpa using ⟨hga, hgas⟩, by simpa using hra.trans hras⟩
    · obtain ⟨rfl, rfl, rfl⟩ := ends_pure.mp he
      exact ⟨by simp, .done _⟩

theorem makes_many {starts : List Kind} {item : Rule α} {good : α → Prop}
    {tokens : α → List Token} (h : Makes item s good tokens) :
    Makes (many starts item) s (∀ a ∈ ·, good a) (·.flatMap tokens) :=
  fun ts _ _ _ he => makes_manyUpTo h ts.length he

/-- A chain adds its operators and items to what it started with.  What it started with is general,
so that each turn of the loop starts with what was joined before. -/
theorem makes_chainUpTo {operator : Kind} {item : Rule β} {join : α → Token → β → α}
    (good : α → Prop) {good' : β → Prop} (tokens : α → List Token) {tokens' : β → List Token}
    (hs : s.stop.kind = .eof) (hk : operator ≠ .eof) (h : Makes item s good' tokens')
    (hjoin : ∀ a t b, good a → t.kind = operator → good' b →
      good (join a t b) ∧ tokens (join a t b) = tokens a ++ t :: tokens' b)
    (bound : Nat) {a₀ a : α} {ts rest : List Token} {cs : List Diagnostic} (hg : good a₀)
    (he : Ends (chainUpTo operator item join bound a₀) s ts a rest cs) :
    good a ∧ ∃ more, tokens a = tokens a₀ ++ more ∧ Reads s ts more cs rest := by
  induction bound generalizing a₀ ts cs with
  | zero =>
    obtain ⟨rfl, rfl, rfl⟩ := ends_pure.mp he
    exact ⟨hg, [], by simp, .done _⟩
  | succ bound ih =>
    rw [chainUpTo, ends_eat_bind] at he
    split at he
    · next hop =>
      obtain ⟨t, tail, rfl, ht⟩ := exists_cons_of_front_kind hs hk hop
      obtain ⟨b, mid, cs₁, cs₂, hb, hmore, rfl⟩ := ends_bind.mp he
      obtain ⟨hgb, hrb⟩ := h hb
      obtain ⟨hgj, htj⟩ := hjoin a₀ t b hg ht hgb
      obtain ⟨hga, more, hta, hra⟩ := ih hgj hmore
      refine ⟨hga, t :: tokens' b ++ more, ?_, .take t (hrb.trans hra)⟩
      rw [hta]
      exact htj ▸ by simp
    · obtain ⟨rfl, rfl, rfl⟩ := ends_pure.mp he
      exact ⟨hg, [], by simp, .done _⟩

/-- An item and those chained to it. -/
theorem makes_chain {operator : Kind} {item : Rule β} {start : β → α} {join : α → Token → β → α}
    {good : α → Prop} {good' : β → Prop} {tokens : α → List Token} {tokens' : β → List Token}
    (hs : s.stop.kind = .eof) (hk : operator ≠ .eof) (h : Makes item s good' tokens')
    (hstart : ∀ b, good' b → good (start b) ∧ tokens (start b) = tokens' b)
    (hjoin : ∀ a t b, good a → t.kind = operator → good' b →
      good (join a t b) ∧ tokens (join a t b) = tokens a ++ t :: tokens' b) :
    Makes (item >>= fun b => chain operator item join (start b)) s good tokens := by
  intro ts a rest cs he
  obtain ⟨first, mid, cs₁, cs₂, hfirst, hchain, rfl⟩ := ends_bind.mp he
  obtain ⟨hgood, hread⟩ := h hfirst
  obtain ⟨hstarts, htokens⟩ := hstart first hgood
  obtain ⟨hga, more, hta, hmore⟩ :=
    makes_chainUpTo good tokens hs hk h hjoin mid.length hstarts hchain
  refine ⟨hga, ?_⟩
  rw [hta, htokens]
  exact hread.trans hmore

/-- What holds of giving up, and of each layer when it holds of the layer
inside, holds at any depth. -/
theorem nestedUpTo_induction {step : Rule α → Rule α} {starts : List Kind} {P : Rule α → Prop}
    (h₀ : P (noViable starts)) (h : ∀ inner, P inner → P (step inner)) (depth : Nat) :
    P (nestedUpTo step starts depth) := by
  induction depth with
  | zero => exact h₀
  | succ depth ih => exact h _ ih

theorem makes_nested {step : Rule α → Rule α} {starts : List Kind} {good : α → Prop}
    {tokens : α → List Token}
    (h : ∀ inner, Makes inner s good tokens → Makes (step inner) s good tokens) :
    Makes (nested step starts) s good tokens :=
  fun ts _ _ _ he => nestedUpTo_induction (P := (Makes · s good tokens))
    (fun _ _ _ _ he => absurd he ends_noViable) h (ts.length + 1) he

theorem opens_nested {step : Rule α → Rule α} {starts : List Kind} {good : α → Prop}
    {tokens : α → List Token}
    (h : ∀ inner, Opens inner s good tokens → Opens (step inner) s good tokens) :
    Opens (nested step starts) s good tokens :=
  fun ts _ _ _ he => nestedUpTo_induction (P := (Opens · s good tokens))
    (fun _ _ _ _ he => absurd he ends_noViable) h (ts.length + 1) he

/-! ## §4. Lists that resume after garbage. -/

/-- The trace of a list that has not taken its closer yet: garbage right in
front of the closer is skipped only when the closer is taken. -/
def Lists (s : Setting) (closer : Kind) (ts tree : List Token) (ds : List Diagnostic)
    (rest : List Token) : Prop :=
  Reads s ts tree ds rest
    ∨ ∃ stray run ds', s.recovery = true ∧ (front s rest).kind = closer
        ∧ ds = ds' ++ [.mismatch stray [s.label closer]]
        ∧ Reads s ts tree ds' (stray :: run ++ rest)

section Lists

variable {closer : Kind} {ts mid rest tree tree' : List Token} {ds ds' : List Diagnostic}

theorem Reads.trans_lists (h : Reads s ts tree ds mid) (h' : Lists s closer mid tree' ds' rest) :
    Lists s closer ts (tree ++ tree') (ds ++ ds') rest := by
  rcases h' with h' | ⟨stray, run, ds', hr, hc, rfl, h'⟩
  · exact .inl (h.trans h')
  · exact .inr ⟨stray, run, ds ++ ds', hr, hc, by simp, h.trans h'⟩

/-- The closer is taken, and with it garbage in front of it is skipped. -/
theorem Lists.close {t : Token} (hs : s.stop.kind = .eof) (hk : closer ≠ .eof)
    (hsemi : closer ≠ .semicolon) (h : Lists s closer ts tree ds mid)
    (he : Ends (expect closer) s mid t rest ds') :
    t.kind = closer ∧ Reads s ts (tree ++ [t]) (ds ++ ds') rest := by
  obtain ⟨ht, hread⟩ := makes_expect hs hk he
  refine ⟨ht, ?_⟩
  rcases h with h | ⟨stray, run, ds, hr, hfront, rfl, h⟩
  · exact h.trans hread
  · rcases (ends_expect hs hk).mp he with ⟨rfl, _, rfl⟩ | ⟨other, rfl, hne, _⟩
    · simpa using h.trans (.skip stray run t closer hr hsemi (.done rest))
    · exact absurd hfront hne

end Lists

/-- Looking for a place to go on never gives up. -/
theorem exists_ends_resume (first : List Kind) (closer : Kind) (resync : List Kind) (s : Setting)
    (ts : List Token) : ∃ b rest cs, Ends (resume first closer resync) s ts b rest cs := by
  unfold Ends resume
  dsimp only
  split
  · exact ⟨_, _, _, rfl⟩
  · split
    · exact ⟨_, _, _, rfl⟩
    · split <;> exact ⟨_, _, _, rfl⟩

/-- A list resumes only after skipping at least one token.  It stops at the start of a statement or
at its closer; from anywhere else it comes back, having read nothing. -/
theorem ends_resume {first resync : List Kind} {closer : Kind} {ts rest : List Token} {b : Bool}
    {cs : List Diagnostic} (hfirst : (front s ts).kind ∉ first)
    (h : Ends (resume first closer resync) s ts b rest cs) :
    (b = false ∧ rest = ts ∧ cs = [])
      ∨ ∃ stray run, s.recovery = true ∧ ts = stray :: run ++ rest
          ∧ cs = [.mismatch stray [s.label closer]]
          ∧ ((b = true ∧ (front s rest).kind ∈ first)
              ∨ (b = false ∧ (front s rest).kind = closer)) := by
  unfold Ends resume at h
  split at h
  · cases h
    exact .inl ⟨rfl, rfl, rfl⟩
  · next hgo =>
    simp only [Bool.or_eq_true, Bool.not_eq_true', beq_iff_eq, not_or, Bool.not_eq_false] at hgo
    obtain ⟨⟨hr, hcloser⟩, _⟩ := hgo
    -- the skip leaves a later part of the tokens
    have hsplit := List.takeWhile_append_dropWhile
      (p := fun t : Token => !(closer :: first ++ resync).contains t.kind) (l := ts)
    change _ ++ skipTo (closer :: first ++ resync) ts = ts at hsplit
    generalize skipTo (closer :: first ++ resync) ts = ahead at h hsplit
    generalize List.takeWhile _ ts = skipped at hsplit
    subst hsplit
    cases skipped with
    | nil =>
      simp only [List.nil_append] at h hfirst hcloser
      simp only [List.contains_eq_mem, hfirst, hcloser, decide_false, Bool.false_eq_true,
        if_false, beq_iff_eq] at h
      cases h
      exact .inl ⟨rfl, rfl, rfl⟩
    | cons stray run =>
      simp only [List.cons_append, front_cons] at h
      split at h
      · next hin =>
        cases h
        exact .inr ⟨stray, run, hr, rfl, rfl, .inl ⟨rfl, by simpa using hin⟩⟩
      · split at h
        · next hin =>
          cases h
          exact .inr ⟨stray, run, hr, rfl, rfl, .inr ⟨rfl, by simpa using hin⟩⟩
        · cases h
          exact .inl ⟨rfl, rfl, rfl⟩

/-- Items are traced one after the other, garbage between them is skipped up to
the next item, and a list that starts with an item starts by taking a token. -/
theorem lists_listUpTo {first resync : List Kind} {closer : Kind} {item : Rule α}
    {good : α → Prop} {tokens : α → List Token} (hs : s.stop.kind = .eof)
    (heof : Kind.eof ∉ first) (hsemi : closer ≠ .semicolon)
    (hitem : ∀ ⦃ts a rest cs⦄, Ends item s ts a rest cs → (front s ts).kind ∈ first →
      good a ∧ ∃ t tail more, ts = t :: tail ∧ tokens a = t :: more ∧ Reads s tail more cs rest)
    (bound : Nat) {ts rest : List Token} {as : List α} {cs : List Diagnostic}
    (hbound : ts.length ≤ bound)
    (he : Ends (listUpTo first closer resync item bound) s ts as rest cs) :
    (∀ a ∈ as, good a) ∧ Lists s closer ts (as.flatMap tokens) cs rest
      ∧ ((front s ts).kind ∈ first → ∃ t tail more, ts = t :: tail
          ∧ as.flatMap tokens = t :: more ∧ Lists s closer tail more cs rest) := by
  induction bound generalizing ts as cs with
  | zero =>
    obtain ⟨rfl, rfl, rfl⟩ := ends_pure.mp he
    obtain rfl := List.length_eq_zero_iff.mp (Nat.le_zero.mp hbound)
    refine ⟨by simp, .inl (.done _), fun hin => absurd ?_ heof⟩
    simpa [hs] using hin
  | succ bound ih =>
    simp only [listUpTo, ends_isAtAny_bind, ends_ite, List.contains_eq_mem,
      decide_eq_true_eq] at he
    rcases he with ⟨hin, he⟩ | ⟨hin, he⟩
    · -- an item stands at hand
      obtain ⟨a, mid, cs₁, _, ha, htail, rfl⟩ := ends_bind.mp he
      obtain ⟨as, rest, cs₂, _, has, hcons, rfl⟩ := ends_bind.mp htail
      obtain ⟨rfl, rfl, rfl⟩ := ends_pure.mp hcons
      obtain ⟨hga, t, tail, more, rfl, hta, hra⟩ := hitem ha hin
      have hmid : mid.length ≤ bound := by
        have := hra.suffix.length_le
        simp only [List.length_cons] at hbound
        omega
      obtain ⟨hgas, hlas, _⟩ := ih hmid has
      have hopen := hra.trans_lists hlas
      simp only [List.append_nil, List.flatMap_cons, hta, List.cons_append]
      refine ⟨by simpa using ⟨hga, hgas⟩, ?_, fun _ => ⟨t, tail, _, rfl, rfl, hopen⟩⟩
      exact (Reads.one t tail).trans_lists hopen
    · obtain ⟨b, mid, cs₁, cs₂, hres, hgo, rfl⟩ := ends_bind.mp he
      refine and_assoc.mp ⟨?_, fun h => absurd h hin⟩
      rcases ends_resume hin hres with
        ⟨rfl, rfl, rfl⟩ | ⟨stray, run, hr, rfl, rfl, ⟨rfl, hfront⟩ | ⟨rfl, hfront⟩⟩
      · -- nothing was skipped, and the list ends
        obtain ⟨rfl, rfl, rfl⟩ := ends_pure.mp hgo
        exact ⟨by simp, .inl (.done _)⟩
      · -- the list goes on behind the garbage
        have hmid : mid.length ≤ bound := by
          simp only [List.length_cons, List.cons_append, List.length_append] at hbound
          omega
        obtain ⟨hgas, _, hopen⟩ := ih hmid hgo
        obtain ⟨t, tail, more, rfl, hmore, hlists⟩ := hopen hfront
        refine ⟨hgas, hmore ▸ ?_⟩
        have hskip : Reads s (stray :: run ++ t :: tail) [t]
            [.mismatch stray [s.label closer]] tail := .skip stray run t closer hr hsemi (.done _)
        exact hskip.trans_lists hlists
      · -- the closer stands behind the garbage
        obtain ⟨rfl, rfl, rfl⟩ := ends_pure.mp hgo
        exact ⟨by simp, .inr ⟨stray, run, [], hr, hfront, rfl, .done _⟩⟩

end RobotLang.Rule
