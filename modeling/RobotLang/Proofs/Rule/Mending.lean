/-
  RobotLang.Proofs.Rule.Mending
  ─────────────────────────────
  **REPAIRS NEVER MERGE: EACH IS FOLLOWED BY A TOKEN THAT IS TAKEN.**

  `Mends s owed ts tree ds owed' rest` is the trace of a rule that turned the
  front of `ts` into the tokens `tree`, left `rest` and complained `ds`:

      take   the token at hand becomes the next token of the tree
      put    a `;` is put in before the token at hand
      lose   a run of tokens goes

  A repair leaves a debt, which only taking the next token settles; as long as
  it is owed there is no other repair.  So two losses never stand side by side
  and a `;` is always put in right before a token that is kept.

  `Accounts` is the promise that a rule leaves such a trace, with a condition
  on what is owed and at hand before it and one after it.  It passes through
  sequences like a triple of pre- and postcondition, so each rule of a grammar
  is a chain of its parts.
-/
import RobotLang.Proofs.Rule.Reading

namespace RobotLang.Rule

/-! ## §1. Traces with debts. -/

/-- The front of the tokens became `tree` with the complaints `ds`. -/
inductive Mends (s : Setting) :
    Bool → List Token → List Token → List Diagnostic → Bool → List Token → Prop where
  | done (owed : Bool) (ts : List Token) : Mends s owed ts [] [] owed ts
  | take (owed : Bool) (t : Token) {ts tree : List Token} {ds : List Diagnostic} {owed' : Bool}
      {rest : List Token} :
      Mends s false ts tree ds owed' rest → Mends s owed (t :: ts) (t :: tree) ds owed' rest
  /-- A `;` that was missing. -/
  | put {ts tree : List Token} {ds : List Diagnostic} {owed' : Bool} {rest : List Token} :
      Mends s true ts tree ds owed' rest →
      Mends s false ts ((front s ts).insertedBefore .semicolon (s.label .semicolon) :: tree)
        (.mismatch (front s ts) [s.label .semicolon] :: ds) owed' rest
  /-- Tokens that are no part of the tree. -/
  | lose (stray : Token) (run : List Token) (wanted : Kind) {ts tree : List Token}
      {ds : List Diagnostic} {owed' : Bool} {rest : List Token} :
      Mends s true ts tree ds owed' rest →
      Mends s false (stray :: run ++ ts) tree (.mismatch stray [s.label wanted] :: ds) owed' rest

namespace Mends

variable {s : Setting} {owed owed' owed'' : Bool} {ts mid rest tree tree' : List Token}
  {ds ds' : List Diagnostic}

/-- What one rule left, and what it owes, is where the next one reads on. -/
theorem trans (h : Mends s owed ts tree ds owed' mid)
    (h' : Mends s owed' mid tree' ds' owed'' rest) :
    Mends s owed ts (tree ++ tree') (ds ++ ds') owed'' rest := by
  induction h with
  | done owed ts => exact h'
  | take owed t _ ih => exact .take owed t (ih h')
  | put _ ih => exact .put (ih h')
  | lose stray run wanted _ ih => exact .lose stray run wanted (ih h')

/-- A token that is taken pays what was owed to it. -/
theorem one (owed : Bool) (t : Token) (rest : List Token) :
    Mends s owed (t :: rest) [t] [] false rest :=
  .take owed t (.done false rest)

/-- Mending never goes back. -/
theorem suffix (h : Mends s owed ts tree ds owed' rest) : rest <:+ ts := by
  induction h with
  | done owed ts => exact List.suffix_rfl
  | take owed t _ ih => exact ih.trans (List.suffix_cons t _)
  | put _ ih => exact ih
  | lose stray run wanted _ ih => exact ih.trans (List.suffix_append (stray :: run) _)

/-- A debt is settled by taking a token, so there is one less. -/
theorem length_lt (h : Mends s true ts tree ds owed' rest) (hne : tree ≠ []) :
    rest.length < ts.length := by
  cases h with
  | done => exact absurd rfl hne
  | take _ t h =>
    have := h.suffix.length_le
    rw [List.length_cons]
    omega

/-- A trace that puts nothing in leaves no debt. -/
theorem of_reads (h : Reads s ts tree ds rest) (hno : ∀ t ∈ tree, t.kind ≠ .semicolon) :
    Mends s false ts tree ds false rest := by
  induction h with
  | done ts => exact .done false ts
  | take t _ ih => exact .take false t (ih (List.forall_mem_cons.mp hno).2)
  | put _ _ _ ih => exact absurd rfl (List.forall_mem_cons.mp hno).1
  | drop stray t _ _ _ ih =>
    exact .lose stray [] t.kind (.take true t (ih (List.forall_mem_cons.mp hno).2))
  | skip stray run t closer _ _ _ ih =>
    exact .lose stray run closer (.take true t (ih (List.forall_mem_cons.mp hno).2))

end Mends

/-! ## §2. Rules that account for their repairs. -/

section Accounts

variable {α β : Type} {s : Setting} {P P' Q Q' R : Bool → Kind → Prop}
  {T : α → List Token → Prop} {U : β → List Token → Prop}

/-- Where `P` holds of the debt and the kind at hand, the rule leaves a trace of
what it makes, and `Q` holds behind it. -/
def Accounts (rule : Rule α) (s : Setting) (P : Bool → Kind → Prop)
    (T : α → List Token → Prop) (Q : Bool → Kind → Prop) : Prop :=
  ∀ ⦃ts a rest cs⦄, Ends rule s ts a rest cs → ∀ owed, P owed (front s ts).kind →
    ∃ tree owed', T a tree ∧ Mends s owed ts tree cs owed' rest ∧ Q owed' (front s rest).kind

/-- If something is owed, it is one of these kinds that is at hand. -/
def Waits (kinds : List Kind) (owed : Bool) (kind : Kind) : Prop :=
  owed = true → kind ∈ kinds

/-- The token and nothing else. -/
abbrev Alone (t : Token) (tree : List Token) : Prop :=
  tree = [t]

/-- Where no kind is waited for, nothing is owed. -/
theorem Waits.eq_false {owed : Bool} {kind : Kind} (h : Waits [] owed kind) : owed = false := by
  cases owed with
  | false => rfl
  | true => exact absurd (h rfl) List.not_mem_nil

theorem waits_false (kinds : List Kind) (kind : Kind) : Waits kinds false kind :=
  fun h => absurd h (by simp)

/-- A rule may be asked for less, and may promise less. -/
theorem Accounts.mono {rule : Rule α} (h : Accounts rule s P T Q)
    (hP : ∀ owed kind, P' owed kind → P owed kind) (hQ : ∀ owed kind, Q owed kind → Q' owed kind) :
    Accounts rule s P' T Q' := by
  intro ts a rest cs he owed hp
  obtain ⟨tree, owed', htree, hmends, hq⟩ := h he owed (hP owed _ hp)
  exact ⟨tree, owed', htree, hmends, hQ owed' _ hq⟩

/-- Where nothing is owed, nothing has to wait. -/
theorem Accounts.settled {rule : Rule α} {kinds : List Kind}
    (h : Accounts rule s (Waits kinds) T Q) : Accounts rule s (Waits []) T Q :=
  h.mono (fun _ kind howed => howed.eq_false ▸ waits_false kinds kind) fun _ _ hq => hq

theorem Accounts.pure {a : α} (h : T a []) : Accounts (pure a) s P T P := by
  intro ts b rest cs he owed hp
  obtain ⟨rfl, rfl, rfl⟩ := ends_pure.mp he
  exact ⟨[], owed, h, .done owed _, hp⟩

/-- Debts are handed on: what the first rule may owe is what the second has to be ready for, and
their trees are put one behind the other. -/
theorem Accounts.bind {first : Rule α} {next : α → Rule β} (h : Accounts first s P T Q)
    (hnext : ∀ a front, T a front → Accounts (next a) s Q (fun b tree => U b (front ++ tree)) R) :
    Accounts (first >>= next) s P U R := by
  intro ts b rest cs he owed hp
  obtain ⟨a, mid, cs₁, cs₂, ha, hb, rfl⟩ := ends_bind.mp he
  obtain ⟨front, owed₁, hfront, hmends, hq⟩ := h ha owed hp
  obtain ⟨tree, owed₂, htree, hmends', hr⟩ := hnext a front hfront hb owed₁ hq
  exact ⟨front ++ tree, owed₂, htree, hmends.trans hmends', hr⟩

/-- A rule that gives up makes no promises. -/
theorem accounts_noViable {kinds : List Kind} : Accounts (noViable kinds) s P T Q :=
  fun _ _ _ _ he => absurd he ends_noViable

/-- A choice by the kind at hand, which the chosen rule may count on. -/
theorem accounts_peek_bind {next : Kind → Rule α}
    (h : ∀ kind, Accounts (next kind) s (fun owed k => P owed k ∧ k = kind) T Q) :
    Accounts (peek >>= next) s P T Q := by
  intro ts a rest cs he owed hp
  exact h _ (ends_peek_bind.mp he) owed ⟨hp, rfl⟩

/-- A choice by whether one of several kinds is at hand, which the chosen rule may count on. -/
theorem accounts_isAtAny_bind {kinds : List Kind} {next : Bool → Rule α}
    (hyes : Accounts (next true) s (fun owed k => P owed k ∧ k ∈ kinds) T Q)
    (hno : Accounts (next false) s (fun owed k => P owed k ∧ k ∉ kinds) T Q) :
    Accounts (isAtAny kinds >>= next) s P T Q := by
  intro ts a rest cs he owed hp
  rw [ends_isAtAny_bind, List.contains_eq_mem] at he
  by_cases hin : (front s ts).kind ∈ kinds
  · rw [decide_eq_true hin] at he
    exact hyes he owed ⟨hp, hin⟩
  · rw [decide_eq_false hin] at he
    exact hno he owed ⟨hp, hin⟩

/-- Taking any token pays what is owed. -/
theorem accounts_advance (hs : s.stop.kind = .eof) :
    Accounts advance s (fun _ k => k ≠ .eof) Alone (Waits []) := by
  intro ts t rest cs he owed hne
  obtain ⟨t', tail, rfl, -⟩ := exists_cons_of_front_kind hs hne rfl
  cases he
  exact ⟨[t'], false, rfl, .one owed t' tail, waits_false _ _⟩

/-- What may be eaten is taken, unless something is owed to another token. -/
theorem accounts_eat {kind : Kind} (hs : s.stop.kind = .eof) (hk : kind ≠ .eof) :
    Accounts (eat kind) s (Waits []) (fun eaten tree => tree = eaten.toList) (Waits []) := by
  intro ts eaten rest cs he owed howed
  obtain rfl := howed.eq_false
  unfold Ends eat at he
  split at he
  · next h =>
    obtain ⟨t, tail, rfl, -⟩ := exists_cons_of_front_kind hs hk h
    cases he
    exact ⟨[t], false, rfl, .one false t tail, waits_false _ _⟩
  · cases he
    exact ⟨[], false, rfl, .done false ts, waits_false _ _⟩

/-- A wanted token pays what is owed to its kind.  Where another token is dropped before it nothing
was owed, since it was not of that kind. -/
theorem accounts_expect {kind : Kind} (hs : s.stop.kind = .eof) (hk : kind ≠ .eof) :
    Accounts (expect kind) s (Waits [kind]) Alone (Waits []) := by
  intro ts t rest cs he owed howed
  rcases (ends_expect hs hk).mp he with ⟨rfl, -, rfl⟩ | ⟨stray, rfl, hne, -, -, rfl⟩
  · exact ⟨[t], false, rfl, .one owed t rest, waits_false _ _⟩
  · -- the stray token is not the one that a debt would wait for
    cases owed with
    | true => exact absurd (List.mem_singleton.mp (howed rfl)) hne
    | false =>
      exact ⟨[t], false, rfl, .lose stray [] kind (.one true t rest), waits_false _ _⟩

/-- A `;` that is put in is owed the token at hand, which is one of `follow`. -/
theorem accounts_expectTerminator (hs : s.stop.kind = .eof) (follow : List Kind) :
    Accounts (expectTerminator follow) s (Waits [.semicolon]) Alone (Waits follow) := by
  intro ts t rest cs he owed howed
  rcases (ends_expectTerminator hs).mp he with
    ⟨rfl, -, rfl⟩ | ⟨-, hmem, hne, rfl, rfl, rfl⟩ | ⟨stray, rfl, hne, -, -, -, rfl⟩
  · exact ⟨[t], false, rfl, .one owed t rest, waits_false _ _⟩
  · cases owed with
    | true => exact absurd (List.mem_singleton.mp (howed rfl)) hne
    | false => exact ⟨_, true, rfl, .put (.done true _), fun _ => hmem⟩
  · cases owed with
    | true => exact absurd (List.mem_singleton.mp (howed rfl)) hne
    | false =>
      exact ⟨[t], false, rfl, .lose stray [] .semicolon (.one true t rest), waits_false _ _⟩

/-- Rules that never put in a `;`. -/
theorem accounts_of_makes {rule : Rule α} {good : α → Prop} {tokens : α → List Token}
    (h : Makes rule s good tokens) (hno : ∀ a, good a → ∀ t ∈ tokens a, t.kind ≠ .semicolon) :
    Accounts rule s (Waits []) (fun a tree => tree = tokens a) (Waits []) := by
  intro ts a rest cs he owed howed
  obtain rfl := howed.eq_false
  obtain ⟨hgood, hreads⟩ := h he
  exact ⟨tokens a, false, rfl, .of_reads hreads (hno a hgood), waits_false _ _⟩

/-! ## §3. Repetition, nesting and lists. -/

/-- A rule nested in itself keeps its promises if each layer does; by induction on the bound of the
nesting. -/
theorem accounts_nested {step : Rule α → Rule α} {starts : List Kind}
    (h : ∀ inner, Accounts inner s P T Q → Accounts (step inner) s P T Q) :
    Accounts (nested step starts) s P T Q := by
  intro ts a rest cs he
  exact nestedUpTo_induction (P := (Accounts · s P T Q)) accounts_noViable h (ts.length + 1) he

/-- An item and then more items.  Whatever was owed, the item has taken a token,
so there are fewer left for the others. -/
theorem exists_mends_of_item {first kinds : List Kind} {item : Rule α} {more : Rule (List α)}
    {tokens : α → List Token} (hne : ∀ a, tokens a ≠ [])
    (h : Accounts item s (fun _ k => k ∈ first) (fun a tree => tree = tokens a) (Waits kinds))
    {ts rest : List Token} {as : List α} {cs : List Diagnostic} {C : Bool → Prop}
    (hin : (front s ts).kind ∈ first)
    (he : Ends (item >>= fun a => more >>= fun as => pure (a :: as)) s ts as rest cs) (owed : Bool)
    (hmore : ∀ {mid as cs owed}, mid.length < ts.length → Ends more s mid as rest cs →
      Waits kinds owed (front s mid).kind →
      ∃ owed', Mends s owed mid (as.flatMap tokens) cs owed' rest ∧ C owed') :
    ∃ owed', Mends s owed ts (as.flatMap tokens) cs owed' rest ∧ C owed' := by
  obtain ⟨a, mid, cs₁, _, ha, htail, rfl⟩ := ends_bind.mp he
  obtain ⟨as, rest, cs₂, _, has, hcons, rfl⟩ := ends_bind.mp htail
  obtain ⟨rfl, rfl, rfl⟩ := ends_pure.mp hcons
  obtain ⟨_, owed₁, rfl, hmends, hwaits⟩ := h ha owed hin
  have hlt : mid.length < ts.length := by
    obtain ⟨_, _, rfl, hpaid, -⟩ := h ha true hin
    exact hpaid.length_lt (hne a)
  obtain ⟨owed₂, hmends', hrest⟩ := hmore hlt has hwaits
  exact ⟨owed₂, by simpa using hmends.trans hmends', hrest⟩

/-- Items that start wherever one can start; behind the last of them none does.  An item takes at
least one token, so as many turns as there are tokens are enough. -/
theorem accounts_manyUpTo {starts kinds : List Kind} {item : Rule α} {tokens : α → List Token}
    (hs : s.stop.kind = .eof) (heof : Kind.eof ∉ starts) (hne : ∀ a, tokens a ≠ [])
    (h : Accounts item s (fun _ k => k ∈ starts) (fun a tree => tree = tokens a) (Waits kinds))
    (bound : Nat) {ts rest : List Token} {as : List α} {cs : List Diagnostic}
    (hbound : ts.length ≤ bound) (he : Ends (manyUpTo starts item bound) s ts as rest cs)
    (owed : Bool) (howed : Waits kinds owed (front s ts).kind) :
    ∃ owed', Mends s owed ts (as.flatMap tokens) cs owed' rest
      ∧ Waits kinds owed' (front s rest).kind ∧ (front s rest).kind ∉ starts := by
  induction bound generalizing ts as cs owed with
  | zero =>
    obtain ⟨rfl, rfl, rfl⟩ := ends_pure.mp he
    obtain rfl := List.length_eq_zero_iff.mp (Nat.le_zero.mp hbound)
    exact ⟨owed, .done owed [], howed, by rw [front_nil, hs]; exact heof⟩
  | succ bound ih =>
    simp only [manyUpTo, ends_isAtAny_bind, ends_ite, List.contains_eq_mem,
      decide_eq_true_eq] at he
    rcases he with ⟨hin, he⟩ | ⟨hout, he⟩
    · refine exists_mends_of_item hne h hin he owed fun hlt has hwaits => ?_
      exact ih (by omega) has _ hwaits
    · obtain ⟨rfl, rfl, rfl⟩ := ends_pure.mp he
      exact ⟨owed, .done owed _, howed, hout⟩

/-- Items that start wherever one can start, up to a token that starts none. -/
theorem accounts_many {starts kinds : List Kind} {item : Rule α} {tokens : α → List Token}
    (hs : s.stop.kind = .eof) (heof : Kind.eof ∉ starts) (hne : ∀ a, tokens a ≠ [])
    (h : Accounts item s (fun _ k => k ∈ starts) (fun a tree => tree = tokens a) (Waits kinds)) :
    Accounts (many starts item) s (Waits kinds) (fun as tree => tree = as.flatMap tokens)
      (fun owed k => Waits kinds owed k ∧ k ∉ starts) := by
  intro ts as rest cs he owed howed
  obtain ⟨owed', hmends, hrest⟩ :=
    accounts_manyUpTo hs heof hne h ts.length (Nat.le_refl _) he owed howed
  exact ⟨_, owed', rfl, hmends, hrest⟩

/-- At its closer a list does not skip. -/
theorem ends_resume_of_closer {first resync : List Kind} {closer : Kind} {ts rest : List Token}
    {b : Bool} {cs : List Diagnostic} (h : (front s ts).kind = closer)
    (he : Ends (resume first closer resync) s ts b rest cs) :
    b = false ∧ rest = ts ∧ cs = [] := by
  unfold Ends resume at he
  rw [if_pos (by simp [h])] at he
  cases he
  exact ⟨rfl, rfl, rfl⟩

/-- Items of a list that resumes after garbage.  Whatever is owed behind it, it
is the closer that is at hand. -/
theorem accounts_listUpTo {first resync : List Kind} {closer : Kind} {item : Rule α}
    {tokens : α → List Token} (hs : s.stop.kind = .eof) (heof : Kind.eof ∉ first)
    (hne : ∀ a, tokens a ≠ [])
    (h : Accounts item s (fun _ k => k ∈ first) (fun a tree => tree = tokens a)
      (Waits (first ++ [closer])))
    (bound : Nat) {ts rest : List Token} {as : List α} {cs : List Diagnostic}
    (hbound : ts.length ≤ bound)
    (he : Ends (listUpTo first closer resync item bound) s ts as rest cs)
    (owed : Bool) (howed : Waits (first ++ [closer]) owed (front s ts).kind) :
    ∃ owed', Mends s owed ts (as.flatMap tokens) cs owed' rest
      ∧ Waits [closer] owed' (front s rest).kind := by
  induction bound generalizing ts as cs owed with
  | zero =>
    obtain ⟨rfl, rfl, rfl⟩ := ends_pure.mp he
    obtain rfl := List.length_eq_zero_iff.mp (Nat.le_zero.mp hbound)
    refine ⟨owed, .done owed [], fun hdue => ?_⟩
    -- nothing waits for the end of input
    rcases List.mem_append.mp (howed hdue) with hmem | hmem
    · rw [front_nil, hs] at hmem
      exact absurd hmem heof
    · exact hmem
  | succ bound ih =>
    simp only [listUpTo, ends_isAtAny_bind, ends_ite, List.contains_eq_mem,
      decide_eq_true_eq] at he
    rcases he with ⟨hin, he⟩ | ⟨hout, he⟩
    · refine exists_mends_of_item hne h hin he owed fun hlt has hwaits => ?_
      exact ih (by omega) has _ hwaits
    · obtain ⟨b, mid, cs₁, cs₂, hres, hgo, rfl⟩ := ends_bind.mp he
      -- no item is at hand, so what is owed waits for the closer
      have hwaits : Waits [closer] owed (front s ts).kind := by
        intro hdue
        exact (List.mem_append.mp (howed hdue)).resolve_left hout
      rcases ends_resume hout hres with
        ⟨rfl, rfl, rfl⟩ | ⟨stray, run, -, rfl, rfl, hahead⟩
      · obtain ⟨rfl, rfl, rfl⟩ := ends_pure.mp hgo
        exact ⟨owed, .done owed _, hwaits⟩
      · -- at its closer the list would not have skipped
        have hfree : owed = false := by
          cases owed with
          | false => rfl
          | true =>
            have hclose := List.mem_singleton.mp (hwaits rfl)
            exact absurd (ends_resume_of_closer hclose hres).2.2 (List.cons_ne_nil _ _)
        subst hfree
        have hmid : mid.length ≤ bound := by
          simp only [List.length_cons, List.cons_append, List.length_append] at hbound
          omega
        rcases hahead with ⟨rfl, hfirst⟩ | ⟨rfl, hfront⟩
        · -- the list goes on behind the garbage
          obtain ⟨owed', hmends, hrest⟩ :=
            ih hmid hgo true fun _ => List.mem_append_left _ hfirst
          exact ⟨owed', .lose stray run closer hmends, hrest⟩
        · -- the closer stands behind the garbage
          obtain ⟨rfl, rfl, rfl⟩ := ends_pure.mp hgo
          exact ⟨true, .lose stray run closer (.done true _), fun _ => by simp [hfront]⟩

/-- A list that may go on behind garbage, up to its closer.  What its last item owes is owed to the
closer. -/
theorem accounts_list {first resync : List Kind} {closer : Kind} {item : Rule α}
    {tokens : α → List Token} (hs : s.stop.kind = .eof) (heof : Kind.eof ∉ first)
    (hne : ∀ a, tokens a ≠ [])
    (h : Accounts item s (fun _ k => k ∈ first) (fun a tree => tree = tokens a)
      (Waits (first ++ [closer]))) :
    Accounts (list first closer resync item) s (Waits (first ++ [closer]))
      (fun as tree => tree = as.flatMap tokens) (Waits [closer]) := by
  intro ts as rest cs he owed howed
  obtain ⟨owed', hmends, hrest⟩ :=
    accounts_listUpTo hs heof hne h ts.length (Nat.le_refl _) he owed howed
  exact ⟨_, owed', rfl, hmends, hrest⟩

end Accounts

end RobotLang.Rule
