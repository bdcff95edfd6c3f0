/-
  RobotLang.Proofs.Rule.Lockstep
  ──────────────────────────────
  **A RULE SEES NO FURTHER THAN THE TOKEN IT STOPS AT.**

  Two token lists start with the same tokens and go on differently:

      common ++ x        common ++ x'

  Without repairs a rule does the same on both for as long as it has not used
  up the common tokens: it ends with the same node or the same complaints, and
  leaves the same part of them (`Outcome.Parallel`).  In particular, what it
  gives up at it gives up at whatever follows.

  The bounds of repetition and nesting are taken from the length of the whole
  list, so the two runs are runs of two different rules.  `Lockstep n` compares
  two rules on common parts of at most `n` tokens; that both bounds exceed the
  length of the common part is all that is ever used of them.
-/
import RobotLang.Proofs.Rule.FirstComplaint

namespace RobotLang

/-- The second outcome is the first one with other tokens at the far end, unless
the first run has come to that end. -/
inductive Outcome.Parallel {α : Type} (common x x' : List Token) :
    Outcome α → Outcome α → Prop where
  | within (result : Option α) (left : List Token) (cs : List Diagnostic) :
      left ≠ [] → left.length ≤ common.length →
      Parallel common x x' ⟨result, left ++ x, cs⟩ ⟨result, left ++ x', cs⟩
  | beyond {o o' : Outcome α} : o.rest.length ≤ x.length → Parallel common x x' o o'

/-- As long as some of the common part is left, both runs have come to the same. -/
theorem Outcome.Parallel.result_eq {α : Type} {common x x' : List Token} {o o' : Outcome α}
    (h : o.Parallel common x x' o') (hleft : x.length < o.rest.length) : o.result = o'.result := by
  cases h with
  | within => rfl
  | beyond hle => exact absurd hle (Nat.not_le.mpr hleft)

namespace Rule

variable {α β : Type} {s : Setting} {n : Nat}

/-- No rule makes up tokens, and on common parts of at most `n` tokens the two
rules do the same. -/
structure Lockstep (n : Nat) (rule rule' : Rule α) (s : Setting) : Prop where
  shrinks : ∀ ts, (rule s ts).rest.length ≤ ts.length
  agrees : ∀ common x x', common.length ≤ n →
    (rule s (common ++ x)).Parallel common x x' (rule' s (common ++ x'))

/-! ## §1. Sequences. -/

/-- Rules that keep in lockstep do so on shorter common parts. -/
theorem Lockstep.mono {rule rule' : Rule α} {m : Nat} (h : Lockstep n rule rule' s) (hm : m ≤ n) :
    Lockstep m rule rule' s :=
  ⟨h.shrinks, fun common x x' hlen => h.agrees common x x' (Nat.le_trans hlen hm)⟩

/-- Where nothing is common there is nothing to compare. -/
theorem Lockstep.zero {rule rule' : Rule α} (h : ∀ ts, (rule s ts).rest.length ≤ ts.length) :
    Lockstep 0 rule rule' s := by
  refine ⟨h, fun common x x' hlen => .beyond ?_⟩
  obtain rfl := List.length_eq_zero_iff.mp (Nat.le_zero.mp hlen)
  exact h x

/-- A rule that only looks at the token at hand. -/
theorem Lockstep.of_front {rule : Rule α} (result : Token → Option α)
    (complaints : Token → List Diagnostic)
    (h : ∀ ts, rule s ts = ⟨result (front s ts), ts, complaints (front s ts)⟩) :
    Lockstep n rule rule s := by
  constructor
  · exact fun ts => Nat.le_of_eq (congrArg (·.rest.length) (h ts))
  · intro common x x' _
    rw [h, h]
    cases common with
    | nil => exact .beyond (Nat.le_refl _)
    | cons t common =>
      exact .within (result t) (t :: common) (complaints t) (by simp) (Nat.le_refl _)

theorem Lockstep.pure (a : α) : Lockstep n (pure a) (pure a) s :=
  .of_front (fun _ => some a) (fun _ => []) fun _ => rfl

/-- After a rule that ended, the sequence is its rest with the complaints so
far. -/
theorem bind_of_some {first : Rule α} {next : α → Rule β} {ts mid : List Token} {a : α}
    {cs : List Diagnostic} (h : first s ts = ⟨some a, mid, cs⟩) :
    (first >>= next) s ts = ⟨(next a s mid).result, (next a s mid).rest,
      cs ++ (next a s mid).complaints⟩ := by
  show andThen first next s ts = _
  unfold andThen
  rw [h]

/-- What is left of a sequence is what its parts leave. -/
theorem length_rest_bind {first : Rule α} {next : α → Rule β} {ts : List Token} {bound : Nat}
    (hfirst : (first s ts).rest.length ≤ bound)
    (hnext : ∀ a mid, (next a s mid).rest.length ≤ mid.length) :
    ((first >>= next) s ts).rest.length ≤ bound := by
  show (andThen first next s ts).rest.length ≤ bound
  unfold andThen
  generalize first s ts = o at hfirst
  obtain ⟨result, mid, cs⟩ := o
  cases result with
  | none => exact hfirst
  | some a => exact Nat.le_trans (hnext a mid) hfirst

/-- A rule that ends takes at least one token, where there is one. -/
def Takes (rule : Rule α) (s : Setting) : Prop :=
  ∀ ⦃ts a mid cs⦄, rule s ts = ⟨some a, mid, cs⟩ → ts ≠ [] → mid.length < ts.length

/-- Two rules in lockstep, followed by rules that are in lockstep on what the
first ones can leave of the common part. -/
theorem Lockstep.bind_of_left {first first' : Rule α} {next next' : α → Rule β} {m : Nat}
    (hfirst : Lockstep n first first' s)
    (hleft : ∀ common x a left cs, first s (common ++ x) = ⟨some a, left ++ x, cs⟩ →
      common.length ≤ n → left ≠ [] → left.length ≤ common.length → left.length ≤ m)
    (hnext : ∀ a, Lockstep m (next a) (next' a) s) :
    Lockstep n (first >>= next) (first' >>= next') s := by
  constructor
  · intro ts
    exact length_rest_bind (hfirst.shrinks ts) fun a mid => (hnext a).shrinks mid
  · intro common x x' hlen
    have hagrees := hfirst.agrees common x x' hlen
    generalize ho : first s (common ++ x) = o at hagrees
    generalize ho' : first' s (common ++ x') = o' at hagrees
    cases hagrees with
    | beyond hrest =>
      rw [← ho] at hrest
      -- the first rule went beyond the common part, and no rule comes back
      exact .beyond (length_rest_bind hrest fun a mid => (hnext a).shrinks mid)
    | within result left cs hne hle =>
      cases result with
      | none =>
        rw [bind_of_givenUp ho, bind_of_givenUp ho']
        exact .within none left cs hne hle
      | some a =>
        -- it stayed within, and `left` is the common part of what follows
        have hnexta := (hnext a).agrees left x x' (hleft common x a left cs ho hlen hne hle)
        rw [bind_of_some ho, bind_of_some ho']
        generalize next a s (left ++ x) = p at hnexta
        generalize next' a s (left ++ x') = p' at hnexta
        cases hnexta with
        | beyond hrest => exact .beyond hrest
        | within result left' cs' hne' hle' =>
          exact .within result left' (cs ++ cs') hne' (Nat.le_trans hle' hle)

/-- Two rules in lockstep, followed by rules that are.  Nothing is asked about what the first ones
take. -/
theorem Lockstep.bind {first first' : Rule α} {next next' : α → Rule β}
    (hfirst : Lockstep n first first' s) (hnext : ∀ a, Lockstep n (next a) (next' a) s) :
    Lockstep n (first >>= next) (first' >>= next') s :=
  hfirst.bind_of_left (fun _ _ _ _ _ _ hlen _ hle => Nat.le_trans hle hlen) hnext

/-- Behind a rule that takes a token the common part is shorter. -/
theorem Lockstep.bind_of_takes {first first' : Rule α} {next next' : α → Rule β}
    (hfirst : Lockstep n first first' s) (htakes : Takes first s)
    (hnext : ∀ a, Lockstep (n - 1) (next a) (next' a) s) :
    Lockstep n (first >>= next) (first' >>= next') s := by
  refine hfirst.bind_of_left ?_ hnext
  intro common x a left cs ho hlen hne hle
  have hpos := List.length_pos_iff.mpr hne
  have hshorter := htakes ho (List.ne_nil_of_length_pos (by rw [List.length_append]; omega))
  rw [List.length_append, List.length_append] at hshorter
  omega

theorem Lockstep.map {f : α → β} {rule rule' : Rule α} (h : Lockstep n rule rule' s) :
    Lockstep n (f <$> rule) (f <$> rule') s :=
  h.bind fun a => .pure (f a)

/-! ## §2. Looking, taking and wanting. -/

theorem lockstep_peek : Lockstep n peek peek s :=
  .of_front (fun t => some t.kind) (fun _ => []) fun _ => rfl

theorem lockstep_isAt (kind : Kind) : Lockstep n (isAt kind) (isAt kind) s :=
  .of_front (fun t => some (t.kind == kind)) (fun _ => []) fun _ => rfl

theorem lockstep_isAtAny (kinds : List Kind) : Lockstep n (isAtAny kinds) (isAtAny kinds) s :=
  .of_front (fun t => some (kinds.contains t.kind)) (fun _ => []) fun _ => rfl

theorem lockstep_setting : Lockstep n setting setting s :=
  .of_front (fun _ => some s) (fun _ => []) fun _ => rfl

/-- Giving up is a matter of the token at hand. -/
theorem lockstep_noViable (kinds : List Kind) :
    Lockstep n (noViable kinds : Rule α) (noViable kinds) s :=
  .of_front (fun _ => none) (fun t => [.mismatch t (kinds.map s.label)]) fun _ => rfl

/-- Giving up with a complaint that is fixed beforehand. -/
theorem lockstep_complain_giveUp (d : Diagnostic) :
    Lockstep n (complain d >>= fun _ => (giveUp : Rule α)) (complain d >>= fun _ => giveUp) s :=
  .of_front (fun _ => none) (fun _ => [d]) fun _ => rfl

/-- Whether the input ends is seen at the token at hand, so two lists agree about it while some of
the common part is left. -/
theorem lockstep_finish : Lockstep n finish finish s := by
  refine .of_front (fun t => if t.kind = .eof then some () else none)
    (fun t => if t.kind = .eof then [] else [.atToken .expectedEof t (some [])]) fun ts => ?_
  unfold finish
  rw [bind_of_quiet (show isAt .eof s ts = ⟨some ((front s ts).kind == .eof), ts, []⟩ from rfl)]
  by_cases h : (front s ts).kind = .eof
  · simp only [h, if_true]
    rfl
  · simp only [h, if_false, beq_eq_false_iff_ne.mpr h]
    rfl

/-- A rule that takes the token at hand if it is the right one, and otherwise
stays. -/
theorem Lockstep.of_step {rule : Rule α} (taken : Token → Option α)
    (kept : Token → Option α × List Diagnostic)
    (h : ∀ t tail, rule s (t :: tail) = match taken t with
      | some a => ⟨some a, tail, []⟩
      | none => ⟨(kept t).1, t :: tail, (kept t).2⟩)
    (hnil : (rule s []).rest = []) : Lockstep n rule rule s := by
  have hshrinks : ∀ ts, (rule s ts).rest.length ≤ ts.length := by
    intro ts
    cases ts with
    | nil => exact Nat.le_of_eq (congrArg List.length hnil)
    | cons t tail =>
      rw [h]
      split
      · exact Nat.le_succ _
      · exact Nat.le_refl _
  refine ⟨hshrinks, fun common x x' _ => ?_⟩
  cases common with
  | nil => exact .beyond (hshrinks x)
  | cons t common =>
    rw [List.cons_append, List.cons_append, h, h]
    split
    · next a ha =>
      -- taking the last token of the common part already counts as beyond it
      cases common with
      | nil => exact .beyond (Nat.le_refl _)
      | cons t' common =>
        exact .within (some a) (t' :: common) [] (by simp) (Nat.le_succ _)
    · exact .within (kept t).1 (t :: common) (kept t).2 (by simp) (Nat.le_refl _)

theorem lockstep_advance : Lockstep n advance advance s :=
  .of_step some (fun _ => (none, [])) (fun _ _ => rfl) rfl

/-- Advancing takes a token if there is one. -/
theorem takes_advance : Takes advance s := by
  intro ts a mid cs h hne
  cases h
  cases ts with
  | nil => exact absurd rfl hne
  | cons t tail => exact Nat.lt_succ_self _

/-- A token is taken or left by its kind alone. -/
theorem lockstep_eat (kind : Kind) : Lockstep n (eat kind) (eat kind) s := by
  refine .of_step (fun t => if t.kind = kind then some (some t) else none)
    (fun _ => (some none, [])) (fun t tail => ?_) ?_
  · unfold eat
    rw [front_cons]
    by_cases h : t.kind = kind
    · simp [h]
    · simp [h]
  · unfold eat
    split <;> rfl

/-- Behind a token that was taken the common part is shorter; where it was not there, nothing has
changed. -/
theorem lockstep_eat_bind {kind : Kind} {next next' : Option Token → Rule β}
    (hnone : Lockstep n (next none) (next' none) s)
    (hsome : ∀ t, Lockstep (n - 1) (next (some t)) (next' (some t)) s) :
    Lockstep n (eat kind >>= next) (eat kind >>= next') s := by
  have hshrinks : ∀ a mid, (next a s mid).rest.length ≤ mid.length := by
    intro a mid
    cases a with
    | none => exact hnone.shrinks mid
    | some t => exact (hsome t).shrinks mid
  refine ⟨fun ts => length_rest_bind ((lockstep_eat (n := n) kind).shrinks ts) hshrinks, ?_⟩
  intro common x x' hlen
  cases common with
  | nil => exact .beyond (length_rest_bind ((lockstep_eat (n := n) kind).shrinks x) hshrinks)
  | cons t common =>
    by_cases h : t.kind = kind
    · -- the token goes, and the common part gets shorter
      have heat (tail : List Token) : eat kind s (t :: tail) = ⟨some (some t), tail, []⟩ := if_pos h
      rw [List.cons_append, List.cons_append, bind_of_quiet (heat _), bind_of_quiet (heat _)]
      have hrest := (hsome t).agrees common x x' (by rw [List.length_cons] at hlen; omega)
      generalize next (some t) s (common ++ x) = o at hrest
      generalize next' (some t) s (common ++ x') = o' at hrest
      cases hrest with
      | beyond hrest => exact .beyond hrest
      | within result left cs hne hle => exact .within result left cs hne (Nat.le_succ_of_le hle)
    · have heat (tail : List Token) : eat kind s (t :: tail) = ⟨some none, t :: tail, []⟩ :=
        if_neg h
      rw [List.cons_append, List.cons_append, bind_of_quiet (heat _), bind_of_quiet (heat _)]
      exact hnone.agrees (t :: common) x x' hlen

/-- A setting without repairs is strict already. -/
theorem strict_eq_self (hr : s.recovery = false) : s.strict = s := by
  obtain ⟨label, recovery, sensorParens, stop⟩ := s
  cases hr
  rfl

/-- Without repairs a wanted token is there, or the rule stays where it is. -/
theorem expect_strict (hr : s.recovery = false) (kind : Kind) (ts : List Token) :
    expect kind s ts
      = if (front s ts).kind = kind then ⟨some (front s ts), ts.tail, []⟩
        else ⟨none, ts, [.mismatch (front s ts) [s.label kind]]⟩ := by
  split
  · next h =>
    have heat : eat kind s ts = ⟨some (some (front s ts)), ts.tail, []⟩ := if_pos h
    unfold expect
    rw [bind_of_quiet heat]
    rfl
  · next h =>
    have hstrict := expect_strict_of_ne h
    rwa [strict_eq_self hr] at hstrict

/-- Without repairs nothing is looked at behind the wanted token.  A repair would look one token
further, where the two lists may differ. -/
theorem lockstep_expect (hr : s.recovery = false) (kind : Kind) :
    Lockstep n (expect kind) (expect kind) s := by
  refine .of_step (fun t => if t.kind = kind then some t else none)
    (fun t => (none, [.mismatch t [s.label kind]])) (fun t tail => ?_) ?_
  · rw [expect_strict hr, front_cons]
    by_cases h : t.kind = kind
    · simp [h]
    · simp [h]
  · rw [expect_strict hr]
    split <;> rfl

/-- Without repairs, a wanted token that was found was taken. -/
theorem takes_expect (hr : s.recovery = false) (kind : Kind) : Takes (expect kind) s := by
  intro ts a mid cs h hne
  rw [expect_strict hr] at h
  split at h
  · cases h
    cases ts with
    | nil => exact absurd rfl hne
    | cons t tail => exact Nat.lt_succ_self _
  · cases h

/-- Behind a wanted token the common part is shorter. -/
theorem lockstep_expect_bind (hr : s.recovery = false) {kind : Kind} {next next' : Token → Rule β}
    (hnext : ∀ t, Lockstep (n - 1) (next t) (next' t) s) :
    Lockstep n (expect kind >>= next) (expect kind >>= next') s :=
  (lockstep_expect hr kind).bind_of_takes (takes_expect hr kind) hnext

/-- Behind the token at hand the common part is shorter. -/
theorem lockstep_advance_bind {next next' : Token → Rule β}
    (hnext : ∀ t, Lockstep (n - 1) (next t) (next' t) s) :
    Lockstep n (advance >>= next) (advance >>= next') s :=
  lockstep_advance.bind_of_takes takes_advance hnext

/-! ## §3. Repetition and nesting. -/

/-- Rules by recursion on a bound that is at least the number of tokens.  On a
common part of `m` tokens, a round that takes one leaves a common part of
`m - 1` to the rounds that follow, and no two bounds matter that both exceed it. -/
theorem Lockstep.of_recursion {ι : Type} (rules rules' : Nat → ι → Rule α)
    (hbase : ∀ i, Lockstep 0 (rules 0 i) (rules' 0 i) s)
    (hstep : ∀ m bound bound', m ≤ n →
      (∀ i, Lockstep (m - 1) (rules bound i) (rules' bound' i) s) →
      ∀ i, Lockstep m (rules (bound + 1) i) (rules' (bound' + 1) i) s)
    (extra : Nat) (i : ι) :
    Lockstep n (fun s ts => rules (ts.length + extra) i s ts)
      (fun s ts => rules' (ts.length + extra) i s ts) s := by
  -- that no tokens are added is the case of an empty common part
  have hshrinks : ∀ bound i ts, (rules bound i s ts).rest.length ≤ ts.length := by
    have hsame : ∀ bound i, Lockstep 0 (rules bound i) (rules' bound i) s := by
      intro bound
      induction bound with
      | zero => exact hbase
      | succ bound ih => exact hstep 0 bound bound (Nat.zero_le n) ih
    exact fun bound i => (hsame bound i).shrinks
  -- on the common part, not on the bounds: these may differ
  have hrounds : ∀ m bound bound', m ≤ n → m ≤ bound → m ≤ bound' →
      ∀ i, Lockstep m (rules bound i) (rules' bound' i) s := by
    intro m
    induction m with
    | zero => exact fun bound _ _ _ _ i => .zero (hshrinks bound i)
    | succ m ih =>
      intro bound bound' hm hbound hbound'
      obtain ⟨bound, rfl⟩ : ∃ b, bound = b + 1 := ⟨bound - 1, by omega⟩
      obtain ⟨bound', rfl⟩ : ∃ b, bound' = b + 1 := ⟨bound' - 1, by omega⟩
      exact hstep (m + 1) bound bound' hm (ih bound bound' (by omega) (by omega) (by omega))
  refine ⟨fun ts => hshrinks _ i ts, fun common x x' hlen => ?_⟩
  refine (hrounds common.length _ _ hlen ?_ ?_ i).agrees common x x' (Nat.le_refl _)
  · rw [List.length_append]
    omega
  · rw [List.length_append]
    omega

/-- Items that take tokens, repeated. -/
theorem Lockstep.many {starts : List Kind} {item item' : Rule α} (h : Lockstep n item item' s)
    (htakes : Takes item s) : Lockstep n (many starts item) (many starts item') s := by
  refine .of_recursion (fun bound _ => manyUpTo starts item bound)
    (fun bound _ => manyUpTo starts item' bound) (fun _ => .pure []) ?_ 0 ()
  intro m bound bound' hm ih _
  refine .bind (lockstep_isAtAny starts) fun b => ?_
  split
  · exact (h.mono hm).bind_of_takes htakes fun a => (ih ()).bind fun as => .pure (a :: as)
  · exact .pure []

/-- A chain takes its operator before each further item. -/
theorem Lockstep.chain {operator : Kind} {item item' : Rule β} {join : α → Token → β → α}
    (h : Lockstep n item item' s) (a : α) :
    Lockstep n (chain operator item join a) (chain operator item' join a) s := by
  refine .of_recursion (chainUpTo operator item join) (chainUpTo operator item' join)
    (fun a => .pure a) ?_ 0 a
  intro m bound bound' hm ih a
  refine lockstep_eat_bind (.pure a) fun t => ?_
  exact (h.mono (by omega)).bind fun b => ih (join a t b)

/-- A layer takes a token before it comes to the layer inside.  `Q` is what else
is known of the layers at every depth. -/
theorem Lockstep.nested {step : Rule α → Rule α} {starts : List Kind} (Q : Rule α → Prop)
    (hbase : Q (noViable starts)) (hkeeps : ∀ inner, Q inner → Q (step inner))
    (h : ∀ n inner inner', Q inner → Lockstep (n - 1) inner inner' s →
      Lockstep n (step inner) (step inner') s) :
    Lockstep n (nested step starts) (nested step starts) s := by
  refine .of_recursion (fun depth _ => nestedUpTo step starts depth)
    (fun depth _ => nestedUpTo step starts depth) (fun _ => lockstep_noViable starts) ?_ 1 ()
  intro m depth depth' _ ih _
  exact h m _ _ (nestedUpTo_induction hbase hkeeps depth) (ih ())

/-! ## §4. The rules both dialects share. -/

section Shared

variable (hr : s.recovery = false)

/-- The value of a literal is a matter of the token at hand. -/
theorem lockstep_literal : Lockstep n literal literal s := by
  refine lockstep_advance.bind fun token => ?_
  cases literalValue? token.image with
  | some value => exact .pure _
  | none => exact lockstep_complain_giveUp _

include hr

/-- What is nested in a number stands behind two tokens. -/
theorem lockstep_integer : Lockstep n integer integer s := by
  refine .nested (fun _ => True) trivial (fun _ _ => trivial) fun n inner inner' _ hinner => ?_
  refine .bind lockstep_peek fun kind => ?_
  split
  · exact .bind lockstep_advance fun _ => .pure _
  · exact lockstep_literal
  · exact lockstep_advance_bind fun _ => .bind (lockstep_expect hr _) fun _ =>
      hinner.bind fun _ => .bind (lockstep_expect hr _) fun _ => .pure _
  · exact lockstep_advance_bind fun _ => .bind (lockstep_expect hr _) fun _ =>
      hinner.bind fun _ => .bind (lockstep_expect hr _) fun _ => .pure _
  · exact lockstep_noViable _

/-- Parentheses behind a sensor are wanted or not, as the setting has it for both lists. -/
theorem lockstep_sensorClause (sensor : Sensor) :
    Lockstep n (sensorClause sensor) (sensorClause sensor) s := by
  refine .bind lockstep_advance fun keyword => .bind lockstep_setting fun setting => ?_
  split
  · refine .bind (lockstep_eat _) fun found => ?_
    cases found with
    | some left => exact .bind (lockstep_expect hr _) fun _ => .pure _
    | none => exact .pure _
  · exact .pure _

section Conditions

variable {term term' : Rule (Condition .term)} (hterm : Lockstep (n - 1) term term' s)

include hterm

/-- What is nested in a clause stands behind a parenthesis. -/
theorem lockstep_clause : Lockstep n (clause term) (clause term') s := by
  refine .bind lockstep_peek fun kind => ?_
  split
  · exact .bind lockstep_advance fun _ => .bind (lockstep_expect hr _) fun _ =>
      .bind (lockstep_integer hr) fun _ => .bind (lockstep_expect hr _) fun _ => .pure _
  · exact lockstep_sensorClause hr _
  · exact lockstep_advance_bind fun _ => hterm.bind fun _ =>
      .bind (lockstep_expect hr _) fun _ => .pure _
  · exact lockstep_noViable _

theorem lockstep_negation : Lockstep n (negation term) (negation term') s := by
  refine .bind (lockstep_eat _) fun found => ?_
  cases found with
  | some operator => exact .bind (lockstep_clause hr hterm) fun _ => .pure _
  | none => exact .bind (lockstep_clause hr hterm) fun _ => .pure _

/-- Each further clause stands behind its "and". -/
theorem lockstep_conjunction : Lockstep n (conjunction term) (conjunction term') s :=
  .bind (lockstep_negation hr hterm) fun _ => (lockstep_negation hr hterm).chain _

end Conditions

/-- Conditions keep in lockstep; each layer stands behind a parenthesis. -/
theorem lockstep_term : Lockstep n term term s :=
  .nested (fun _ => True) trivial (fun _ _ => trivial) fun _ _ _ _ hinner =>
    .bind (lockstep_conjunction hr hinner) fun _ => (lockstep_conjunction hr hinner).chain _

theorem lockstep_parameter : Lockstep n parameter parameter s :=
  .bind (lockstep_expect hr _) fun _ => .bind (lockstep_eat _) fun _ =>
    .bind (lockstep_expect hr _) fun _ => .pure _

end Shared

end Rule
end RobotLang
