/-
  RobotLang.Proofs.Rule.Completeness
  ──────────────────────────────────
  **A SPELLED TREE IS READ BACK FROM ITS TOKENS.**

  `Rereads rule s good tokens follow size` says that every good tree of at most
  `size` tokens is what the rule ends with on its tokens, without a complaint,
  in front of any rest whose first kind may follow the tree.  One token has to
  be enough to stop at the right place, so `follow` keeps out the kinds that
  the rule would go on with.

  The size is there for rules that nest.  What is nested has fewer tokens than
  what it is nested in, so the bound on the depth is never reached:

      (∀ inner n, Rereads inner … n → Rereads (step inner) … (n + 1))
        →  Rereads (nested step starts) … size
-/
import RobotLang.Proofs.Rule.Ending
import RobotLang.Proofs.Spelling

namespace RobotLang.Rule

variable {α β : Type} {s : Setting} {ts rest : List Token}

/-- Every good tree of at most `size` tokens is read back from its tokens, in
front of whatever may follow it. -/
def Rereads (rule : Rule α) (s : Setting) (good : α → Prop) (tokens : α → List Token)
    (follow : α → Kind → Prop) (size : Nat) : Prop :=
  ∀ ⦃a⦄, good a → (tokens a).length ≤ size → ∀ rest, follow a (front s rest).kind →
    Ends rule s (tokens a ++ rest) a rest []

/-! ## §1. Nesting and repetition. -/

theorem rereads_nested {step : Rule α → Rule α} {starts : List Kind} {good : α → Prop}
    {tokens : α → List Token} {follow : α → Kind → Prop}
    (hpos : ∀ a, good a → 0 < (tokens a).length)
    (hstep : ∀ inner n, Rereads inner s good tokens follow n →
      Rereads (step inner) s good tokens follow (n + 1)) (size : Nat) :
    Rereads (nested step starts) s good tokens follow size := by
  -- a layer for each token is enough
  have hdepth : ∀ depth, Rereads (nestedUpTo step starts depth) s good tokens follow depth := by
    intro depth
    induction depth with
    | zero =>
      intro a ha hlen
      have := hpos a ha
      omega
    | succ depth ih => exact hstep _ _ ih
  intro a ha _ rest hrest
  exact hdepth ((tokens a ++ rest).length + 1) ha (by simp; omega) rest hrest

/-- Items that each start with one of `starts` are read one after the other,
up to a rest that does not. -/
theorem ends_manyUpTo {starts : List Kind} {item : Rule α} {tokens : α → List Token}
    (hrest : (front s rest).kind ∉ starts) {as : List α}
    (hstart : ∀ a ∈ as, ∃ t more, tokens a = t :: more ∧ t.kind ∈ starts)
    (hitem : ∀ a ∈ as, ∀ rest', (front s rest').kind ∈ starts ∨ rest' = rest →
      Ends item s (tokens a ++ rest') a rest' [])
    {bound : Nat} (hbound : as.length ≤ bound) :
    Ends (manyUpTo starts item bound) s (as.flatMap tokens ++ rest) as rest [] := by
  induction as generalizing bound with
  | nil =>
    cases bound with
    | zero => exact ends_pure.mpr ⟨rfl, rfl, rfl⟩
    | succ bound =>
      rw [manyUpTo, ends_isAtAny_bind, ends_ite]
      exact .inr ⟨by simpa using hrest, ends_pure.mpr ⟨rfl, rfl, rfl⟩⟩
  | cons a as ih =>
    rw [List.forall_mem_cons] at hstart hitem
    obtain ⟨t, more, ht, hk⟩ := hstart.1
    cases bound with
    | zero => simp at hbound
    | succ bound =>
      -- the next item, or the rest, stands behind this one
      have hnext : (front s (as.flatMap tokens ++ rest)).kind ∈ starts
          ∨ as.flatMap tokens ++ rest = rest := by
        cases as with
        | nil => exact .inr rfl
        | cons b bs =>
          obtain ⟨u, tail, hu, huk⟩ := hstart.2 b (by simp)
          simp [hu, huk]
      rw [manyUpTo, ends_isAtAny_bind, ends_ite]
      refine .inl ⟨by simpa [ht] using hk, ?_⟩
      rw [List.flatMap_cons, List.append_assoc, ends_bind_of_ends (hitem.1 _ hnext),
        ends_bind_of_ends (ih hstart.2 hitem.2 (by simpa using hbound))]
      exact ends_pure.mpr ⟨rfl, rfl, rfl⟩

/-- There are no more items than tokens, if every item has a token. -/
theorem length_le_flatMap {tokens : α → List Token} {as : List α}
    (h : ∀ a ∈ as, 0 < (tokens a).length) : as.length ≤ (as.flatMap tokens).length := by
  induction as with
  | nil => simp
  | cons a as ih =>
    rw [List.forall_mem_cons] at h
    have := ih h.2
    simp only [List.flatMap_cons, List.length_append, List.length_cons]
    omega

theorem length_tokens_le_flatMap (tokens : α → List Token) {as : List α} {a : α} (h : a ∈ as) :
    (tokens a).length ≤ (as.flatMap tokens).length :=
  (List.sublist_flatten_of_mem (List.mem_map_of_mem h)).length_le

/-- The bound on the number of items is never reached. -/
theorem ends_many {starts : List Kind} {item : Rule α} {tokens : α → List Token}
    (hrest : (front s rest).kind ∉ starts) {as : List α}
    (hstart : ∀ a ∈ as, ∃ t more, tokens a = t :: more ∧ t.kind ∈ starts)
    (hitem : ∀ a ∈ as, ∀ rest', (front s rest').kind ∈ starts ∨ rest' = rest →
      Ends item s (tokens a ++ rest') a rest' []) :
    Ends (many starts item) s (as.flatMap tokens ++ rest) as rest [] := by
  have hlen : as.length ≤ (as.flatMap tokens).length := by
    refine length_le_flatMap fun a ha => ?_
    obtain ⟨t, more, ht, _⟩ := hstart a ha
    simp [ht]
  refine ends_manyUpTo hrest hstart hitem ?_
  rw [List.length_append]
  omega

/-- Further items joined to `a`, each behind its operator. -/
def chained (join : α → Token → β → α) (a : α) (more : List (Token × β)) : α :=
  more.foldl (fun a p => join a p.1 p.2) a

/-- The operators and items of a chain, in order. -/
def chainTokens (tokens : β → List Token) (more : List (Token × β)) : List Token :=
  more.flatMap fun p => p.1 :: tokens p.2

/-- Items behind their operators are joined one after the other, up to a rest
that does not start with the operator. -/
theorem ends_chainUpTo {operator : Kind} {item : Rule β} {join : α → Token → β → α}
    {tokens : β → List Token} (hrest : (front s rest).kind ≠ operator)
    {more : List (Token × β)} (hop : ∀ p ∈ more, p.1.kind = operator)
    (hitem : ∀ p ∈ more, ∀ rest', (front s rest').kind = operator ∨ rest' = rest →
      Ends item s (tokens p.2 ++ rest') p.2 rest' [])
    {bound : Nat} (hbound : more.length ≤ bound) (a : α) :
    Ends (chainUpTo operator item join bound a) s (chainTokens tokens more ++ rest)
      (chained join a more) rest [] := by
  induction more generalizing bound a with
  | nil =>
    cases bound with
    | zero => exact ends_pure.mpr ⟨rfl, rfl, rfl⟩
    | succ bound =>
      show Ends (chainUpTo operator item join (bound + 1) a) s rest a rest []
      rw [chainUpTo, ends_eat_bind_of_ne hrest]
      exact ends_pure.mpr ⟨rfl, rfl, rfl⟩
  | cons p more ih =>
    rw [List.forall_mem_cons] at hop hitem
    cases bound with
    | zero => simp at hbound
    | succ bound =>
      -- behind an item stands the next operator or the rest, and neither is taken for more of it
      have hnext : (front s (chainTokens tokens more ++ rest)).kind = operator
          ∨ chainTokens tokens more ++ rest = rest := by
        cases more with
        | nil => exact .inr rfl
        | cons q more => exact .inl (hop.2 q (by simp))
      have htokens : chainTokens tokens (p :: more) ++ rest
          = p.1 :: (tokens p.2 ++ (chainTokens tokens more ++ rest)) := by
        simp [chainTokens]
      rw [chainUpTo, htokens, ends_eat_bind_of_kind hop.1]
      show Ends (item >>= _) _ _ _ _ _
      rw [ends_bind_of_ends (hitem.1 _ hnext)]
      exact ih hop.2 hitem.2 (by simpa using hbound) _

/-! ## §2. Numbers. -/

/-- What stands in parentheses is read back with them. -/
theorem ends_parenthesised {inner : Rule α} {build : Token → α → Token → β} {a : α}
    {left right : Token} {tokens : List Token} (hl : left.kind = .leftParen)
    (ha : Ends inner s (tokens ++ right :: rest) a (right :: rest) [])
    (hr : right.kind = .rightParen) :
    Ends (do return build (← expect .leftParen) (← inner) (← expect .rightParen)) s
      (left :: (tokens ++ right :: rest)) (build left a right) rest [] := by
  rw [ends_expect_bind_of_kind hl, ends_bind_of_ends ha, ends_expect_bind_of_kind hr]
  exact ends_pure.mpr ⟨rfl, rfl, rfl⟩

/-- A number is read back whatever follows it. -/
abbrev RereadsInteger (rule : Rule Integer) (s : Setting) (size : Nat) : Prop :=
  Rereads rule s Integer.Spelled (·.children.tokens) (fun _ _ => True) size

/-- Numbers of one token more are reread, since what nests in a number has at least three tokens
less. -/
theorem rereads_integerStep {inner : Rule Integer} {size : Nat} (h : RereadsInteger inner s size) :
    RereadsInteger (integerStep inner) s (size + 1) := by
  intro n hn hlen rest _
  cases n with
  | name t =>
    have ht : t.kind = .identifier := hn
    show Ends _ s (t :: rest) _ _ _
    simp [integerStep, ht]
  | literal t value =>
    obtain ⟨ht, hv⟩ := hn
    show Ends _ s (t :: rest) _ _ _
    simp [integerStep, ht, literal, literalValue?_eq_some_iff.mpr hv]
  | succ keyword left inner right =>
    obtain ⟨hk, hl, hi, hr⟩ := hn
    have hinner := h hi (by simp [Integer.children] at hlen ⊢; omega) (right :: rest) trivial
    have htokens : (Integer.succ keyword left inner right).children.tokens ++ rest
        = keyword :: left :: (inner.children.tokens ++ right :: rest) := by
      simp [Integer.children]
    simp only [integerStep, htokens, ends_peek_bind, front_cons, hk, ends_advance_bind,
      List.tail_cons]
    exact ends_parenthesised hl hinner hr
  | pred keyword left inner right =>
    obtain ⟨hk, hl, hi, hr⟩ := hn
    have hinner := h hi (by simp [Integer.children] at hlen ⊢; omega) (right :: rest) trivial
    have htokens : (Integer.pred keyword left inner right).children.tokens ++ rest
        = keyword :: left :: (inner.children.tokens ++ right :: rest) := by
      simp [Integer.children]
    simp only [integerStep, htokens, ends_peek_bind, front_cons, hk, ends_advance_bind,
      List.tail_cons]
    exact ends_parenthesised hl hinner hr

theorem rereads_integer (size : Nat) : RereadsInteger integer s size :=
  rereads_nested (fun n _ => by cases n <;> simp [Integer.children])
    (fun _ _ h => rereads_integerStep h) size

/-! ## §3. Conditions. -/

/-- The kinds that a condition of a level would be read on with. -/
def goesOn : Level → List Kind
  | .term => [.or_, .and_, .leftParen]
  | .conjunction => [.and_, .leftParen]
  | .literal | .clause => [.leftParen]

/-- A condition is read back in front of what does not go on with it. -/
abbrev RereadsCondition {level : Level} (rule : Rule (Condition level)) (s : Setting)
    (size : Nat) : Prop :=
  Rereads rule s (·.Spelled s.sensorParens) (·.children.tokens)
    (fun _ kind => kind ∉ goesOn level) size

/-- Clauses of one token more than conditions are reread.  Behind a sensor no parenthesis may
follow, which would be taken for its own. -/
theorem rereads_clause {term : Rule (Condition .term)} {size : Nat}
    (h : RereadsCondition term s size) : RereadsCondition (clause term) s (size + 1) := by
  intro c hc hlen rest hrest
  have hparen : (front s rest).kind ≠ .leftParen := by simpa [goesOn] using hrest
  cases c with
  | isZero keyword left n right =>
    obtain ⟨hk, hl, hn, hr⟩ := hc
    have hinner := rereads_integer (s := s) size hn
      (by simp [Condition.children] at hlen ⊢; omega) (right :: rest) trivial
    have htokens : (Condition.isZero keyword left n right).children.tokens ++ rest
        = keyword :: left :: (n.children.tokens ++ right :: rest) := by
      simp [Condition.children]
    simp only [clause, htokens, ends_peek_bind, front_cons, hk, ends_advance_bind,
      List.tail_cons]
    exact ends_parenthesised hl hinner hr
  | sensor x keyword =>
    have hk : keyword.kind = .sensor x := hc
    show Ends _ s (keyword :: rest) _ _ _
    by_cases hs : s.sensorParens <;> simp [clause, sensorClause, hk, hs, hparen]
  | sensorCall x keyword left right =>
    obtain ⟨hs, hk, hl, hr⟩ := hc
    show Ends _ s (keyword :: left :: right :: rest) _ _ _
    simp [clause, sensorClause, hk, hs, hl, ends_expect_bind_of_kind hr]
  | paren left c right =>
    obtain ⟨hl, hc, hr⟩ := hc
    -- in parentheses anything may follow: the `)` goes on with nothing
    have hinner := h hc (by simp [Condition.children] at hlen ⊢; omega) (right :: rest)
      (by simp [hr, goesOn])
    have htokens : (Condition.paren left c right).children.tokens ++ rest
        = left :: (c.children.tokens ++ right :: rest) := by
      simp [Condition.children]
    simp only [clause, htokens, ends_peek_bind, front_cons, hl, ends_advance_bind,
      List.tail_cons]
    rw [ends_bind_of_ends hinner, ends_expect_bind_of_kind hr]
    exact ends_pure.mpr ⟨rfl, rfl, rfl⟩

/-- A clause does not start with a "not". -/
theorem front_clause {parens : Bool} {c : Condition .clause} (hc : c.Spelled parens) :
    (front s (c.children.tokens ++ rest)).kind ≠ .not_ := by
  cases c with
  | isZero keyword | sensor _ keyword | sensorCall _ keyword | paren keyword =>
    simp [Condition.Spelled] at hc
    simp [Condition.children, Condition.sensorWord, hc]

/-- Negations are reread as clauses are, with the word in front or without it: no clause starts with
that word. -/
theorem rereads_negation {term : Rule (Condition .term)} {size : Nat}
    (h : RereadsCondition term s size) : RereadsCondition (negation term) s (size + 1) := by
  intro c hc hlen rest hrest
  cases c with
  | plain c =>
    have hclause := rereads_clause h hc (by simpa [Condition.children] using hlen) rest hrest
    have htokens : (Condition.plain c).children.tokens ++ rest = c.children.tokens ++ rest := by
      simp [Condition.children]
    rw [negation, htokens, ends_eat_bind_of_ne (front_clause hc)]
    show Ends (clause term >>= _) _ _ _ _ _
    rw [ends_bind_of_ends hclause]
    exact ends_pure.mpr ⟨rfl, rfl, rfl⟩
  | not operator c =>
    obtain ⟨hop, hc⟩ := hc
    have hclause := rereads_clause h hc (by simp [Condition.children] at hlen ⊢; omega) rest hrest
    have htokens : (Condition.not operator c).children.tokens ++ rest
        = operator :: (c.children.tokens ++ rest) := by
      simp [Condition.children]
    rw [negation, htokens, ends_eat_bind_of_kind hop]
    show Ends (clause term >>= _) _ _ _ _ _
    rw [ends_bind_of_ends hclause]
    exact ends_pure.mpr ⟨rfl, rfl, rfl⟩

/-- A chain is good and has the tokens of its parts, if that is so of each
item joined to it. -/
theorem chained_parts {operator : Kind} {join : α → Token → β → α} {good : α → Prop}
    {good' : β → Prop} {tokens : α → List Token} {tokens' : β → List Token}
    (hjoin : ∀ a t b, tokens (join a t b) = tokens a ++ t :: tokens' b
      ∧ (good (join a t b) → good a ∧ t.kind = operator ∧ good' b))
    (more : List (Token × β)) (a : α) :
    tokens (chained join a more) = tokens a ++ chainTokens tokens' more
      ∧ (good (chained join a more) →
          good a ∧ ∀ p ∈ more, p.1.kind = operator ∧ good' p.2) := by
  induction more generalizing a with
  | nil => simp [chained, chainTokens]
  | cons p more ih =>
    obtain ⟨htokens, hgood⟩ := ih (join a p.1 p.2)
    obtain ⟨htokens', hgood'⟩ := hjoin a p.1 p.2
    refine ⟨?_, fun h => ?_⟩
    · show tokens (chained join (join a p.1 p.2) more) = _
      rw [htokens, htokens']
      simp [chainTokens]
    · obtain ⟨hj, hmore⟩ := hgood h
      obtain ⟨ha, hp⟩ := hgood' hj
      exact ⟨ha, List.forall_mem_cons.mpr ⟨hp, hmore⟩⟩

/-- An item and those chained to it are read back, if every tree is such a
chain, and what may follow the chain is not the operator and may follow an
item. -/
theorem rereads_chain {operator : Kind} {item : Rule β} {start : β → α}
    {join : α → Token → β → α} {good : α → Prop} {good' : β → Prop} {tokens : α → List Token}
    {tokens' : β → List Token} {follow follow' : Kind → Prop} {size : Nat}
    (hitem : Rereads item s good' tokens' (fun _ => follow') size)
    (hshape : ∀ a, ∃ b more, a = chained join (start b) more)
    (hstart : ∀ b, tokens (start b) = tokens' b ∧ (good (start b) → good' b))
    (hjoin : ∀ a t b, tokens (join a t b) = tokens a ++ t :: tokens' b
      ∧ (good (join a t b) → good a ∧ t.kind = operator ∧ good' b))
    (hop : follow' operator) (hfollow : ∀ kind, follow kind → kind ≠ operator ∧ follow' kind) :
    Rereads (item >>= fun b => chain operator item join (start b)) s good tokens
      (fun _ => follow) size := by
  intro a ha hlen rest hrest
  obtain ⟨b, more, rfl⟩ := hshape a
  obtain ⟨htokens, hgood⟩ := chained_parts hjoin more (start b)
  obtain ⟨hb, hmore⟩ := hgood ha
  obtain ⟨hstop, hrest'⟩ := hfollow _ hrest
  rw [htokens, (hstart b).1, List.length_append] at hlen
  -- an operator or the rest stands behind each item
  have hnext : ∀ rest', (front s rest').kind = operator ∨ rest' = rest →
      follow' (front s rest').kind := by
    rintro rest' (h | rfl)
    · exact h ▸ hop
    · exact hrest'
  have hmid : (front s (chainTokens tokens' more ++ rest)).kind = operator
      ∨ chainTokens tokens' more ++ rest = rest := by
    cases more with
    | nil => exact .inr rfl
    | cons p more => exact .inl (hmore p (by simp)).1
  rw [htokens, (hstart b).1, List.append_assoc,
    ends_bind_of_ends (hitem ((hstart b).2 hb) (by omega) _ (hnext _ hmid))]
  refine ends_chainUpTo hstop (fun p hp => (hmore p hp).1) (fun p hp rest' h => ?_) ?_ _
  · have hp' : (p.1 :: tokens' p.2).length ≤ (chainTokens tokens' more).length :=
      length_tokens_le_flatMap (fun p : Token × β => p.1 :: tokens' p.2) hp
    rw [List.length_cons] at hp'
    exact hitem (hmore p hp).2 (by omega) rest' (hnext rest' h)
  · have hlen' : more.length ≤ (chainTokens tokens' more).length :=
      length_le_flatMap fun p _ => by simp
    rw [List.length_append]
    omega

/-- A term is conjunctions joined by "or". -/
theorem exists_chained_or : (c : Condition .term) →
    ∃ first more, c = chained Condition.or (.conj first) more
  | .conj c => ⟨c, [], rfl⟩
  | .or left operator right => by
    obtain ⟨first, more, h⟩ := exists_chained_or left
    exact ⟨first, more ++ [(operator, right)], by rw [h]; simp [chained]⟩

/-- A conjunction is negations joined by "and". -/
theorem exists_chained_and : (c : Condition .conjunction) →
    ∃ first more, c = chained Condition.and (.lit first) more
  | .lit c => ⟨c, [], rfl⟩
  | .and left operator right => by
    obtain ⟨first, more, h⟩ := exists_chained_and left
    exact ⟨first, more ++ [(operator, right)], by rw [h]; simp [chained]⟩

theorem rereads_conjunction {term : Rule (Condition .term)} {size : Nat}
    (h : RereadsCondition term s size) : RereadsCondition (conjunction term) s (size + 1) :=
  rereads_chain (rereads_negation h) exists_chained_and
    (fun _ => ⟨by simp [Condition.children], id⟩)
    (fun _ _ _ => ⟨by simp [Condition.children], id⟩)
    (by decide) (fun kind hk => by simpa [goesOn] using hk)

theorem rereads_termStep {term : Rule (Condition .term)} {size : Nat}
    (h : RereadsCondition term s size) : RereadsCondition (termStep term) s (size + 1) :=
  rereads_chain (rereads_conjunction h) exists_chained_or
    (fun _ => ⟨by simp [Condition.children], id⟩)
    (fun _ _ _ => ⟨by simp [Condition.children], id⟩)
    (by decide) (fun kind hk => by simpa [goesOn] using hk)

/-- Every condition has a token. -/
theorem length_condition_pos {level : Level} (c : Condition level) :
    0 < c.children.tokens.length := by
  induction c <;> simp_all [Condition.children, Condition.sensorWord]

theorem rereads_term (size : Nat) : RereadsCondition term s size :=
  rereads_nested (fun c _ => length_condition_pos c) (fun _ _ h => rereads_termStep h) size

/-! ## §4. Parameters. -/

theorem rereads_parameter (size : Nat) :
    Rereads parameter s Parameter.Spelled (·.children.tokens) (fun _ _ => True) size := by
  rintro ⟨left, name, right⟩ ⟨hl, hn, hr⟩ _ rest _
  have hne : (front s (right :: rest)).kind ≠ .identifier := by
    rw [front_cons, hr]
    decide
  cases name with
  | none =>
    show Ends _ s (left :: right :: rest) _ _ _
    rw [parameter, ends_expect_bind_of_kind hl, ends_eat_bind_of_ne hne,
      ends_expect_bind_of_kind hr]
    exact ends_pure.mpr ⟨rfl, rfl, rfl⟩
  | some name =>
    show Ends _ s (left :: name :: right :: rest) _ _ _
    rw [parameter, ends_expect_bind_of_kind hl, ends_eat_bind_of_kind (hn name rfl),
      ends_expect_bind_of_kind hr]
    exact ends_pure.mpr ⟨rfl, rfl, rfl⟩

end RobotLang.Rule
