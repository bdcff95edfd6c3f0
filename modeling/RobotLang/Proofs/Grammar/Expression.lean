/-
  RobotLang.Proofs.Grammar.Expression
  ───────────────────────────────────
  **THE GRAMMAR OF NUMBERS AND CONDITIONS, AND ITS TREES.**

      term           :=  andTerm ('or' andTerm)*
      andTerm        :=  notTerm ('and' notTerm)*
      notTerm        :=  'not'? clause
      clause         :=  isZeroClause | boolFunClause | '(' term ')'
      isZeroClause   :=  'iszero' '(' integer ')'
      boolFunClause  :=  boolFun ('(' ')')?
      integer        :=  name | literal | succPred '(' integer ')'

  Where a sensor may not have parentheses, a clause is a bare `boolFun`
  instead.  The rules are for any grammar that has symbols for them, so both
  dialects can take them in.

  The trees are the derivations.  The kinds of a spelled tree's tokens are
  derivable, and tokens whose kinds are derivable and whose literals can be
  held are the tokens of a spelled tree (`exists_tree_of_matches`, by way of
  `Derives.toMatches`).
-/
import RobotLang.Proofs.Grammar
import RobotLang.Proofs.Spelling

namespace RobotLang

/-! ## §1. The rules. -/

/-- The symbols that both dialects share. -/
inductive ExpressionSymbol where
  | term | andTerm | notTerm | clause | isZeroClause | boolFunClause | boolFun
  | integer | succPred
  deriving DecidableEq, Repr

namespace ExpressionSymbol

variable {R : Type}

/-- The rules for the shared symbols, which stand in the grammar as `embed`
says. -/
def phrase (parens : Bool) (embed : ExpressionSymbol → R) : ExpressionSymbol → Phrase R
  | .term =>
    .seq (.symbol (embed .andTerm)) (.star (.inOrder [.token .or_, .symbol (embed .andTerm)]))
  | .andTerm =>
    .seq (.symbol (embed .notTerm)) (.star (.inOrder [.token .and_, .symbol (embed .notTerm)]))
  | .notTerm => .seq (.opt (.token .not_)) (.symbol (embed .clause))
  | .clause =>
    .oneOf (.symbol (embed .isZeroClause))
      [.symbol (embed (if parens then .boolFunClause else .boolFun)),
        .inOrder [.token .leftParen, .symbol (embed .term), .token .rightParen]]
  | .isZeroClause =>
    .inOrder [.token .isZero, .token .leftParen, .symbol (embed .integer), .token .rightParen]
  | .boolFunClause =>
    .seq (.symbol (embed .boolFun)) (.opt (.inOrder [.token .leftParen, .token .rightParen]))
  | .boolFun => .word Kind.sensors
  | .integer =>
    .oneOf (.token .identifier)
      [.token .integerLiteral,
        .inOrder [.symbol (embed .succPred), .token .leftParen, .symbol (embed .integer),
          .token .rightParen]]
  | .succPred => .word [.succ, .pred]

/-- The symbol for conditions of a level. -/
def ofLevel : Level → ExpressionSymbol
  | .term => .term
  | .conjunction => .andTerm
  | .literal => .notTerm
  | .clause => .clause

end ExpressionSymbol

/-! ## §2. A tree is a derivation. -/

section Derivations

variable {R : Type} {g : R → Phrase R} {parens : Bool} {embed : ExpressionSymbol → R}

/-- A spelled number is a derivation from the symbol of numbers, by induction on how deep it
nests. -/
theorem Integer.derives (hg : ∀ e, g (embed e) = e.phrase parens embed) {n : Integer}
    (hn : n.Spelled) :
    Derives g (.symbol (embed .integer)) (n.children.tokens.map (·.kind)) := by
  induction n with
  | name t =>
    have hk : t.kind = .identifier := hn
    have h := Derives.ofRule (hg .integer) (.oneOf (by simp) (.token .identifier))
    simpa [Integer.children, hk] using h
  | literal t value =>
    have h := Derives.ofRule (hg .integer) (.oneOf (by simp) (.token .integerLiteral))
    simpa [Integer.children, hn.1] using h
  | succ keyword left inner right ih | pred keyword left inner right ih =>
    obtain ⟨hk, hl, hi, hr⟩ := hn
    have hword : Derives g (.symbol (embed .succPred)) [keyword.kind] :=
      .ofRule (hg .succPred) (.word (by simp [hk]))
    have hcall : Derives g (.inOrder [.symbol (embed .succPred), .token .leftParen,
        .symbol (embed .integer), .token .rightParen]) _ :=
      .seq hword (.seq (.token _) (.seq (ih hi) (.seq (.token _) .nothing)))
    have h := Derives.ofRule (hg .integer) (.oneOf (by simp) hcall)
    simpa [Integer.children, hl, hr] using h

theorem derives_boolFun (hg : ∀ e, g (embed e) = e.phrase parens embed) (x : Sensor) :
    Derives g (.symbol (embed .boolFun)) [.sensor x] :=
  .ofRule (hg .boolFun) (.word (List.mem_map_of_mem (Sensor.mem_all x)))

/-- A condition at any level is a derivation from the level's symbol.  Each level has its own rule,
and a condition that is only one of the next level is an instance of it too. -/
theorem Condition.derives (hg : ∀ e, g (embed e) = e.phrase parens embed) {level : Level}
    {c : Condition level} (hc : c.Spelled parens) :
    Derives g (.symbol (embed (.ofLevel level))) (c.children.tokens.map (·.kind)) := by
  unfold ExpressionSymbol.ofLevel
  induction c with
  | conj c ih =>
    have h := Derives.ofRule (hg .term) (.seq (ih hc) .starNil)
    simpa [Condition.children] using h
  | or left operator right ihleft ihright =>
    obtain ⟨hl, ho, hr⟩ := hc
    -- a chain leans to the left, and its rule repeats to the right
    have h := Derives.snoc (hg .term) (ihleft hl) (.seq (.token _) (.seq (ihright hr) .nothing))
    simpa [Condition.children, ho] using h
  | lit c ih =>
    have h := Derives.ofRule (hg .andTerm) (.seq (ih hc) .starNil)
    simpa [Condition.children] using h
  | and left operator right ihleft ihright =>
    obtain ⟨hl, ho, hr⟩ := hc
    have h := Derives.snoc (hg .andTerm) (ihleft hl) (.seq (.token _) (.seq (ihright hr) .nothing))
    simpa [Condition.children, ho] using h
  | plain c ih =>
    have h := Derives.ofRule (hg .notTerm) (.seq .optNone (ih hc))
    simpa [Condition.children] using h
  | not operator c ih =>
    obtain ⟨ho, hc⟩ := hc
    have h := Derives.ofRule (hg .notTerm) (.seq (.optSome (.token _)) (ih hc))
    simpa [Condition.children, ho] using h
  | isZero keyword left n right =>
    obtain ⟨hk, hl, hn, hr⟩ := hc
    have hzero := Derives.ofRule (hg .isZeroClause)
      (.seq (.token _) (.seq (.token _) (.seq (n.derives hg hn) (.seq (.token _) .nothing))))
    have h := Derives.ofRule (hg .clause) (.oneOf (by simp) hzero)
    simpa [Condition.children, hk, hl, hr] using h
  | sensor x keyword =>
    have hk : keyword.kind = .sensor x := hc
    have hsensor : Derives g
        (.symbol (embed (if parens then .boolFunClause else .boolFun))) [.sensor x] := by
      cases parens with
      | false => exact derives_boolFun hg x
      | true => exact .ofRule (hg .boolFunClause) (.seq (derives_boolFun hg x) .optNone)
    have h := Derives.ofRule (hg .clause) (.oneOf (by simp) hsensor)
    simpa [Condition.children, Condition.sensorWord, hk] using h
  | sensorCall x keyword left right =>
    obtain ⟨rfl, hk, hl, hr⟩ := hc
    have hsensor := Derives.ofRule (hg .boolFunClause)
      (.seq (derives_boolFun hg x) (.optSome (.seq (.token _) (.seq (.token _) .nothing))))
    have h := Derives.ofRule (hg .clause) (.oneOf (by simp) hsensor)
    simpa [Condition.children, Condition.sensorWord, hk, hl, hr] using h
  | paren left c right ih =>
    obtain ⟨hl, hc, hr⟩ := hc
    have hparen : Derives g (.inOrder [.token .leftParen, .symbol (embed .term),
        .token .rightParen]) _ :=
      .seq (.token _) (.seq (ih hc) (.seq (.token _) .nothing))
    have h := Derives.ofRule (hg .clause) (.oneOf (by simp) hparen)
    simpa [Condition.children, hl, hr] using h

end Derivations

/-! ## §3. A derivation is a tree. -/

/-- A literal whose number can be held. -/
def Token.LiteralFits (t : Token) : Prop :=
  t.kind = .integerLiteral → Holdable t.image

/-- Only literals have to fit. -/
theorem Token.literalFits_of_kind {t : Token} {kind : Kind} (h : t.kind = kind)
    (hk : kind ≠ .integerLiteral) : t.LiteralFits :=
  fun hl => absurd (h.symm.trans hl) hk

theorem Token.literalFits_of_mem {t : Token} (h : t.kind ∈ expressionKinds) : t.LiteralFits := by
  have hnone : Kind.integerLiteral ∉ expressionKinds := by decide
  exact Token.literalFits_of_kind rfl fun hl => hnone (hl ▸ h)

/-- Literals that are digits alone only have to be small enough. -/
theorem Token.literalFits_iff_of_isDigits {t : Token}
    (h : t.kind = .integerLiteral → IsDigits t.image) :
    t.LiteralFits ↔ (t.kind = .integerLiteral → decimal t.image ≤ 2 ^ 63 - 1) :=
  forall_congr' fun hk => holdable_iff_of_isDigits (h hk)

/-- A literal that stands for a number of 64 bits fits. -/
theorem Token.literalFits_of_value {t : Token} {value : Int64}
    (h : StandsFor t.image value.toInt) : t.LiteralFits :=
  fun _ => holdable_iff.mpr ⟨value, h⟩

theorem Integer.literalFits {n : Integer} (hn : n.Spelled) :
    ∀ t ∈ n.children.tokens, t.LiteralFits :=
  Integer.forall_mem_tokens (fun _ => Token.literalFits_of_mem)
    (fun _ _ _ => Token.literalFits_of_value) hn

theorem Condition.literalFits {parens : Bool} {level : Level} {c : Condition level}
    (hc : c.Spelled parens) : ∀ t ∈ c.children.tokens, t.LiteralFits :=
  Condition.forall_mem_tokens (fun _ => Token.literalFits_of_mem)
    (fun _ _ _ => Token.literalFits_of_value) hc

/-- The tokens are those of a spelled number. -/
def WritesInteger (ts : List Token) : Prop :=
  ∃ n : Integer, n.Spelled ∧ n.children.tokens = ts

/-- The condition is spelled, by these tokens. -/
def Condition.WrittenAs (parens : Bool) {level : Level} (c : Condition level)
    (ts : List Token) : Prop :=
  c.Spelled parens ∧ c.children.tokens = ts

/-- The tokens are those of a spelled condition. -/
def WritesCondition (parens : Bool) (level : Level) (ts : List Token) : Prop :=
  ∃ c : Condition level, c.WrittenAs parens ts

/-- What a shared symbol stands for. -/
def ExpressionSymbol.Writes (parens : Bool) : ExpressionSymbol → List Token → Prop
  | .term, ts => WritesCondition parens .term ts
  | .andTerm, ts => WritesCondition parens .conjunction ts
  | .notTerm, ts => WritesCondition parens .literal ts
  | .clause, ts => WritesCondition parens .clause ts
  | .isZeroClause, ts => WritesCondition parens .clause ts
  | .boolFunClause, ts => WritesCondition true .clause ts
  | .boolFun, ts => ∃ t x, ts = [t] ∧ t.kind = .sensor x
  | .integer, ts => WritesInteger ts
  | .succPred, ts => ∃ t, ts = [t] ∧ (t.kind = .succ ∨ t.kind = .pred)

section Matching

variable {R : Type} {parens : Bool} {embed : ExpressionSymbol → R}
  {meaning : R → List Token → Prop} {ts : List Token}

/-- Items with operators between them join to a tree of all their tokens.  The rule repeats the
items to the right, and the tree leans to the left, so they are joined from the left one by one. -/
theorem exists_joined_of_matches {α β : Type} {name : R} {operator : Kind} {good : Token → Prop}
    {written' : β → List Token → Prop} (written : α → List Token → Prop) (start : β → α)
    (join : α → Token → β → α) (hm : ∀ ts, meaning name ts → ∃ b, written' b ts)
    (hstart : ∀ b ts, written' b ts → written (start b) ts)
    (hjoin : ∀ a t b us vs, written a us → t.kind = operator → written' b vs →
      written (join a t b) (us ++ t :: vs))
    (h : (Phrase.seq (.symbol name)
      (.star (.inOrder [.token operator, .symbol name]))).Matches meaning good ts) :
    ∃ a, written a ts := by
  obtain ⟨us, _, rfl, hfirst, parts, rfl, hparts⟩ := h
  obtain ⟨b, hb⟩ := hm us hfirst
  have hstarted := hstart b us hb
  generalize start b = a at hstarted
  clear hfirst hb
  -- what was joined so far, and its tokens, change from part to part
  induction parts generalizing a us with
  | nil => exact ⟨a, by simpa using hstarted⟩
  | cons part parts ih =>
    rw [List.forall_mem_cons] at hparts
    obtain ⟨t, _, rfl, ht, _, hrest⟩ := Phrase.matches_inOrder_token.mp hparts.1
    obtain ⟨vs, _, rfl, hitem, rfl⟩ := Phrase.matches_inOrder_cons.mp hrest
    obtain ⟨b', hb'⟩ := hm vs hitem
    have h := ih _ hparts.2 _ (hjoin a t b' us vs hstarted ht hb')
    simpa using h

/-- What the rule of numbers matches is a number.  A literal among it fits, so it has a value. -/
theorem writesInteger_of_matches (hm : ∀ e ts, meaning (embed e) ts → e.Writes parens ts)
    (h : (ExpressionSymbol.integer.phrase parens embed).Matches meaning Token.LiteralFits ts) :
    WritesInteger ts := by
  obtain ⟨p, hp, h⟩ := Phrase.matches_oneOf.mp h
  simp only [List.mem_cons, List.not_mem_nil, or_false] at hp
  rcases hp with rfl | rfl | rfl
  · obtain ⟨t, rfl, ht, _⟩ := Phrase.matches_token.mp h
    exact ⟨.name t, ht, rfl⟩
  · obtain ⟨t, rfl, ht, hfits⟩ := Phrase.matches_token.mp h
    obtain ⟨value, hvalue⟩ := holdable_iff.mp (hfits ht)
    exact ⟨.literal t value, ⟨ht, hvalue⟩, rfl⟩
  · obtain ⟨_, _, rfl, hword, h⟩ := Phrase.matches_inOrder_cons.mp h
    obtain ⟨left, _, rfl, hl, _, h⟩ := Phrase.matches_inOrder_token.mp h
    obtain ⟨_, _, rfl, hn, h⟩ := Phrase.matches_inOrder_cons.mp h
    obtain ⟨right, _, rfl, hr, _, rfl⟩ := Phrase.matches_inOrder_token.mp h
    obtain ⟨keyword, rfl, hk⟩ := hm _ _ hword
    obtain ⟨n, hspelled, rfl⟩ := hm _ _ hn
    rcases hk with hk | hk
    · exact ⟨.succ keyword left n right, ⟨hk, hl, hspelled, hr⟩, by simp [Integer.children]⟩
    · exact ⟨.pred keyword left n right, ⟨hk, hl, hspelled, hr⟩, by simp [Integer.children]⟩

theorem writesClause_of_matches (hm : ∀ e ts, meaning (embed e) ts → e.Writes parens ts)
    (h : (ExpressionSymbol.clause.phrase parens embed).Matches meaning Token.LiteralFits ts) :
    WritesCondition parens .clause ts := by
  obtain ⟨p, hp, h⟩ := Phrase.matches_oneOf.mp h
  simp only [List.mem_cons, List.not_mem_nil, or_false] at hp
  rcases hp with rfl | rfl | rfl
  · exact hm _ _ h
  · cases parens with
    | true => exact hm _ _ h
    | false =>
      obtain ⟨t, x, rfl, ht⟩ := hm _ _ h
      exact ⟨.sensor x t, ht, rfl⟩
  · obtain ⟨left, _, rfl, hl, _, h⟩ := Phrase.matches_inOrder_token.mp h
    obtain ⟨_, _, rfl, hc, h⟩ := Phrase.matches_inOrder_cons.mp h
    obtain ⟨right, _, rfl, hr, _, rfl⟩ := Phrase.matches_inOrder_token.mp h
    obtain ⟨c, hspelled, rfl⟩ := hm _ _ hc
    exact ⟨.paren left c right, ⟨hl, hspelled, hr⟩, by simp [Condition.children]⟩

/-- What the rule of a shared symbol matches is what the symbol stands for.  One case for each rule
of the shared part of the grammar; the two dialects differ in the parentheses behind a sensor
only. -/
theorem ExpressionSymbol.writes_of_matches
    (hm : ∀ e ts, meaning (embed e) ts → e.Writes parens ts) (e : ExpressionSymbol)
    (h : (e.phrase parens embed).Matches meaning Token.LiteralFits ts) : e.Writes parens ts := by
  cases e with
  | integer => exact writesInteger_of_matches hm h
  | clause => exact writesClause_of_matches hm h
  | succPred =>
    obtain ⟨t, rfl, ht, _⟩ := Phrase.matches_word.mp h
    exact ⟨t, rfl, by simpa using ht⟩
  | boolFun =>
    obtain ⟨t, rfl, ht, _⟩ := Phrase.matches_word.mp h
    obtain ⟨x, _, hx⟩ := List.mem_map.mp ht
    exact ⟨t, x, rfl, hx.symm⟩
  | isZeroClause =>
    obtain ⟨keyword, _, rfl, hk, _, h⟩ := Phrase.matches_inOrder_token.mp h
    obtain ⟨left, _, rfl, hl, _, h⟩ := Phrase.matches_inOrder_token.mp h
    obtain ⟨_, _, rfl, hn, h⟩ := Phrase.matches_inOrder_cons.mp h
    obtain ⟨right, _, rfl, hr, _, rfl⟩ := Phrase.matches_inOrder_token.mp h
    obtain ⟨n, hspelled, rfl⟩ := hm _ _ hn
    exact ⟨.isZero keyword left n right, ⟨hk, hl, hspelled, hr⟩, by simp [Condition.children]⟩
  | boolFunClause =>
    obtain ⟨_, _, rfl, hword, h⟩ := h
    obtain ⟨keyword, x, rfl, hk⟩ := hm _ _ hword
    rcases h with rfl | h
    · exact ⟨.sensor x keyword, hk, rfl⟩
    · obtain ⟨left, _, rfl, hl, _, h⟩ := Phrase.matches_inOrder_token.mp h
      obtain ⟨right, _, rfl, hr, _, rfl⟩ := Phrase.matches_inOrder_token.mp h
      exact ⟨.sensorCall x keyword left right, ⟨rfl, hk, hl, hr⟩, rfl⟩
  | notTerm =>
    obtain ⟨_, _, rfl, hnot, hclause⟩ := h
    obtain ⟨c, hc, rfl⟩ := hm _ _ hclause
    rcases hnot with rfl | hnot
    · exact ⟨.plain c, hc, by simp [Condition.children]⟩
    · obtain ⟨operator, rfl, ho, _⟩ := Phrase.matches_token.mp hnot
      exact ⟨.not operator c, ⟨ho, hc⟩, by simp [Condition.children]⟩
  | andTerm =>
    -- both chains fold what the rule repeats from the left
    refine exists_joined_of_matches (Condition.WrittenAs parens) Condition.lit Condition.and
      (fun ts h => hm .notTerm ts h) ?_ ?_ h
    · rintro c _ ⟨hc, rfl⟩
      exact ⟨hc, by simp [Condition.children]⟩
    · rintro a t b _ _ ⟨ha, rfl⟩ ht ⟨hb, rfl⟩
      exact ⟨⟨ha, ht, hb⟩, by simp [Condition.children]⟩
  | term =>
    refine exists_joined_of_matches (Condition.WrittenAs parens) Condition.conj Condition.or
      (fun ts h => hm .andTerm ts h) ?_ ?_ h
    · rintro c _ ⟨hc, rfl⟩
      exact ⟨hc, by simp [Condition.children]⟩
    · rintro a t b _ _ ⟨ha, rfl⟩ ht ⟨hb, rfl⟩
      exact ⟨⟨ha, ht, hb⟩, by simp [Condition.children]⟩

end Matching

/-! ## §4. Parameters. -/

section Parameters

variable {R : Type}

/-- What stands in parentheses after the name of a new function. -/
theorem Parameter.derives {g : R → Phrase R} {name : R}
    (hg : g name = .inOrder [.token .leftParen, .opt (.token .identifier), .token .rightParen])
    {p : Parameter} (hp : p.Spelled) :
    Derives g (.symbol name) (p.children.tokens.map (·.kind)) := by
  obtain ⟨left, name, right⟩ := p
  obtain ⟨(hl : left.kind = _), hn, (hr : right.kind = _)⟩ := hp
  have hname : Derives g (.opt (.token .identifier)) (name.toList.map (·.kind)) := by
    cases name with
    | none => exact .optNone
    | some t =>
      have ht : t.kind = .identifier := hn t rfl
      simpa [ht] using Derives.optSome (.token .identifier)
  have h := Derives.ofRule hg (.seq (.token _) (.seq hname (.seq (.token _) .nothing)))
  cases name <;> simpa [Parameter.children, hl, hr] using h

theorem exists_parameter_of_matches {meaning : R → List Token → Prop} {good : Token → Prop}
    {ts : List Token}
    (h : (Phrase.inOrder [.token .leftParen, .opt (.token .identifier),
      .token .rightParen]).Matches meaning good ts) :
    ∃ p : Parameter, p.Spelled ∧ p.children.tokens = ts := by
  obtain ⟨left, _, rfl, hl, _, h⟩ := Phrase.matches_inOrder_token.mp h
  obtain ⟨_, _, rfl, hname, h⟩ := Phrase.matches_inOrder_cons.mp h
  obtain ⟨right, _, rfl, hr, _, rfl⟩ := Phrase.matches_inOrder_token.mp h
  rcases hname with rfl | hname
  · exact ⟨⟨left, none, right⟩, ⟨hl, by simp, hr⟩, rfl⟩
  · obtain ⟨name, rfl, hn, _⟩ := Phrase.matches_token.mp hname
    exact ⟨⟨left, some name, right⟩, ⟨hl, by simpa using hn, hr⟩, rfl⟩

end Parameters

end RobotLang
