/-
  RobotLang.Proofs.Rule.Expression
  ────────────────────────────────
  **NUMBERS, CONDITIONS AND PARAMETERS ARE SPELLED BY WHAT WAS READ.**

  Each of the shared rules makes a spelled tree and leaves a trace of its
  tokens, whatever the setting.  The rules that nest are taken layer by
  layer: what the inner rule promises, the layer around it promises too.
-/
import RobotLang.Proofs.Rule.Reading
import RobotLang.Proofs.Spelling

namespace RobotLang.Rule

variable {α β : Type} {s : Setting} {ts rest : List Token} {cs : List Diagnostic}

/-! ## §1. Numbers. -/

/-- What stands in parentheses, read with its parentheses. -/
theorem reads_parenthesised {inner : Rule α} {good : α → Prop} {tokens : α → List Token}
    {build : Token → α → Token → β} {b : β} (hs : s.stop.kind = .eof)
    (h : Makes inner s good tokens)
    (he : Ends (do return build (← expect .leftParen) (← inner) (← expect .rightParen))
      s ts b rest cs) :
    ∃ left a right, b = build left a right ∧ left.kind = .leftParen ∧ good a
      ∧ right.kind = .rightParen ∧ Reads s ts (left :: tokens a ++ [right]) cs rest := by
  obtain ⟨left, ts₁, cs₁, _, hl, he₁, rfl⟩ := ends_bind.mp he
  obtain ⟨a, ts₂, cs₂, _, ha, he₂, rfl⟩ := ends_bind.mp he₁
  obtain ⟨right, ts₃, cs₃, _, hr, he₃, rfl⟩ := ends_bind.mp he₂
  obtain ⟨rfl, rfl, rfl⟩ := ends_pure.mp he₃
  obtain ⟨hlk, hlr⟩ := makes_expect hs (by decide) hl
  obtain ⟨hga, har⟩ := h ha
  obtain ⟨hrk, hrr⟩ := makes_expect hs (by decide) hr
  exact ⟨left, a, right, rfl, hlk, hga, hrk, by simpa using hlr.trans (har.trans hrr)⟩

/-- A number is spelled, and made of what was read, if the number nested in it is.  The token at
hand chooses between a name, a literal that has a value, and `succ` and `pred`. -/
theorem makes_integerStep {inner : Rule Integer} (hs : s.stop.kind = .eof)
    (h : Makes inner s Integer.Spelled (·.children.tokens)) :
    Makes (integerStep inner) s Integer.Spelled (·.children.tokens) := by
  intro ts n rest cs he
  simp only [integerStep, ends_peek_bind] at he
  split at he
  · next hk =>
    obtain ⟨t, tail, rfl, ht⟩ := exists_cons_of_front_kind hs (by decide) hk
    simp only [ends_advance_bind, ends_pure] at he
    obtain ⟨rfl, rfl, rfl⟩ := he
    exact ⟨ht, .one t _⟩
  · next hk =>
    obtain ⟨t, tail, rfl, ht⟩ := exists_cons_of_front_kind hs (by decide) hk
    simp only [literal, ends_advance_bind, front_cons, List.tail_cons] at he
    split at he
    · next value hv =>
      obtain ⟨rfl, rfl, rfl⟩ := ends_pure.mp he
      exact ⟨⟨ht, literalValue?_eq_some_iff.mp hv⟩, .one t _⟩
    · exact absurd he ends_complain_giveUp
  · next hk =>
    obtain ⟨t, tail, rfl, ht⟩ := exists_cons_of_front_kind hs (by decide) hk
    rw [ends_advance_bind] at he
    obtain ⟨left, inner, right, rfl, hl, hi, hr, hread⟩ := reads_parenthesised hs h he
    exact ⟨⟨ht, hl, hi, hr⟩, .take t hread⟩
  · next hk =>
    obtain ⟨t, tail, rfl, ht⟩ := exists_cons_of_front_kind hs (by decide) hk
    rw [ends_advance_bind] at he
    obtain ⟨left, inner, right, rfl, hl, hi, hr, hread⟩ := reads_parenthesised hs h he
    exact ⟨⟨ht, hl, hi, hr⟩, .take t hread⟩
  · exact absurd he ends_noViable

/-- Numbers of any depth are spelled, and made of the tokens that were read. -/
theorem makes_integer (hs : s.stop.kind = .eof) :
    Makes integer s Integer.Spelled (·.children.tokens) :=
  makes_nested fun _ h => makes_integerStep hs h

/-! ## §2. Conditions. -/

/-- A condition is spelled, and its tokens are what was read. -/
abbrev MakesCondition {level : Level} (rule : Rule (Condition level)) (s : Setting) : Prop :=
  Makes rule s (·.Spelled s.sensorParens) (·.children.tokens)

/-- A sensor is made of its word, and of its parentheses where the setting has them. -/
theorem makes_sensorClause {sensor : Sensor} (hs : s.stop.kind = .eof)
    (hk : (front s ts).kind = .sensor sensor) {c : Condition .clause}
    (he : Ends (sensorClause sensor) s ts c rest cs) :
    c.Spelled s.sensorParens ∧ Reads s ts c.children.tokens cs rest := by
  obtain ⟨t, tail, rfl, ht⟩ := exists_cons_of_front_kind hs (by simp) hk
  simp only [sensorClause, ends_advance_bind, ends_setting_bind, front_cons, List.tail_cons,
    ends_ite, ends_eat_bind] at he
  rcases he with ⟨hparens, he⟩ | ⟨_, he⟩
  · split at he
    · next hl =>
      obtain ⟨left, tail, rfl, hl⟩ := exists_cons_of_front_kind hs (by decide) hl
      obtain ⟨right, _, cs₁, _, hr, he₁, rfl⟩ := ends_bind.mp he
      obtain ⟨rfl, rfl, rfl⟩ := ends_pure.mp he₁
      obtain ⟨hrk, hrr⟩ := makes_expect hs (by decide) hr
      exact ⟨⟨hparens, ht, hl, hrk⟩, .take t (.take left (by simpa using hrr))⟩
    · obtain ⟨rfl, rfl, rfl⟩ := ends_pure.mp he
      exact ⟨ht, .one t _⟩
  · obtain ⟨rfl, rfl, rfl⟩ := ends_pure.mp he
    exact ⟨ht, .one t _⟩

/-- A clause is made of what was read if the condition nested in it is.  The token at hand chooses
between the test for zero, a sensor, and parentheses. -/
theorem makes_clause {term : Rule (Condition .term)} (hs : s.stop.kind = .eof)
    (h : MakesCondition term s) : MakesCondition (clause term) s := by
  intro ts c rest cs he
  simp only [clause, ends_peek_bind] at he
  split at he
  · next hk =>
    obtain ⟨t, tail, rfl, ht⟩ := exists_cons_of_front_kind hs (by decide) hk
    rw [ends_advance_bind] at he
    obtain ⟨left, n, right, rfl, hl, hn, hr, hread⟩ := reads_parenthesised hs (makes_integer hs) he
    exact ⟨⟨ht, hl, hn, hr⟩, by simpa [Condition.children] using .take t hread⟩
  · next sensor hk => exact makes_sensorClause hs hk he
  · next hk =>
    obtain ⟨t, tail, rfl, ht⟩ := exists_cons_of_front_kind hs (by decide) hk
    rw [ends_advance_bind] at he
    obtain ⟨c, _, cs₁, _, hc, he₁, rfl⟩ := ends_bind.mp he
    obtain ⟨right, _, cs₂, _, hr, he₂, rfl⟩ := ends_bind.mp he₁
    obtain ⟨rfl, rfl, rfl⟩ := ends_pure.mp he₂
    obtain ⟨hc, hcr⟩ := h hc
    obtain ⟨hrk, hrr⟩ := makes_expect hs (by decide) hr
    exact ⟨⟨ht, hc, hrk⟩, by simpa [Condition.children] using .take t (hcr.trans hrr)⟩
  · exact absurd he ends_noViable

theorem makes_negation {term : Rule (Condition .term)} (hs : s.stop.kind = .eof)
    (h : MakesCondition term s) : MakesCondition (negation term) s := by
  intro ts c rest cs he
  rw [negation, ends_eat_bind] at he
  split at he
  · next hk =>
    obtain ⟨t, tail, rfl, ht⟩ := exists_cons_of_front_kind hs (by decide) hk
    obtain ⟨c, _, cs₁, _, hc, he₁, rfl⟩ := ends_bind.mp he
    obtain ⟨rfl, rfl, rfl⟩ := ends_pure.mp he₁
    obtain ⟨hc, hcr⟩ := makes_clause hs h hc
    exact ⟨⟨ht, hc⟩, by simpa [Condition.children] using .take t hcr⟩
  · obtain ⟨c, _, cs₁, _, hc, he₁, rfl⟩ := ends_bind.mp he
    obtain ⟨rfl, rfl, rfl⟩ := ends_pure.mp he₁
    obtain ⟨hc, hcr⟩ := makes_clause hs h hc
    exact ⟨hc, by simpa [Condition.children] using hcr⟩

/-- A conjunction is made of its clauses and the operators between them. -/
theorem makes_conjunction {term : Rule (Condition .term)} (hs : s.stop.kind = .eof)
    (h : MakesCondition term s) : MakesCondition (conjunction term) s :=
  makes_chain hs (by decide) (makes_negation hs h)
    (fun _ hfirst => ⟨hfirst, by simp [Condition.children]⟩)
    fun _ _ _ ha ht hb => ⟨⟨ha, ht, hb⟩, by simp [Condition.children]⟩

theorem makes_termStep {term : Rule (Condition .term)} (hs : s.stop.kind = .eof)
    (h : MakesCondition term s) : MakesCondition (termStep term) s :=
  makes_chain hs (by decide) (makes_conjunction hs h)
    (fun _ hfirst => ⟨hfirst, by simp [Condition.children]⟩)
    fun _ _ _ ha ht hb => ⟨⟨ha, ht, hb⟩, by simp [Condition.children]⟩

/-- Conditions of any depth are spelled, and made of the tokens that were read. -/
theorem makes_term (hs : s.stop.kind = .eof) : MakesCondition term s :=
  makes_nested fun _ h => makes_termStep hs h

/-! ## §3. Parameters. -/

/-- The parentheses behind a function's name are made of what was read, empty or around one name. -/
theorem makes_parameter (hs : s.stop.kind = .eof) :
    Makes parameter s Parameter.Spelled (·.children.tokens) := by
  intro ts p rest cs he
  obtain ⟨left, _, cs₁, _, hl, he₁, rfl⟩ := ends_bind.mp he
  obtain ⟨hlk, hlr⟩ := makes_expect hs (by decide) hl
  rw [ends_eat_bind] at he₁
  split at he₁
  · next hk =>
    obtain ⟨name, tail, rfl, hn⟩ := exists_cons_of_front_kind hs (by decide) hk
    obtain ⟨right, _, cs₂, _, hr, he₂, rfl⟩ := ends_bind.mp he₁
    obtain ⟨rfl, rfl, rfl⟩ := ends_pure.mp he₂
    obtain ⟨hrk, hrr⟩ := makes_expect hs (by decide) hr
    exact ⟨⟨hlk, by simpa using hn, hrk⟩, by
      simpa [Parameter.children] using hlr.trans (.take name hrr)⟩
  · obtain ⟨right, _, cs₂, _, hr, he₂, rfl⟩ := ends_bind.mp he₁
    obtain ⟨rfl, rfl, rfl⟩ := ends_pure.mp he₂
    obtain ⟨hrk, hrr⟩ := makes_expect hs (by decide) hr
    exact ⟨⟨hlk, by simp, hrk⟩, by simpa [Parameter.children] using hlr.trans hrr⟩

end RobotLang.Rule
