/-
  RobotLang.Proofs.Rule.Composition
  ─────────────────────────────────
  **PROPERTIES THAT A RULE HAS WHEN ITS PARTS HAVE THEM.**

  Most of what there is to say about reading is said rule by rule in the same
  way: it holds of looking, of taking and of wanting a token, and a sequence
  has it when all of its parts do.  `Composes P` is that much about `P`.  From
  it alone

      repetition, chains and nesting pass `P` on, since each of them is a
      sequence for any bound on their length, and
      all rules that the dialects share have `P`.
-/
import RobotLang.Proofs.Rule.Reading

namespace RobotLang.Rule

/-- `P` holds of the simple rules and of sequences of rules that have it. -/
structure Composes (P : ∀ {α : Type}, Rule α → Prop) : Prop where
  pure : ∀ {α : Type} (a : α), P (pure a : Rule α)
  bind : ∀ {α β : Type} {first : Rule α} {next : α → Rule β},
    P first → (∀ a, P (next a)) → P (first >>= next)
  /-- Of the setting, a rule asks only whether a sensor may have parentheses. -/
  setting : ∀ {α : Type} {next : Setting → Rule α},
    (∀ s s', s.sensorParens = s'.sensorParens → next s = next s') → (∀ s, P (next s)) →
    P (setting >>= next)
  peek : P peek
  advance : P advance
  eat : ∀ kind, P (eat kind)
  expect : ∀ kind, P (expect kind)
  noViable : ∀ {α : Type} (kinds : List Kind), P (noViable kinds : Rule α)
  literal : P literal
  finish : P finish
  /-- The number of tokens may bound a rule. -/
  bounded : ∀ {α : Type} (rules : Nat → Rule α), (∀ bound, P (rules bound)) →
    P (fun s ts => rules ts.length s ts)

namespace Composes

variable {P : ∀ {α : Type}, Rule α → Prop} (h : Composes P) {α β : Type}

include h

/-! ## §1. Looking, repetition and nesting. -/

/-- Putting a node together is a step that only looks. -/
theorem map {f : α → β} {rule : Rule α} (hrule : P rule) : P (f <$> rule) :=
  h.bind hrule fun a => h.pure (f a)

theorem isAt (kind : Kind) : P (isAt kind) :=
  h.bind h.peek fun _ => h.pure _

theorem isAtAny (kinds : List Kind) : P (isAtAny kinds) :=
  h.bind h.peek fun _ => h.pure _

/-- Items in a row are a sequence as long as the bound allows, so it is enough that an item has the
property. -/
theorem many {starts : List Kind} {item : Rule α} (hitem : P item) : P (many starts item) := by
  refine h.bounded (manyUpTo starts item) fun bound => ?_
  induction bound with
  | zero => exact h.pure []
  | succ bound ih =>
    refine h.bind (h.isAtAny starts) fun b => ?_
    cases b with
    | true => exact h.bind hitem fun a => h.bind ih fun as => h.pure (a :: as)
    | false => exact h.pure []

/-- A chain is a sequence of operators and items. -/
theorem chain {operator : Kind} {item : Rule β} {join : α → Token → β → α} (hitem : P item)
    (a : α) : P (chain operator item join a) := by
  refine h.bounded (chainUpTo operator item join · a) fun bound => ?_
  induction bound generalizing a with
  | zero => exact h.pure a
  | succ bound ih =>
    refine h.bind (h.eat operator) fun found => ?_
    cases found with
    | none => exact h.pure a
    | some token => exact h.bind hitem fun b => ih (join a token b)

/-- A rule nested in itself has the property if each layer has, given that what is nested in it
has. -/
theorem nested {step : Rule α → Rule α} {starts : List Kind}
    (hstep : ∀ inner, P inner → P (step inner)) : P (nested step starts) :=
  h.bounded (fun bound => nestedUpTo step starts (bound + 1)) fun bound =>
    nestedUpTo_induction (P := P) (h.noViable starts) hstep (bound + 1)

/-! ## §2. The rules both dialects share. -/

/-- Reading a number has every property that composes. -/
theorem integer : P integer := by
  refine h.nested fun inner hinner => h.bind h.peek fun kind => ?_
  split
  · exact h.bind h.advance fun _ => h.pure _
  · exact h.literal
  · exact h.bind h.advance fun _ => h.bind (h.expect _) fun _ => h.bind hinner fun _ =>
      h.bind (h.expect _) fun _ => h.pure _
  · exact h.bind h.advance fun _ => h.bind (h.expect _) fun _ => h.bind hinner fun _ =>
      h.bind (h.expect _) fun _ => h.pure _
  · exact h.noViable _

/-- Parentheses behind a sensor are read or not, as the setting has it. -/
theorem sensorClause (sensor : Sensor) : P (sensorClause sensor) := by
  refine h.bind h.advance fun keyword => h.setting (fun s s' hs => by rw [hs]) fun s => ?_
  split
  · refine h.bind (h.eat .leftParen) fun found => ?_
    cases found with
    | some left => exact h.bind (h.expect _) fun _ => h.pure _
    | none => exact h.pure _
  · exact h.pure _

section Conditions

variable {term : Rule (Condition .term)} (hterm : P term)

include hterm

/-- A clause has the property if the condition nested in it has. -/
theorem clause : P (clause term) := by
  refine h.bind h.peek fun kind => ?_
  split
  · exact h.bind h.advance fun _ => h.bind (h.expect _) fun _ => h.bind h.integer fun _ =>
      h.bind (h.expect _) fun _ => h.pure _
  · exact h.sensorClause _
  · exact h.bind h.advance fun _ => h.bind hterm fun _ => h.bind (h.expect _) fun _ => h.pure _
  · exact h.noViable _

theorem negation : P (negation term) := by
  refine h.bind (h.eat .not_) fun found => ?_
  cases found with
  | some operator => exact h.bind (h.clause hterm) fun _ => h.pure _
  | none => exact h.bind (h.clause hterm) fun _ => h.pure _

theorem conjunction : P (conjunction term) :=
  h.bind (h.negation hterm) fun _ => h.chain (h.negation hterm) _

end Conditions

/-- Reading a condition has every property that composes. -/
theorem term : P term :=
  h.nested fun _ hinner => h.bind (h.conjunction hinner) fun _ =>
    h.chain (h.conjunction hinner) _

theorem parameter : P parameter :=
  h.bind (h.expect _) fun _ => h.bind (h.eat _) fun _ => h.bind (h.expect _) fun _ => h.pure _

end Composes

/-! ## §3. Repairs of statements. -/

/-- `P` also holds of wanting a `;` that may be put in, and of lists that resume
after garbage when their closer is wanted right behind them. -/
structure ComposesRepairs (P : ∀ {α : Type}, Rule α → Prop) : Prop extends Composes P where
  expectTerminator : ∀ follow, P (expectTerminator follow)
  list_bind : ∀ {α β : Type} {first resync : List Kind} {closer : Kind} {item : Rule α}
    {next : List α → Token → Rule β}, P item → (∀ as t, P (next as t)) →
    P (list first closer resync item >>= fun as => Rule.expect closer >>= next as)

end RobotLang.Rule
