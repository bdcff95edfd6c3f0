/-
  RobotLang.Proofs.Rule.Exchange
  ──────────────────────────────
  **THE GRAMMAR SEES KINDS, NOT PLACES.**

  A rule looks at the kinds of tokens and at the text of literals, and at
  nothing else.  So if every token is exchanged for another one of the same
  kind, a rule does the same as before: it ends with the same tree from the
  exchanged tokens, leaves the exchanged rest, and complains about the
  exchanged tokens.

      rule s ts               =  ⟨tree, rest, complaints⟩
      rule (s with e) (e ts)  =  ⟨e tree, e rest, complaints about e⟩

  An `Exchange` carries what is asked of it.  `Exchanges` says the above of a
  rule, and passes through sequences, repetition, nesting and repairs.
-/
import Mathlib.Data.List.Forall2
import RobotLang.Proofs.Replacing
import RobotLang.Proofs.Rule.Lockstep

namespace RobotLang

/-! ## §1. Exchanges. -/

/-- A change of tokens that the grammar does not notice. -/
structure Exchange where
  /-- What a token is exchanged for. -/
  apply : Token → Token
  kind_apply : ∀ t, (apply t).kind = t.kind
  /-- A literal keeps its text. -/
  image_apply : ∀ t, t.kind = .integerLiteral → (apply t).image = t.image
  /-- What is put in before a token is put in before the one it is exchanged for. -/
  apply_insertedBefore : ∀ t image,
    apply (t.insertedBefore .semicolon image) = (apply t).insertedBefore .semicolon image

namespace Exchange

instance : CoeFun Exchange fun _ => Token → Token := ⟨apply⟩

attribute [simp] kind_apply apply_insertedBefore

/-- Forgets where a token stands. -/
def unplaced : Exchange where
  apply t := { t with line := 0, column := 0, endLine := 0, offset := 0, endOffset := 0 }
  kind_apply _ := rfl
  image_apply _ _ := rfl
  apply_insertedBefore _ _ := rfl

end Exchange

/-- The setting with its end of input exchanged. -/
def Setting.exchange (s : Setting) (e : Exchange) : Setting :=
  { s with stop := e s.stop }

/-- Two complaints say the same of a token and of what it is exchanged for. -/
inductive Diagnostic.Exchanged (e : Exchange) : Diagnostic → Diagnostic → Prop where
  | atToken (issue : Issue) (t : Token) (expected : Option (List String)) :
      Exchanged e (.atToken issue t expected) (.atToken issue (e t) expected)

namespace Rule

/-! ## §2. Exchanged runs. -/

variable {α β : Type} {e : Exchange} {s : Setting} {ts : List Token}

/-- The second outcome is the first one with its tokens exchanged; `f` exchanges those of the
result. -/
structure Exchanged (e : Exchange) (f : α → α) (o o' : Outcome α) : Prop where
  result : o'.result = o.result.map f
  rest : o'.rest = o.rest.map e
  complaints : List.Forall₂ (Diagnostic.Exchanged e) o.complaints o'.complaints

/-- On any tokens, the second rule makes of the exchanged ones what the first makes of them. -/
def Exchanges (e : Exchange) (f : α → α) (s : Setting) (rule rule' : Rule α) : Prop :=
  ∀ ts, Exchanged e f (rule s ts) (rule' (s.exchange e) (ts.map e))

@[simp] theorem front_exchange (ts : List Token) :
    front (s.exchange e) (ts.map e) = e (front s ts) := by
  cases ts <;> rfl

/-- The kind at hand is the same, also at the end of input. -/
theorem kind_front_exchange (ts : List Token) :
    (front (s.exchange e) (ts.map e)).kind = (front s ts).kind := by
  rw [front_exchange, e.kind_apply]

theorem Exchanges.pure (f : α → α) (a : α) : Exchanges e f s (pure a) (pure (f a)) :=
  fun _ => ⟨rfl, rfl, .nil⟩

/-- What the second rule reads is the exchanged rest of the first, and its complaints follow on.  If
the first rule gives up then so does its counterpart, and neither goes on. -/
theorem Exchanges.bind {f : α → α} {g : β → β} {first first' : Rule α} {next next' : α → Rule β}
    (hfirst : Exchanges e f s first first')
    (hnext : ∀ a, Exchanges e g s (next a) (next' (f a))) :
    Exchanges e g s (first >>= next) (first' >>= next') := by
  intro ts
  obtain ⟨hresult, hrest, hcomplaints⟩ := hfirst ts
  generalize ho : first s ts = o at hresult hrest hcomplaints
  generalize ho' : first' (s.exchange e) (ts.map e) = o' at hresult hrest hcomplaints
  obtain ⟨result, mid, cs⟩ := o
  obtain ⟨result', mid', cs'⟩ := o'
  dsimp only at hresult hrest hcomplaints
  subst hresult hrest
  cases result with
  | none =>
    rw [bind_of_givenUp ho, bind_of_givenUp ho']
    exact ⟨rfl, rfl, hcomplaints⟩
  | some a =>
    obtain ⟨hresult, hrest, hmore⟩ := hnext a mid
    rw [bind_of_some ho, bind_of_some ho']
    exact ⟨hresult, hrest, List.rel_append hcomplaints hmore⟩

/-- Putting a node together from exchanged parts gives the exchanged node. -/
theorem Exchanges.map {f : α → α} {g : β → β} {k : α → β} {rule : Rule α}
    (h : Exchanges e f s rule rule) (hk : ∀ a, k (f a) = g (k a)) :
    Exchanges e g s (k <$> rule) (k <$> rule) :=
  h.bind fun a => by
    show Exchanges e g s (Pure.pure (k a)) (Pure.pure (k (f a)))
    rw [hk]
    exact .pure g (k a)

/-- Tokens that an exchange makes the same are read alike, if they are read without a complaint. -/
theorem ends_of_exchanged {f : α → α} {rule : Rule α} {s' : Setting} {ts' rest : List Token}
    {a : α} (h : ∀ s, Exchanges e f s rule rule) (hs : s.exchange e = s'.exchange e)
    (hts : ts.map e = ts'.map e) (he : Ends rule s ts a rest []) :
    ∃ a' rest', Ends rule s' ts' a' rest' [] ∧ f a' = f a ∧ rest'.map e = rest.map e := by
  obtain ⟨hresult, hrest, hcomplaints⟩ := h s ts
  obtain ⟨hresult', hrest', hcomplaints'⟩ := h s' ts'
  rw [Ends] at he
  rw [he] at hresult hrest hcomplaints
  rw [← hs, ← hts] at hresult' hrest' hcomplaints'
  obtain ⟨a', ha', hfa⟩ := Option.map_eq_some_iff.mp (hresult'.symm.trans hresult)
  have hquiet : (rule s' ts').complaints = [] := by
    rw [List.forall₂_nil_left_iff.mp hcomplaints] at hcomplaints'
    exact List.forall₂_nil_right_iff.mp hcomplaints'
  refine ⟨a', (rule s' ts').rest, ?_, hfa, hrest'.symm.trans hrest⟩
  rw [← hquiet]
  exact ends_of_result ha'

/-! ## §3. Looking, taking and wanting. -/

theorem exchanges_current : Exchanges e e s current current :=
  fun ts => ⟨congrArg some (front_exchange ts), rfl, .nil⟩

/-- Looking at the kind at hand finds the same kind. -/
theorem exchanges_peek : Exchanges e id s peek peek :=
  fun ts => ⟨congrArg some (kind_front_exchange ts), rfl, .nil⟩

theorem exchanges_advance : Exchanges e e s advance advance :=
  fun ts => ⟨congrArg some (front_exchange ts), List.map_tail.symm, .nil⟩

theorem exchanges_isAt (kind : Kind) : Exchanges e id s (isAt kind) (isAt kind) :=
  exchanges_peek.bind fun _ => .pure id _

theorem exchanges_isAtAny (kinds : List Kind) : Exchanges e id s (isAtAny kinds) (isAtAny kinds) :=
  exchanges_peek.bind fun _ => .pure id _

/-- The token taken is the exchanged one, and it is taken under the same condition. -/
theorem exchanges_eat (kind : Kind) : Exchanges e (Option.map e) s (eat kind) (eat kind) := by
  intro ts
  unfold eat
  rw [kind_front_exchange, front_exchange]
  by_cases h : (front s ts).kind = kind
  · rw [if_pos h, if_pos h]
    exact ⟨rfl, List.map_tail.symm, .nil⟩
  · rw [if_neg h, if_neg h]
    exact ⟨rfl, rfl, .nil⟩

theorem exchanges_giveUp {f : α → α} : Exchanges e f s giveUp giveUp :=
  fun _ => ⟨rfl, rfl, .nil⟩

/-- What is said of the token at hand is said of what it is exchanged for. -/
theorem exchanges_mismatch (kinds : List Kind) :
    Exchanges e id s (mismatch kinds) (mismatch kinds) := by
  intro ts
  refine ⟨rfl, rfl, .cons ?_ .nil⟩
  show Diagnostic.Exchanged e (.mismatch (front s ts) (kinds.map s.label))
    (.mismatch (front (s.exchange e) (ts.map e)) (kinds.map s.label))
  rw [front_exchange]
  exact .atToken _ _ _

/-- Giving up complains about what the token at hand is exchanged for. -/
theorem exchanges_noViable {f : α → α} (kinds : List Kind) :
    Exchanges e f s (noViable kinds) (noViable kinds) :=
  (exchanges_mismatch kinds).bind fun _ => exchanges_giveUp

/-- Whether the input ends here is a matter of kinds. -/
theorem exchanges_finish : Exchanges e id s finish finish := by
  refine (exchanges_isAt .eof).bind fun b => ?_
  cases b with
  | true => exact .pure id ()
  | false =>
    refine exchanges_current.bind fun t => .bind (f := id) ?_ fun _ => exchanges_giveUp
    exact fun ts => ⟨rfl, rfl, .cons (.atToken _ _ _) .nil⟩

/-- A stray token is dropped if the wanted kind comes right behind it, which is the same kind as
before. -/
theorem exchanges_dropBefore (kind : Kind) :
    Exchanges e e s (dropBefore kind) (dropBefore kind) := by
  intro ts
  cases ts with
  | nil => exact ⟨rfl, rfl, .nil⟩
  | cons t ts =>
    show Exchanged e e (if s.recovery && (front s ts).kind == kind then _ else _)
      (if s.recovery && (front (s.exchange e) (ts.map e)).kind == kind then _ else _)
    rw [kind_front_exchange, front_exchange]
    split
    · exact ⟨rfl, List.map_tail.symm, .nil⟩
    · exact ⟨rfl, rfl, .nil⟩

/-- A wanted token is found, or the stray one before it dropped, under the same conditions. -/
theorem exchanges_expect (kind : Kind) : Exchanges e e s (expect kind) (expect kind) := by
  refine (exchanges_eat kind).bind fun found => ?_
  cases found with
  | some token => exact .pure e token
  | none => exact (exchanges_mismatch [kind]).bind fun _ => exchanges_dropBefore kind

/-- A rule that reads from the setting what is exchanged with it. -/
theorem Exchanges.setting_bind {f : α → α} {next next' : Setting → Rule α}
    (h : Exchanges e f s (next s) (next' (s.exchange e))) :
    Exchanges e f s (setting >>= next) (setting >>= next') := by
  intro ts
  rw [bind_of_quiet (s := s) rfl, bind_of_quiet (s := s.exchange e) rfl]
  exact h ts

/-- A `;` that is put in is put in before what the token at hand is exchanged for.  The place it
gets is that of the token at hand, with which the exchange commutes. -/
theorem exchanges_expectTerminator (follow : List Kind) :
    Exchanges e e s (expectTerminator follow) (expectTerminator follow) := by
  refine (exchanges_eat .semicolon).bind fun found => ?_
  cases found with
  | some token => exact .pure e token
  | none =>
    refine (exchanges_mismatch [.semicolon]).bind fun _ => .setting_bind ?_
    refine (exchanges_isAtAny follow).bind fun b => ?_
    show Exchanges e e s
      (if s.recovery && b then
        current >>= fun t => pure (t.insertedBefore .semicolon (s.label .semicolon))
      else dropBefore .semicolon)
      (if s.recovery && b then
        current >>= fun t => pure (t.insertedBefore .semicolon (s.label .semicolon))
      else dropBefore .semicolon)
    split
    · refine exchanges_current.bind fun t => ?_
      rw [← e.apply_insertedBefore]
      exact .pure e _
    · exact exchanges_dropBefore .semicolon

/-! ## §4. Repetition and nesting. -/

/-- Items in a row end at the same place.  By induction on the bound of the repetition, which counts
tokens and is the same for both. -/
theorem Exchanges.many {f : α → α} {starts : List Kind} {item : Rule α}
    (h : Exchanges e f s item item) :
    Exchanges e (List.map f) s (many starts item) (many starts item) := by
  have hbound : ∀ bound, Exchanges e (List.map f) s (manyUpTo starts item bound)
      (manyUpTo starts item bound) := by
    intro bound
    induction bound with
    | zero => exact .pure (List.map f) []
    | succ bound ih =>
      refine (exchanges_isAtAny starts).bind fun b => ?_
      cases b with
      | true => exact h.bind fun a => ih.bind fun as => .pure (List.map f) (a :: as)
      | false => exact .pure (List.map f) []
  intro ts
  show Exchanged e _ (manyUpTo starts item ts.length s ts)
    (manyUpTo starts item (ts.map e).length (s.exchange e) (ts.map e))
  rw [List.length_map]
  exact hbound ts.length ts

/-- A chain joins the exchanged items to what it has joined so far.  The number of tokens that
bounds the loop is not changed by an exchange. -/
theorem Exchanges.chain {f : α → α} {g : β → β} {operator : Kind} {item : Rule β}
    {join : α → Token → β → α} (h : Exchanges e g s item item)
    (hjoin : ∀ a t b, join (f a) (e t) (g b) = f (join a t b)) (a : α) :
    Exchanges e f s (chain operator item join a) (chain operator item join (f a)) := by
  have hbound : ∀ bound a, Exchanges e f s (chainUpTo operator item join bound a)
      (chainUpTo operator item join bound (f a)) := by
    intro bound
    induction bound with
    | zero => exact fun a => .pure f a
    | succ bound ih =>
      intro a
      refine (exchanges_eat operator).bind fun found => ?_
      cases found with
      | none => exact .pure f a
      | some token =>
        refine h.bind fun b => ?_
        show Exchanges e f s (chainUpTo operator item join bound (join a token b))
          (chainUpTo operator item join bound (join (f a) (e token) (g b)))
        rw [hjoin]
        exact ih (join a token b)
  intro ts
  show Exchanged e _ (chainUpTo operator item join ts.length a s ts)
    (chainUpTo operator item join (ts.map e).length (f a) (s.exchange e) (ts.map e))
  rw [List.length_map]
  exact hbound ts.length a ts

/-- Nesting is bounded by the number of tokens, which an exchange leaves as it is. -/
theorem Exchanges.nested {f : α → α} {step : Rule α → Rule α} {starts : List Kind}
    (h : ∀ inner, Exchanges e f s inner inner → Exchanges e f s (step inner) (step inner)) :
    Exchanges e f s (nested step starts) (nested step starts) := by
  intro ts
  show Exchanged e f (nestedUpTo step starts (ts.length + 1) s ts)
    (nestedUpTo step starts ((ts.map e).length + 1) (s.exchange e) (ts.map e))
  rw [List.length_map]
  exact nestedUpTo_induction (P := fun rule => Exchanges e f s rule rule)
    (exchanges_noViable starts) h (ts.length + 1) ts

/-- Skipping stops at the same place. -/
theorem skipTo_map (kinds : List Kind) (ts : List Token) :
    skipTo kinds (ts.map e) = (skipTo kinds ts).map e := by
  unfold skipTo
  rw [List.dropWhile_map]
  congr 2
  funext t
  simp

/-- A list goes on at the same place and with the same complaint, or not at all. -/
theorem exchanges_resume (first : List Kind) (closer : Kind) (resync : List Kind) :
    Exchanges e id s (resume first closer resync) (resume first closer resync) := by
  intro ts
  unfold resume
  dsimp only
  rw [← List.map_tail, skipTo_map, kind_front_exchange, kind_front_exchange, kind_front_exchange,
    front_exchange]
  rw [show (s.exchange e).recovery = s.recovery from rfl]
  split
  · exact ⟨rfl, rfl, .nil⟩
  · split
    · exact ⟨rfl, rfl, .cons (.atToken _ _ _) .nil⟩
    · split
      · exact ⟨rfl, rfl, .cons (.atToken _ _ _) .nil⟩
      · exact ⟨rfl, rfl, .nil⟩

/-- A list has the exchanged statements, and skips the same garbage between them.  The number of
tokens that bounds the loop is not changed by an exchange. -/
theorem Exchanges.list {f : α → α} {first resync : List Kind} {closer : Kind} {item : Rule α}
    (h : Exchanges e f s item item) :
    Exchanges e (List.map f) s (list first closer resync item)
      (list first closer resync item) := by
  have hbound : ∀ bound, Exchanges e (List.map f) s (listUpTo first closer resync item bound)
      (listUpTo first closer resync item bound) := by
    intro bound
    induction bound with
    | zero => exact .pure (List.map f) []
    | succ bound ih =>
      refine (exchanges_isAtAny first).bind fun b => ?_
      cases b with
      | true => exact h.bind fun a => ih.bind fun as => .pure (List.map f) (a :: as)
      | false =>
        refine (exchanges_resume first closer resync).bind fun b => ?_
        cases b with
        | true => exact ih
        | false => exact .pure (List.map f) []
  intro ts
  show Exchanged e _ (listUpTo first closer resync item ts.length s ts)
    (listUpTo first closer resync item (ts.map e).length (s.exchange e) (ts.map e))
  rw [List.length_map]
  exact hbound ts.length ts

/-! ## §5. The rules both dialects share. -/

/-- `Exchanges`, where a token of that kind stands at hand. -/
def ExchangesAt (kind : Kind) (e : Exchange) (f : α → α) (s : Setting) (rule rule' : Rule α) :
    Prop :=
  ∀ ts, (front s ts).kind = kind → Exchanged e f (rule s ts) (rule' (s.exchange e) (ts.map e))

/-- The kind at hand chooses the same rule. -/
theorem Exchanges.peek_bind {f : α → α} {next next' : Kind → Rule α}
    (h : ∀ kind, ExchangesAt kind e f s (next kind) (next' kind)) :
    Exchanges e f s (peek >>= next) (peek >>= next') := by
  intro ts
  rw [bind_of_quiet (s := s) rfl, bind_of_quiet (s := s.exchange e) rfl, kind_front_exchange]
  exact h (front s ts).kind ts rfl

/-- A literal keeps its text, and with it its value. -/
theorem exchangesAt_literal :
    ExchangesAt .integerLiteral e (Integer.map e) s literal literal := by
  intro ts h
  unfold literal
  rw [bind_of_quiet (s := s) rfl, bind_of_quiet (s := s.exchange e) rfl, front_exchange,
    e.image_apply _ h]
  cases literalValue? (front s ts).image with
  | some value => exact ⟨rfl, List.map_tail.symm, .nil⟩
  | none => exact ⟨rfl, List.map_tail.symm, .cons (.atToken _ _ _) .nil⟩

/-- Numbers are exchanged token by token; by induction on how deep they nest. -/
theorem exchanges_integer : Exchanges e (Integer.map e) s integer integer := by
  refine .nested fun inner hinner => .peek_bind fun kind => ?_
  split
  · exact fun ts _ => (exchanges_advance.bind fun t => .pure (Integer.map e) (.name t)) ts
  · exact exchangesAt_literal
  · exact fun ts _ => (exchanges_advance.bind fun _ => (exchanges_expect _).bind fun _ =>
      hinner.bind fun _ => (exchanges_expect _).bind fun _ =>
      .pure (Integer.map e) (.succ _ _ _ _)) ts
  · exact fun ts _ => (exchanges_advance.bind fun _ => (exchanges_expect _).bind fun _ =>
      hinner.bind fun _ => (exchanges_expect _).bind fun _ =>
      .pure (Integer.map e) (.pred _ _ _ _)) ts
  · exact fun ts _ => exchanges_noViable _ ts

/-- Whether a sensor has parentheses is up to the setting, and an exchange keeps that. -/
theorem exchanges_sensorClause (sensor : Sensor) :
    Exchanges e (Condition.map e) s (sensorClause sensor) (sensorClause sensor) := by
  refine exchanges_advance.bind fun keyword => .setting_bind ?_
  show Exchanges e _ s (if s.sensorParens then _ else _) (if s.sensorParens then _ else _)
  split
  · refine (exchanges_eat .leftParen).bind fun found => ?_
    cases found with
    | some left =>
      exact (exchanges_expect _).bind fun _ => .pure (Condition.map e) (.sensorCall _ _ _ _)
    | none => exact .pure (Condition.map e) (.sensor sensor keyword)
  · exact .pure (Condition.map e) (.sensor sensor keyword)

section Conditions

variable {term : Rule (Condition .term)} (hterm : Exchanges e (Condition.map e) s term term)

include hterm

/-- A clause is exchanged if the condition nested in it is. -/
theorem exchanges_clause : Exchanges e (Condition.map e) s (clause term) (clause term) := by
  refine exchanges_peek.bind fun kind => ?_
  rw [id]
  split
  · exact exchanges_advance.bind fun _ => (exchanges_expect _).bind fun _ =>
      exchanges_integer.bind fun _ => (exchanges_expect _).bind fun _ =>
      .pure (Condition.map e) (.isZero _ _ _ _)
  · exact exchanges_sensorClause _
  · exact exchanges_advance.bind fun _ => hterm.bind fun _ => (exchanges_expect _).bind fun _ =>
      .pure (Condition.map e) (.paren _ _ _)
  · exact exchanges_noViable _

theorem exchanges_negation : Exchanges e (Condition.map e) s (negation term) (negation term) := by
  refine (exchanges_eat .not_).bind fun found => ?_
  cases found with
  | some operator =>
    exact (exchanges_clause hterm).bind fun _ => .pure (Condition.map e) (.not _ _)
  | none => exact (exchanges_clause hterm).bind fun _ => .pure (Condition.map e) (.plain _)

theorem exchanges_conjunction :
    Exchanges e (Condition.map e) s (conjunction term) (conjunction term) := by
  refine (exchanges_negation hterm).bind fun first => ?_
  refine (exchanges_negation hterm).chain ?_ (Condition.lit first)
  exact fun _ _ _ => rfl

end Conditions

/-- Conditions are exchanged token by token; by induction on how deep they nest. -/
theorem exchanges_term : Exchanges e (Condition.map e) s term term := by
  refine .nested fun inner hinner => (exchanges_conjunction hinner).bind fun first => ?_
  refine (exchanges_conjunction hinner).chain ?_ (Condition.conj first)
  exact fun _ _ _ => rfl

/-- The parentheses behind a function's name, empty or around one name. -/
theorem exchanges_parameter : Exchanges e (Parameter.map e) s parameter parameter :=
  (exchanges_expect _).bind fun _ => (exchanges_eat _).bind fun _ =>
    (exchanges_expect _).bind fun _ => .pure (Parameter.map e) ⟨_, _, _⟩

end Rule
end RobotLang
