/-
  RobotLang.Proofs.Braced.ValidPrefix
  ───────────────────────────────────
  **THE BRACED GRAMMAR, ONE TOKEN AHEAD.**

  Every rule follows the phrase that the documented grammar has for it.  So
  when reading gives up, what was read before starts a program, and so does
  what was read together with any of the kinds that were wanted.

      Follows program s grammar (grammar .programClass)

  The rules also keep in lockstep: whatever follows the token that reading
  gives up at, it gives up there.
-/
import RobotLang.Proofs.Braced.Derivation
import RobotLang.Proofs.Rule.ValidPrefix

namespace RobotLang.Braced

open Rule

/-! ## §1. What starts a phrase. -/

/-- Some token of that kind. -/
def anyToken (kind : Kind) : Token :=
  ⟨kind, "", 1, 1, 1, 0, 0, false⟩

/-- Each kind that the rule for numbers wants does start a number. -/
theorem starts_integer :
    ∀ e ∈ integerFirst, Starts grammar (.symbol (.expression .integer)) [e] := by
  intro e he
  simp only [integerFirst, List.mem_cons, List.not_mem_nil, or_false] at he
  let name : Integer := .name (anyToken .identifier)
  rcases he with rfl | rfl | rfl | rfl
  · exact ⟨[], derives_integer (n := name) rfl⟩
  · exact (Derives.ofRule (grammar_expression .integer)
      (.oneOf (by simp) (.token .integerLiteral))).starts
  · exact ⟨_, derives_integer (n := .succ (anyToken .succ) (anyToken .leftParen) name
      (anyToken .rightParen)) ⟨rfl, rfl, rfl, rfl⟩⟩
  · exact ⟨_, derives_integer (n := .pred (anyToken .pred) (anyToken .leftParen) name
      (anyToken .rightParen)) ⟨rfl, rfl, rfl, rfl⟩⟩

instance : Productive grammar (.symbol (.expression .integer)) :=
  (derives_integer (n := .name (anyToken .identifier)) rfl).productive

/-- A clause spelled with its parentheses is a clause of the documented grammar. -/
theorem derives_clause {c : Condition .clause} (hc : c.Spelled true) :
    Derives grammar (.symbol (.expression .clause)) (c.children.tokens.map (·.kind)) :=
  Condition.derives grammar_expression hc

/-- A condition that is a single sensor. -/
def anyTerm : Condition .term :=
  .conj (.lit (.plain (.sensor .frontIsClear (anyToken (.sensor .frontIsClear)))))

/-- Each kind that the rule for clauses wants does start a clause. -/
theorem starts_clause :
    ∀ e ∈ clauseFirst, Starts grammar (.symbol (.expression .clause)) [e] := by
  intro e he
  simp only [clauseFirst, List.mem_append, List.mem_cons, List.not_mem_nil, or_false] at he
  rcases he with (rfl | hsensor) | rfl
  · exact ⟨_, derives_clause (c := .isZero (anyToken .isZero) (anyToken .leftParen)
      (.name (anyToken .identifier)) (anyToken .rightParen)) ⟨rfl, rfl, rfl, rfl⟩⟩
  · obtain ⟨x, _, rfl⟩ := List.mem_map.mp hsensor
    exact ⟨_, derives_clause (c := .sensor x (anyToken (.sensor x))) rfl⟩
  · exact ⟨_, derives_clause (c := .paren (anyToken .leftParen) anyTerm (anyToken .rightParen))
      ⟨rfl, rfl, rfl⟩⟩

/-- A clause may be negated. -/
theorem derives_notTerm_of_clause {ks : List Kind}
    (h : Derives grammar (.symbol (.expression .clause)) ks) :
    Derives grammar (.symbol (.expression .notTerm)) ks :=
  .ofRule (grammar_expression .notTerm) (.seq .optNone h)

/-- A clause is a conjunction of one. -/
theorem derives_andTerm_of_clause {ks : List Kind}
    (h : Derives grammar (.symbol (.expression .clause)) ks) :
    Derives grammar (.symbol (.expression .andTerm)) ks := by
  have hand := Derives.ofRule (grammar_expression .andTerm)
    (.seq (derives_notTerm_of_clause h) .starNil)
  simpa using hand

/-- A clause is a condition. -/
theorem derives_term_of_clause {ks : List Kind}
    (h : Derives grammar (.symbol (.expression .clause)) ks) :
    Derives grammar (.symbol (.expression .term)) ks := by
  have hor := Derives.ofRule (grammar_expression .term)
    (.seq (derives_andTerm_of_clause h) .starNil)
  simpa using hor

/-- A clause that is a single sensor. -/
theorem derives_sensor (x : Sensor) :
    Derives grammar (.symbol (.expression .clause)) [.sensor x] :=
  derives_clause (c := .sensor x (anyToken (.sensor x))) rfl

instance : Productive grammar (.symbol (.expression .clause)) :=
  (derives_sensor .frontIsClear).productive

instance : Productive grammar (.symbol (.expression .notTerm)) :=
  (derives_notTerm_of_clause (derives_sensor .frontIsClear)).productive

instance : Productive grammar (.symbol (.expression .andTerm)) :=
  (derives_andTerm_of_clause (derives_sensor .frontIsClear)).productive

instance : Productive grammar (.symbol (.expression .term)) :=
  (derives_term_of_clause (derives_sensor .frontIsClear)).productive

/-- A condition may start with any clause. -/
theorem starts_term : ∀ e ∈ clauseFirst, Starts grammar (.symbol (.expression .term)) [e] :=
  fun e he => (starts_clause e he).mono fun _ => derives_term_of_clause

/-- A spelled statement is a statement of the documented grammar. -/
theorem derives_code {c : Statement} (hc : c.Spelled true) :
    Derives grammar (.symbol .statement) (c.children.tokens.map (·.kind)) :=
  Code.derives hc

/-- A statement that does nothing. -/
def anyStatement : Statement :=
  .empty (anyToken .semicolon)

instance : Productive grammar (.symbol .statement) :=
  (derives_code (c := anyStatement) rfl).productive

/-- Each kind that the rule for statements wants does start a statement.  One statement of each form
is the evidence. -/
theorem starts_statement : ∀ e ∈ statementFirst, Starts grammar (.symbol .statement) [e] := by
  intro e he
  have hleft : (anyToken .leftParen).kind = .leftParen := rfl
  have hright : (anyToken .rightParen).kind = .rightParen := rfl
  rcases List.mem_append.mp he with haction | he
  · obtain ⟨action, haction⟩ :=
      Option.isSome_iff_exists.mp ((Builtin.ofKind?_isSome_iff e).mpr haction)
    exact ⟨_, derives_code (c := .builtin action (anyToken e) (anyToken .leftParen)
      (anyToken .rightParen) (anyToken .semicolon)) ⟨haction, hleft, hright, rfl⟩⟩
  · simp only [List.mem_cons, List.not_mem_nil, or_false] at he
    rcases he with rfl | rfl | rfl | rfl | rfl | rfl
    · exact ⟨_, derives_code (c := .call (anyToken .identifier) (anyToken .leftParen) none
        (anyToken .rightParen) (anyToken .semicolon)) ⟨rfl, hleft, by simp, hright, rfl⟩⟩
    · exact ⟨_, derives_code (c := anyStatement) rfl⟩
    · exact ⟨_, derives_code (c := .cond (anyToken .if_) (anyToken .leftParen) anyTerm
        (anyToken .rightParen) anyStatement) ⟨rfl, hleft, rfl, hright, rfl⟩⟩
    · exact ⟨_, derives_code (c := .whileDo (anyToken .while_) (anyToken .leftParen) anyTerm
        (anyToken .rightParen) anyStatement) ⟨rfl, hleft, rfl, hright, rfl⟩⟩
    · exact ⟨_, derives_code (c := .times (anyToken .repeat_) (anyToken .leftParen)
        (.name (anyToken .identifier)) (anyToken .rightParen) anyStatement)
        ⟨rfl, hleft, rfl, hright, rfl⟩⟩
    · exact ⟨_, derives_code (c := .block (anyToken .leftBrace) .nil (anyToken .rightBrace))
        ⟨rfl, trivial, rfl⟩⟩

instance : Productive grammar (.symbol .block) :=
  (Derives.symbol (.seq (.token _) (.seq .starNil (.seq (.token _) .nothing)))).productive

instance : Productive grammar (.symbol .defParam) :=
  (Derives.symbol (.seq (.token _) (.seq .optNone (.seq (.token _) .nothing)))).productive

instance : Productive grammar (.symbol .programDef) := by
  obtain ⟨ks, hks⟩ := Productive.exists_derives (g := grammar) (p := .symbol .block)
  exact (Derives.symbol (.seq (.token _) (.seq (.token _) (.seq (.token _)
    (.seq hks .nothing))))).productive

/-! ## §2. Numbers and conditions. -/

section Rules

variable {s : Setting} (hs : s.stop.kind = .eof) (hr : s.recovery = false)

include hs hr

/-- Reads a wanted token. -/
theorem follows_word {kind : Kind} (hk : kind ∉ [.eof, .integerLiteral]) :
    Follows (expect kind) s grammar (.token kind) := by
  rw [List.mem_cons, List.mem_singleton, not_or] at hk
  exact follows_expect hs hr hk.1 hk.2

/-- The rule for numbers follows its phrase: whatever it wants may come next.  `succ` and `pred`
hold a number again, so this is by induction on how deep numbers nest. -/
theorem follows_integer : Follows integer s grammar (.symbol (.expression .integer)) := by
  refine .nested (by decide) starts_integer fun inner hinner => follows_peek_bind fun kind => ?_
  -- what stands in parentheses behind `succ` and `pred`
  have hparens (build : Token → Token → Integer → Token → Integer) (word : Kind)
      (hword : word = .succ ∨ word = .pred) :
      FollowsFrom word
        (do
          return build (← advance) (← expect .leftParen) (← inner) (← expect .rightParen))
        s grammar (.symbol (.expression .integer)) := by
    have hadvance : FollowsFrom word advance s grammar (.word [.succ, .pred]) := by
      rcases hword with rfl | rfl
      · exact followsFrom_advance hs (by decide) (by decide) (by decide)
      · exact followsFrom_advance hs (by decide) (by decide) (by decide)
    have hleft : Follows (expect .leftParen) s grammar (.token .leftParen) :=
      follows_word hs hr (by decide)
    have hright : Follows (expect .rightParen) s grammar (.token .rightParen) :=
      follows_word hs hr (by decide)
    refine (hadvance.bind fun _ => hleft.bind fun _ => hinner.bind fun _ => hright.bind fun _ =>
      follows_pure _).mono fun ks hks => ?_
    cases hks with
    | seq hword hmore =>
      exact .ofRule (grammar_expression .integer)
        (.altRight (.altRight (.seq (.ofRule (grammar_expression .succPred) hword) hmore)))
  split
  · refine (followsFrom_advance hs (List.mem_singleton.mpr rfl) (by decide)
      (by decide)).andPure.mono fun ks hks => ?_
    exact .ofRule (grammar_expression .integer) (.altLeft hks)
  · refine (followsFrom_literal hs).mono fun ks hks => ?_
    exact .ofRule (grammar_expression .integer) (.altRight (.altLeft hks))
  · exact hparens .succ .succ (.inl rfl)
  · exact hparens .pred .pred (.inr rfl)
  · exact (follows_noViable (by decide) starts_integer).followsFrom _

/-- A sensor's word with its parentheses, if there are any. -/
theorem follows_sensorClause (hparens : s.sensorParens = true) (x : Sensor) :
    FollowsFrom (.sensor x) (sensorClause x) s grammar (.symbol (.expression .clause)) := by
  have hadvance : FollowsFrom (.sensor x) advance s grammar (.symbol (.expression .boolFun)) := by
    refine (followsFrom_advance hs (List.mem_map_of_mem x.mem_all) (by simp) (by simp)).mono ?_
    exact fun ks hks => .ofRule (grammar_expression .boolFun) hks
  have hright : Follows (expect .rightParen) s grammar (.token .rightParen) :=
    follows_word hs hr (by decide)
  refine (FollowsFrom.bind (q := .opt (.inOrder [.token .leftParen, .token .rightParen])) hadvance
    fun keyword => follows_setting_bind ?_).mono fun ks hks => ?_
  · rw [if_pos hparens]
    exact follows_eat_opt hs (by decide) (by decide)
      (fun left => hright.bind fun _ => follows_pure _) (follows_pure _)
  · exact .ofRule (grammar_expression .clause)
      (.altRight (.altLeft (.ofRule (grammar_expression .boolFunClause) hks)))

section Conditions

variable (hparens : s.sensorParens = true) {term : Rule (Condition .term)}
  (hterm : Follows term s grammar (.symbol (.expression .term)))

include hparens hterm

/-- The rule for clauses follows its phrase, if sensors have the parentheses of the grammar.  A
clause in parentheses holds a condition again, of which it is assumed here. -/
theorem follows_clause : Follows (clause term) s grammar (.symbol (.expression .clause)) := by
  have hleft : Follows (expect .leftParen) s grammar (.token .leftParen) :=
    follows_word hs hr (by decide)
  have hright : Follows (expect .rightParen) s grammar (.token .rightParen) :=
    follows_word hs hr (by decide)
  refine follows_peek_bind fun kind => ?_
  split
  · have hadvance : FollowsFrom .isZero advance s grammar (.token .isZero) :=
      followsFrom_advance hs (by simp) (by decide) (by decide)
    refine (hadvance.bind fun _ => hleft.bind fun _ => (follows_integer hs hr).bind fun _ =>
      hright.bind fun _ => follows_pure _).mono fun ks hks => ?_
    exact .ofRule (grammar_expression .clause)
      (.altLeft (.ofRule (grammar_expression .isZeroClause) hks))
  · exact follows_sensorClause hs hr hparens _
  · have hadvance : FollowsFrom .leftParen advance s grammar (.token .leftParen) :=
      followsFrom_advance hs (by simp) (by decide) (by decide)
    refine (hadvance.bind fun _ => hterm.bind fun _ => hright.bind fun _ =>
      follows_pure _).mono fun ks hks => ?_
    exact .ofRule (grammar_expression .clause) (.altRight (.altRight hks))
  · exact (follows_noViable (by decide) starts_clause).followsFrom _

/-- A clause behind "not", or by itself. -/
theorem follows_negation : Follows (negation term) s grammar (.symbol (.expression .notTerm)) := by
  have hclause := follows_clause hs hr hparens hterm
  have heat : Follows (eat .not_) s grammar (.opt (.token .not_)) :=
    follows_eat hs (by decide) (by decide)
  refine (heat.bind (q := .symbol (.expression .clause)) fun found => ?_).mono fun ks hks => ?_
  · cases found with
    | some operator => exact hclause.andPure
    | none => exact hclause.andPure
  · exact .ofRule (grammar_expression .notTerm) hks

/-- Behind a conjunction another clause may follow, so "and" is among what may come next. -/
theorem follows_conjunction :
    Follows (conjunction term) s grammar (.symbol (.expression .andTerm)) := by
  have hitem := follows_negation hs hr hparens hterm
  refine (hitem.bind fun _ => hitem.chain hs (by decide) (by decide) _).mono fun ks hks => ?_
  exact .ofRule (grammar_expression .andTerm) hks

end Conditions

/-- Conditions follow their phrase; by induction on how deep parentheses nest. -/
theorem follows_term (hparens : s.sensorParens = true) :
    Follows term s grammar (.symbol (.expression .term)) := by
  refine .nested (by decide) starts_term fun inner hinner => ?_
  have hitem := follows_conjunction hs hr hparens hinner
  refine (hitem.bind fun _ => hitem.chain hs (by decide) (by decide) _).mono fun ks hks => ?_
  exact .ofRule (grammar_expression .term) hks

/-- The parentheses behind a function's name, empty or around one name. -/
theorem follows_parameter : Follows parameter s grammar (.symbol .defParam) := by
  have hleft : Follows (expect .leftParen) s grammar (.token .leftParen) :=
    follows_word hs hr (by decide)
  have hname : Follows (eat .identifier) s grammar (.opt (.token .identifier)) :=
    follows_eat hs (by decide) (by decide)
  have hright : Follows (expect .rightParen) s grammar (.token .rightParen) :=
    follows_word hs hr (by decide)
  refine (hleft.bind fun _ => hname.bind fun _ => hright.bind fun _ =>
    follows_pure _).mono fun ks hks => ?_
  exact .symbol hks

/-! ## §3. Statements. -/

/-- A call with or without an argument, up to its `;`.  The grammar has the `;` one level above the
call, so the phrase is written out as one sequence first. -/
theorem follows_call : Follows call s grammar (.symbol .statement) := by
  -- what follows the argument
  have hend (name left : Token) (argument : Option Integer) : Follows
      (expect .rightParen >>= fun right => expect .semicolon >>= fun stop =>
        pure (Code.call name left argument right stop)) s grammar
      (.seq (.token .rightParen) (.seq (.token .semicolon) .nothing)) :=
    (follows_word hs hr (by decide)).bind fun _ => (follows_word hs hr (by decide)).bind fun _ =>
      follows_pure _
  have hnone : Follows (pure (none : Option Integer)) s grammar
      (.opt (.symbol (.expression .integer))) := by
    refine (follows_pure _).mono fun ks hks => ?_
    cases hks
    exact .optNone
  have hsome : Follows (some <$> integer) s grammar (.opt (.symbol (.expression .integer))) :=
    (follows_integer hs hr).andPure.mono fun ks hks => .optSome hks
  refine Follows.mono (p := .seq (.token .identifier) (.seq (.token .leftParen)
    (.seq (.opt (.symbol (.expression .integer)))
      (.seq (.token .rightParen) (.seq (.token .semicolon) .nothing))))) ?_ fun ks hks => ?_
  · refine (follows_word hs hr (by decide)).bind fun name =>
      (follows_word hs hr (by decide)).bind fun left => follows_isAt_bind fun b => ?_
    cases b with
    | true => exact hnone.bind fun argument => hend name left argument
    | false => exact hsome.bind fun argument => hend name left argument
  · cases hks with
    | seq hname hks =>
      cases hks with
      | seq hleft hks =>
        cases hks with
        | seq hargument hks =>
          cases hks with
          | seq hright hsemi =>
            have hcall : Derives grammar (.symbol .call) _ :=
              .symbol (.seq hname (.seq hleft (.seq hargument (.seq hright .nothing))))
            have h := derives_statement .singleStatement (by decide)
              (.seq (.optSome (.altRight hcall)) hsemi)
            simpa using h

/-- An action up to its `;`, once its word is at hand.  The grammar spreads this over three symbols,
so the phrase is written out as one sequence first. -/
theorem follows_builtin {action : Builtin} {kind : Kind}
    (hk : Builtin.ofKind? kind = some action) :
    FollowsFrom kind (builtin action) s grammar (.symbol .statement) := by
  have hmem : kind ∈ Builtin.kinds := (Builtin.ofKind?_isSome_iff kind).mp (by rw [hk]; rfl)
  have hadvance : FollowsFrom kind advance s grammar (.word Builtin.kinds) := by
    refine followsFrom_advance hs hmem ?_ ?_
    · exact fun heof => absurd (heof ▸ hmem) (by decide)
    · exact fun hliteral => absurd (hliteral ▸ hmem) (by decide)
  refine FollowsFrom.mono (p := .seq (.word Builtin.kinds) (.seq (.token .leftParen)
    (.seq (.token .rightParen) (.seq (.token .semicolon) .nothing)))) ?_ fun ks hks => ?_
  · exact hadvance.bind fun _ => (follows_word hs hr (by decide)).bind fun _ =>
      (follows_word hs hr (by decide)).bind fun _ => (follows_word hs hr (by decide)).bind fun _ =>
      follows_pure _
  · cases hks with
    | seq hword hks =>
      cases hks with
      | seq hleft hks =>
        cases hks with
        | seq hright hsemi =>
          have hfun : Derives grammar (.symbol .statementFun) _ := .symbol hword
          have h := derives_statement .singleStatement (by decide)
            (.seq (.optSome (.altLeft (.seq hfun (.seq hleft (.seq hright .nothing))))) hsemi)
          simpa using h

section Statements

variable {statement : Rule Statement} (h : Follows statement s grammar (.symbol .statement))

include h

/-- Statements up to the brace that closes them, each of which may start where one has ended. -/
theorem follows_blockOf : Follows (blockOf statement) s grammar (grammar .block) :=
  (follows_word hs hr (by decide)).bind fun _ => h.many.bind fun _ =>
    (follows_word hs hr (by decide)).bind fun _ => follows_pure _

/-- Behind the first branch "else" may follow, and then the second. -/
theorem follows_cond (hparens : s.sensorParens = true) :
    Follows (cond statement) s grammar (grammar .cond) := by
  refine (follows_word hs hr (by decide)).bind fun keyword =>
    (follows_word hs hr (by decide)).bind fun left => (follows_term hs hr hparens).bind fun test =>
    (follows_word hs hr (by decide)).bind fun right => h.bind fun yes => Follows.last ?_
  exact follows_eat_opt hs (by decide) (by decide)
    (fun otherwise => h.bind fun no => follows_pure _) (follows_pure _)

theorem follows_whileDo (hparens : s.sensorParens = true) :
    Follows (whileDo statement) s grammar (grammar .loop) :=
  (follows_word hs hr (by decide)).bind fun _ => (follows_word hs hr (by decide)).bind fun _ =>
    (follows_term hs hr hparens).bind fun _ => (follows_word hs hr (by decide)).bind fun _ =>
    h.bind fun _ => follows_pure _

theorem follows_times : Follows (times statement) s grammar (grammar .repeat_) :=
  (follows_word hs hr (by decide)).bind fun _ => (follows_word hs hr (by decide)).bind fun _ =>
    (follows_integer hs hr).bind fun _ => (follows_word hs hr (by decide)).bind fun _ =>
    h.bind fun _ => follows_pure _

end Statements

/-- Statements follow their phrase; by induction on how deep they nest.  Each choice of the rule is
one of the alternatives of the grammar. -/
theorem follows_statement (hparens : s.sensorParens = true) :
    Follows statement s grammar (.symbol .statement) := by
  refine .nested (by decide) starts_statement fun inner hinner => follows_peek_bind fun kind => ?_
  split
  · exact ((follows_cond hs hr hinner hparens).mono
      fun _ => derives_statement .cond (by decide)).followsFrom _
  · exact ((follows_whileDo hs hr hinner hparens).mono
      fun _ => derives_statement .loop (by decide)).followsFrom _
  · exact ((follows_times hs hr hinner).mono
      fun _ => derives_statement .repeat_ (by decide)).followsFrom _
  · exact ((follows_blockOf hs hr hinner).andPure.mono
      fun _ => derives_statement .block (by decide)).followsFrom _
  · exact (follows_call hs hr).followsFrom _
  · have hadvance : FollowsFrom .semicolon advance s grammar (.token .semicolon) :=
      followsFrom_advance hs (by simp) (by decide) (by decide)
    refine hadvance.andPure.mono fun ks hks => ?_
    have h := derives_statement .singleStatement (by decide) (.seq .optNone (.seq hks .nothing))
    simpa using h
  · split
    · next action haction => exact follows_builtin hs hr haction
    · exact (follows_noViable (by decide) starts_statement).followsFrom _

/-! ## §4. Definitions and programs. -/

theorem follows_block (hparens : s.sensorParens = true) :
    Follows block s grammar (.symbol .block) :=
  (follows_blockOf hs hr (follows_statement hs hr hparens)).mono fun _ => .symbol

/-- A function follows the phrase of a definition. -/
theorem follows_definition (hparens : s.sensorParens = true) :
    Follows definition s grammar (grammar .def_) :=
  (follows_word hs hr (by decide)).bind fun _ => (follows_word hs hr (by decide)).bind fun _ =>
    (follows_parameter hs hr).bind fun _ => (follows_block hs hr hparens).bind fun _ =>
    follows_pure _

/-- The main part follows its phrase. -/
theorem follows_mainPart (hparens : s.sensorParens = true) :
    Follows mainPart s grammar (grammar .programDef) :=
  (follows_word hs hr (by decide)).bind fun _ => (follows_word hs hr (by decide)).bind fun _ =>
    (follows_word hs hr (by decide)).bind fun _ => (follows_block hs hr hparens).bind fun _ =>
    follows_pure _

/-- A program follows the phrase that the documented grammar starts with. -/
theorem follows_program (hparens : s.sensorParens = true) :
    Follows program s grammar (grammar .programClass) := by
  have hdefinitions : Follows (many [.define] definition) s grammar (.star (.symbol .def_)) :=
    ((follows_definition hs hr hparens).mono fun _ => .symbol).many
  have hmain : Follows mainPart s grammar (.symbol .programDef) :=
    (follows_mainPart hs hr hparens).mono fun _ => .symbol
  refine (follows_word hs hr (by decide)).bind fun _ => ?_
  refine (follows_word hs hr (by decide)).bind fun _ => ?_
  refine (follows_word hs hr (by decide)).bind fun _ => hdefinitions.bind fun _ => ?_
  exact hmain.bind fun _ => (follows_word hs hr (by decide)).bind fun _ => follows_finish.andPure

end Rules

/-! ## §5. Lockstep. -/

/-- Every statement has a token. -/
theorem Code.tokens_statement_ne_nil (c : Statement) : c.children.tokens ≠ [] := by
  cases c <;> simp [Code.children]

section Runs

variable {s : Setting} {n : Nat} (hr : s.recovery = false)

include hr

/-- A call reads on in lockstep, whether its argument is there or not. -/
theorem lockstep_call : Lockstep n call call s := by
  refine .bind (lockstep_expect hr _) fun name => .bind (lockstep_expect hr _) fun left =>
    .bind (lockstep_isAt _) fun b => ?_
  have hend (argument : Option Integer) : Lockstep n
      (expect .rightParen >>= fun right => expect .semicolon >>= fun stop =>
        pure (Code.call name left argument right stop))
      (expect .rightParen >>= fun right => expect .semicolon >>= fun stop =>
        pure (Code.call name left argument right stop)) s :=
    .bind (lockstep_expect hr _) fun _ => .bind (lockstep_expect hr _) fun _ => .pure _
  cases b with
  | true => exact .bind (.pure none) hend
  | false => exact .bind (lockstep_integer hr).map hend

theorem lockstep_builtin (action : Builtin) : Lockstep n (builtin action) (builtin action) s :=
  .bind lockstep_advance fun _ => .bind (lockstep_expect hr _) fun _ =>
    .bind (lockstep_expect hr _) fun _ => .bind (lockstep_expect hr _) fun _ => .pure _

section Statements

variable {statement statement' : Rule Statement}
  (h : Lockstep (n - 1) statement statement' s)

include h

/-- A block reads on in lockstep if its statements do and take tokens. -/
theorem lockstep_blockOf (htakes : Takes statement s) :
    Lockstep n (blockOf statement) (blockOf statement') s :=
  lockstep_expect_bind hr fun _ => .bind (h.many htakes) fun _ =>
    .bind (lockstep_expect hr _) fun _ => .pure _

/-- A conditional reads on in lockstep if its branches do. -/
theorem lockstep_cond : Lockstep n (cond statement) (cond statement') s := by
  refine lockstep_expect_bind hr fun _ => .bind (lockstep_expect hr _) fun _ =>
    .bind (lockstep_term hr) fun _ => .bind (lockstep_expect hr _) fun _ => h.bind fun yes =>
    .bind (lockstep_eat _) fun found => ?_
  cases found with
  | some otherwise => exact h.bind fun _ => .pure _
  | none => exact .pure _

theorem lockstep_whileDo : Lockstep n (whileDo statement) (whileDo statement') s :=
  lockstep_expect_bind hr fun _ => .bind (lockstep_expect hr _) fun _ =>
    .bind (lockstep_term hr) fun _ => .bind (lockstep_expect hr _) fun _ => h.bind fun _ => .pure _

theorem lockstep_times : Lockstep n (times statement) (times statement') s :=
  lockstep_expect_bind hr fun _ => .bind (lockstep_expect hr _) fun _ =>
    .bind (lockstep_integer hr) fun _ => .bind (lockstep_expect hr _) fun _ =>
    h.bind fun _ => .pure _

end Statements

/-- A rule that makes nodes with tokens takes tokens. -/
theorem takes_of_makes {α : Type} {rule : Rule α} {good : α → Prop} {tokens : α → List Token}
    (h : Makes rule s good tokens) (hne : ∀ a, tokens a ≠ []) : Takes rule s := by
  intro ts a mid cs ho _
  obtain ⟨rfl, -⟩ := (h ho).2.strict hr
  have hpos := List.length_pos_iff.mpr (hne a)
  rw [List.length_append]
  omega

/-- Statements read on in lockstep; by induction on how deep they nest. -/
theorem lockstep_statement (hs : s.stop.kind = .eof) : Lockstep n statement statement s := by
  refine .nested (MakesCode · s) (fun _ _ _ _ he => absurd he ends_noViable)
    (fun _ => makes_statementStep hs) fun n inner inner' hmakes hinner => ?_
  have htakes : Takes inner s := takes_of_makes hr hmakes Code.tokens_statement_ne_nil
  refine .bind lockstep_peek fun kind => ?_
  split
  · exact lockstep_cond hr hinner
  · exact lockstep_whileDo hr hinner
  · exact lockstep_times hr hinner
  · exact .bind (lockstep_blockOf hr hinner htakes) fun _ => .pure _
  · exact lockstep_call hr
  · exact .bind lockstep_advance fun _ => .pure _
  · cases Builtin.ofKind? kind with
    | some action => exact lockstep_builtin hr action
    | none => exact lockstep_noViable _

theorem lockstep_block (hs : s.stop.kind = .eof) : Lockstep n block block s :=
  lockstep_blockOf hr (lockstep_statement hr hs)
    (takes_of_makes hr (makes_statement hs) Code.tokens_statement_ne_nil)

/-- A definition reads on in lockstep. -/
theorem lockstep_definition (hs : s.stop.kind = .eof) : Lockstep n definition definition s :=
  .bind (lockstep_expect hr _) fun _ => .bind (lockstep_expect hr _) fun _ =>
    .bind (lockstep_parameter hr) fun _ => .bind (lockstep_block hr hs) fun _ => .pure _

/-- The main part reads on in lockstep. -/
theorem lockstep_mainPart (hs : s.stop.kind = .eof) : Lockstep n mainPart mainPart s :=
  .bind (lockstep_expect hr _) fun _ => .bind (lockstep_expect hr _) fun _ =>
    .bind (lockstep_expect hr _) fun _ => .bind (lockstep_block hr hs) fun _ => .pure _

/-- What is done about the first tokens of a program does not depend on the
others. -/
theorem lockstep_program (hs : s.stop.kind = .eof) : Lockstep n program program s := by
  have htakes : Takes definition s :=
    takes_of_makes hr (makes_definition hs) fun d => by simp [Definition.tokens_view]
  exact .bind (lockstep_expect hr _) fun _ => .bind (lockstep_expect hr _) fun _ =>
    .bind (lockstep_expect hr _) fun _ => .bind ((lockstep_definition hr hs).many htakes) fun _ =>
    .bind (lockstep_mainPart hr hs) fun _ => .bind (lockstep_expect hr _) fun _ =>
    .bind lockstep_finish fun _ => .pure _

end Runs

end RobotLang.Braced
