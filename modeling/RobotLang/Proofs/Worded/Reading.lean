/-
  RobotLang.Proofs.Worded.Reading
  ───────────────────────────────
  **THE WORDED GRAMMAR MAKES SPELLED PROGRAMS AND ACCOUNTS FOR EVERY TOKEN.**

  Whatever the setting, a node that a rule of the grammar ends with is spelled
  and its tokens, in tree order, are a trace of what was read:

      Makes program s (·.Spelled s.sensorParens) (·.view.tokens)

  A command always starts with the token at hand, and so does a statement
  where one can start; that is what lets a list take up again right behind
  the garbage that it skipped.
-/
import RobotLang.Dialect
import RobotLang.Proofs.Lexing.Token
import RobotLang.Proofs.Rule.Expression

namespace RobotLang.Worded

open Rule

/-! ## §1. Spelled programs. -/

/-- The code is spelled by its tokens. -/
def Code.Spelled (parens : Bool) {part : Part} : Code part → Prop
  | .nil => True
  | .cons head tail => head.Spelled parens ∧ tail.Spelled parens
  | .empty semicolon => semicolon.kind = .semicolon
  | .ended command semicolon => command.Spelled parens ∧ semicolon.kind = .semicolon
  | .builtin action keyword => Builtin.ofKind? keyword.kind = some action
  | .call name => name.kind = .identifier
  | .callWith name left argument right =>
    name.kind = .identifier ∧ left.kind = .leftParen ∧ argument.Spelled
      ∧ right.kind = .rightParen
  | .cond keyword test then_ yes =>
    keyword.kind = .if_ ∧ test.Spelled parens ∧ then_.kind = .then_ ∧ yes.Spelled parens
  | .condElse keyword test then_ yes otherwise no =>
    keyword.kind = .if_ ∧ test.Spelled parens ∧ then_.kind = .then_ ∧ yes.Spelled parens
      ∧ otherwise.kind = .else_ ∧ no.Spelled parens
  | .whileDo keyword test do_ body =>
    keyword.kind = .while_ ∧ test.Spelled parens ∧ do_.kind = .do_ ∧ body.Spelled parens
  | .times keyword count unit body =>
    keyword.kind = .repeat_ ∧ count.Spelled ∧ unit.kind = .times ∧ body.Spelled parens
  | .block opening body closing =>
    opening.kind = .begin_ ∧ body.Spelled parens ∧ closing.kind = .end_

/-- The definition is spelled by its tokens. -/
def Definition.Spelled (parens : Bool) : Definition → Prop
  | .full keyword name parameter as_ body =>
    keyword.kind = .define ∧ name.kind = .identifier ∧ (∀ p ∈ parameter, p.Spelled)
      ∧ as_.kind = .as_ ∧ body.Spelled parens
  | .prototype keyword name parameter semicolon =>
    keyword.kind = .prototype ∧ name.kind = .identifier ∧ (∀ p ∈ parameter, p.Spelled)
      ∧ semicolon.kind = .semicolon

/-- The main part is spelled by its tokens. -/
def Main.Spelled (parens : Bool) (m : Main) : Prop :=
  m.opening.kind = .beginExecution ∧ m.body.Spelled parens ∧ m.closing.kind = .endExecution

/-- The program is spelled by its tokens. -/
def Program.Spelled (parens : Bool) (p : Program) : Prop :=
  p.opening.kind = .beginProgram ∧ (∀ d ∈ p.definitions, d.Spelled parens)
    ∧ p.main.Spelled parens ∧ p.closing.kind = .endProgram

/-- A list of spelled statements is spelled. -/
theorem Code.spelled_ofList {parens : Bool} {ss : List Statement}
    (h : ∀ s ∈ ss, s.Spelled parens) : (Code.ofList ss).Spelled parens := by
  induction ss with
  | nil => trivial
  | cons s ss ih => exact ⟨h s (by simp), ih fun s' hs' => h s' (by simp [hs'])⟩

/-! ## §2. Commands. -/

variable {s : Setting} {ts rest : List Token} {cs : List Diagnostic}

/-- The code is spelled and starts with the token at hand. -/
abbrev OpensCode {part : Part} (rule : Rule (Code part)) (s : Setting) : Prop :=
  Opens rule s (·.Spelled s.sensorParens) (·.children.tokens)

/-- A call starts with its name, and is made of what was read behind it. -/
theorem opens_call (hs : s.stop.kind = .eof) {t : Token} {c : Command} (ht : t.kind = .identifier)
    (he : Ends call s (t :: ts) c rest cs) :
    c.Spelled s.sensorParens ∧ ∃ more, c.children.tokens = t :: more ∧ Reads s ts more cs rest := by
  rw [call, ends_expect_bind_of_kind ht, ends_eat_bind] at he
  split at he
  · next hl =>
    obtain ⟨left, tail, rfl, hl⟩ := exists_cons_of_front_kind hs (by decide) hl
    obtain ⟨argument, _, cs₁, _, ha, he₁, rfl⟩ := ends_bind.mp he
    obtain ⟨right, _, cs₂, _, hr, he₂, rfl⟩ := ends_bind.mp he₁
    obtain ⟨rfl, rfl, rfl⟩ := ends_pure.mp he₂
    obtain ⟨hak, har⟩ := makes_integer hs ha
    obtain ⟨hrk, hrr⟩ := makes_expect hs (by decide) hr
    refine ⟨⟨ht, hl, hak, hrk⟩, left :: argument.children.tokens ++ [right], ?_, ?_⟩
    · simp [Code.children]
    · simpa using .take left (har.trans hrr)
  · obtain ⟨rfl, rfl, rfl⟩ := ends_pure.mp he
    exact ⟨ht, [], rfl, .done _⟩

/-- A conditional starts with its word, and is made of what was read behind it, with the second
branch or without. -/
theorem opens_cond (hs : s.stop.kind = .eof) {command : Rule Command}
    (h : OpensCode command s) {t : Token} {c : Command} (ht : t.kind = .if_)
    (he : Ends (cond command) s (t :: ts) c rest cs) :
    c.Spelled s.sensorParens ∧ ∃ more, c.children.tokens = t :: more ∧ Reads s ts more cs rest := by
  rw [cond, ends_expect_bind_of_kind ht] at he
  obtain ⟨test, _, cs₁, _, htest, he₁, rfl⟩ := ends_bind.mp he
  obtain ⟨then_, _, cs₂, _, hthen, he₂, rfl⟩ := ends_bind.mp he₁
  obtain ⟨yes, _, cs₃, _, hyes, he₃, rfl⟩ := ends_bind.mp he₂
  obtain ⟨htk, htr⟩ := makes_term hs htest
  obtain ⟨hthk, hthr⟩ := makes_expect hs (by decide) hthen
  obtain ⟨hyk, hyr⟩ := h.makes hyes
  rw [ends_eat_bind] at he₃
  split at he₃
  · next hk =>
    obtain ⟨otherwise, tail, rfl, ho⟩ := exists_cons_of_front_kind hs (by decide) hk
    obtain ⟨no, _, cs₄, _, hno, he₄, rfl⟩ := ends_bind.mp he₃
    obtain ⟨rfl, rfl, rfl⟩ := ends_pure.mp he₄
    obtain ⟨hnk, hnr⟩ := h.makes hno
    refine ⟨⟨ht, htk, hthk, hyk, ho, hnk⟩, _, rfl, ?_⟩
    simpa using htr.trans (hthr.trans (hyr.trans (.take otherwise hnr)))
  · obtain ⟨rfl, rfl, rfl⟩ := ends_pure.mp he₃
    refine ⟨⟨ht, htk, hthk, hyk⟩, _, rfl, ?_⟩
    simpa using htr.trans (hthr.trans hyr)

/-- A loop starts with its word, and is made of what was read behind it. -/
theorem opens_whileDo (hs : s.stop.kind = .eof) {command : Rule Command}
    (h : OpensCode command s) {t : Token} {c : Command} (ht : t.kind = .while_)
    (he : Ends (whileDo command) s (t :: ts) c rest cs) :
    c.Spelled s.sensorParens ∧ ∃ more, c.children.tokens = t :: more ∧ Reads s ts more cs rest := by
  rw [whileDo, ends_expect_bind_of_kind ht] at he
  obtain ⟨test, _, cs₁, _, htest, he₁, rfl⟩ := ends_bind.mp he
  obtain ⟨do_, _, cs₂, _, hdo, he₂, rfl⟩ := ends_bind.mp he₁
  obtain ⟨body, _, cs₃, _, hbody, he₃, rfl⟩ := ends_bind.mp he₂
  obtain ⟨rfl, rfl, rfl⟩ := ends_pure.mp he₃
  obtain ⟨htk, htr⟩ := makes_term hs htest
  obtain ⟨hdk, hdr⟩ := makes_expect hs (by decide) hdo
  obtain ⟨hbk, hbr⟩ := h.makes hbody
  refine ⟨⟨ht, htk, hdk, hbk⟩, _, rfl, ?_⟩
  simpa using htr.trans (hdr.trans hbr)

/-- A repetition starts with its word, and is made of what was read behind it. -/
theorem opens_times (hs : s.stop.kind = .eof) {command : Rule Command}
    (h : OpensCode command s) {t : Token} {c : Command} (ht : t.kind = .repeat_)
    (he : Ends (times command) s (t :: ts) c rest cs) :
    c.Spelled s.sensorParens ∧ ∃ more, c.children.tokens = t :: more ∧ Reads s ts more cs rest := by
  rw [times, ends_expect_bind_of_kind ht] at he
  obtain ⟨count, _, cs₁, _, hcount, he₁, rfl⟩ := ends_bind.mp he
  obtain ⟨unit, _, cs₂, _, hunit, he₂, rfl⟩ := ends_bind.mp he₁
  obtain ⟨body, _, cs₃, _, hbody, he₃, rfl⟩ := ends_bind.mp he₂
  obtain ⟨rfl, rfl, rfl⟩ := ends_pure.mp he₃
  obtain ⟨hck, hcr⟩ := makes_integer hs hcount
  obtain ⟨huk, hur⟩ := makes_expect hs (by decide) hunit
  obtain ⟨hbk, hbr⟩ := h.makes hbody
  refine ⟨⟨ht, hck, huk, hbk⟩, _, rfl, ?_⟩
  simpa using hcr.trans (hur.trans hbr)

/-! ## §3. Statements and blocks. -/

/-- A statement is made of its command and its `;`.  A `;` that was put in is a token of the tree
that was not read. -/
theorem makes_statementOf (hs : s.stop.kind = .eof) {command : Rule Command}
    (h : OpensCode command s) (follow : List Kind) :
    Makes (statementOf command follow) s (·.Spelled s.sensorParens) (·.children.tokens) := by
  intro ts c rest cs he
  rw [statementOf, ends_isAtAny_bind, ends_ite] at he
  rcases he with ⟨_, he⟩ | ⟨_, he⟩
  · obtain ⟨c, _, cs₁, _, hc, he₁, rfl⟩ := ends_bind.mp he
    obtain ⟨semicolon, _, cs₂, _, hsemi, he₂, rfl⟩ := ends_bind.mp he₁
    obtain ⟨rfl, rfl, rfl⟩ := ends_pure.mp he₂
    obtain ⟨hck, hcr⟩ := h.makes hc
    obtain ⟨hsk, hsr⟩ := makes_expectTerminator hs hsemi
    exact ⟨⟨hck, hsk⟩, by simpa [Code.children] using hcr.trans hsr⟩
  · obtain ⟨semicolon, _, cs₁, _, hsemi, he₁, rfl⟩ := ends_bind.mp he
    obtain ⟨rfl, rfl, rfl⟩ := ends_pure.mp he₁
    obtain ⟨hsk, hsr⟩ := makes_expectTerminator hs hsemi
    exact ⟨hsk, by simpa [Code.children] using hsr⟩

/-- Where a statement can start, it starts with the token at hand.  It starts with the token of its
command, or it is a `;` alone. -/
theorem opens_statementOf (hs : s.stop.kind = .eof) {command : Rule Command}
    (h : OpensCode command s) {follow : List Kind} {c : Statement}
    (he : Ends (statementOf command follow) s ts c rest cs)
    (hfirst : (front s ts).kind ∈ statementFirst) :
    c.Spelled s.sensorParens ∧ ∃ t tail more, ts = t :: tail
      ∧ c.children.tokens = t :: more ∧ Reads s tail more cs rest := by
  refine ⟨(makes_statementOf hs h follow he).1, ?_⟩
  rw [statementOf, ends_isAtAny_bind, ends_ite] at he
  rcases he with ⟨_, he⟩ | ⟨hnot, he⟩
  · obtain ⟨c, _, cs₁, _, hc, he₁, rfl⟩ := ends_bind.mp he
    obtain ⟨semicolon, _, cs₂, _, hsemi, he₂, rfl⟩ := ends_bind.mp he₁
    obtain ⟨rfl, rfl, rfl⟩ := ends_pure.mp he₂
    obtain ⟨_, t, tail, more, rfl, htokens, hmore⟩ := h hc
    obtain ⟨_, hsr⟩ := makes_expectTerminator hs hsemi
    exact ⟨t, tail, more ++ [semicolon], rfl, by simp [Code.children, htokens],
      by simpa using hmore.trans hsr⟩
  · -- only a `;` starts a statement and no command
    have hk : (front s ts).kind = .semicolon := by
      simp only [statementFirst, List.mem_append, List.mem_singleton] at hfirst
      exact hfirst.resolve_left (by simpa using hnot)
    obtain ⟨t, tail, rfl, ht⟩ := exists_cons_of_front_kind hs (by decide) hk
    obtain ⟨semicolon, _, cs₁, _, hsemi, he₁, rfl⟩ := ends_bind.mp he
    obtain ⟨rfl, rfl, rfl⟩ := ends_pure.mp he₁
    rcases (ends_expectTerminator hs).mp hsemi with
      ⟨hcons, _, rfl⟩ | ⟨_, _, hne, _⟩ | ⟨stray, hcons, hne, _⟩
    · cases hcons
      exact ⟨t, _, [], rfl, rfl, .done _⟩
    · exact absurd ht hne
    · cases hcons
      exact absurd ht hne

/-- A block starts with its opening word, and its list is made of what was read, garbage apart. -/
theorem opens_block (hs : s.stop.kind = .eof) {command : Rule Command}
    (h : OpensCode command s) {t : Token} {c : Command} (ht : t.kind = .begin_)
    (he : Ends (block command) s (t :: ts) c rest cs) :
    c.Spelled s.sensorParens ∧ ∃ more, c.children.tokens = t :: more ∧ Reads s ts more cs rest := by
  rw [block, ends_expect_bind_of_kind ht] at he
  obtain ⟨body, mid, cs₁, _, hbody, he₁, rfl⟩ := ends_bind.mp he
  obtain ⟨closing, _, cs₂, _, hclosing, he₂, rfl⟩ := ends_bind.mp he₁
  obtain ⟨rfl, rfl, rfl⟩ := ends_pure.mp he₂
  obtain ⟨hspelled, hlists, _⟩ := lists_listUpTo hs (by decide) (by decide)
    (fun _ _ _ _ he hfirst => opens_statementOf hs h he hfirst) ts.length (Nat.le_refl _) hbody
  obtain ⟨hck, hread⟩ := hlists.close hs (by decide) (by decide) hclosing
  refine ⟨⟨ht, Code.spelled_ofList hspelled, hck⟩, _, rfl, ?_⟩
  simpa using hread

/-- Whatever the token at hand chooses starts with that token.  That token is no end of input, so it
is one of the list and is taken. -/
theorem opens_commandStep (hs : s.stop.kind = .eof) {inner : Rule Command}
    (h : OpensCode inner s) : OpensCode (commandStep inner) s := by
  intro ts c rest cs he
  simp only [commandStep, ends_peek_bind] at he
  split at he
  · next hk =>
    obtain ⟨t, tail, rfl, ht⟩ := exists_cons_of_front_kind hs (by decide) hk
    obtain ⟨hg, more, htokens, hread⟩ := opens_call hs ht he
    exact ⟨hg, t, tail, more, rfl, htokens, hread⟩
  · next hk =>
    obtain ⟨t, tail, rfl, ht⟩ := exists_cons_of_front_kind hs (by decide) hk
    obtain ⟨hg, more, htokens, hread⟩ := opens_cond hs h ht he
    exact ⟨hg, t, tail, more, rfl, htokens, hread⟩
  · next hk =>
    obtain ⟨t, tail, rfl, ht⟩ := exists_cons_of_front_kind hs (by decide) hk
    obtain ⟨hg, more, htokens, hread⟩ := opens_whileDo hs h ht he
    exact ⟨hg, t, tail, more, rfl, htokens, hread⟩
  · next hk =>
    obtain ⟨t, tail, rfl, ht⟩ := exists_cons_of_front_kind hs (by decide) hk
    obtain ⟨hg, more, htokens, hread⟩ := opens_times hs h ht he
    exact ⟨hg, t, tail, more, rfl, htokens, hread⟩
  · next hk =>
    obtain ⟨t, tail, rfl, ht⟩ := exists_cons_of_front_kind hs (by decide) hk
    obtain ⟨hg, more, htokens, hread⟩ := opens_block hs h ht he
    exact ⟨hg, t, tail, more, rfl, htokens, hread⟩
  · split at he
    · next action haction =>
      -- no action is the end of input, so that there is a token to take
      have hne : (front s ts).kind ≠ .eof := by
        intro heof
        simp [heof, Builtin.ofKind?] at haction
      obtain ⟨t, tail, rfl, _⟩ := exists_cons_of_front_kind hs hne rfl
      rw [ends_advance_bind] at he
      obtain ⟨rfl, rfl, rfl⟩ := ends_pure.mp he
      exact ⟨haction, t, _, [], rfl, rfl, .done _⟩
    · exact absurd he ends_noViable

/-- Commands of any depth start with the token at hand. -/
theorem opens_command (hs : s.stop.kind = .eof) : OpensCode command s :=
  opens_nested fun _ h => opens_commandStep hs h

/-! ## §4. Definitions and programs. -/

theorem makes_optionalParameter (hs : s.stop.kind = .eof) :
    Makes optionalParameter s (∀ p ∈ ·, p.Spelled) (fun p => (parameterForest p).tokens) := by
  intro ts p rest cs he
  rw [optionalParameter, ends_isAt_bind, ends_ite] at he
  rcases he with ⟨_, he⟩ | ⟨_, he⟩
  · obtain ⟨p, hp, rfl⟩ := ends_map.mp he
    obtain ⟨hpk, hpr⟩ := makes_parameter hs hp
    exact ⟨by simpa using hpk, by simpa [parameterForest, Parameter.view] using hpr⟩
  · obtain ⟨rfl, rfl, rfl⟩ := ends_pure.mp he
    exact ⟨by simp, .done _⟩

/-- A definition is spelled, and made of what was read, with its body or without.  The tokens of
each part are those it was read from, and the parts stand in the order of the rule. -/
theorem makes_definition (hs : s.stop.kind = .eof) :
    Makes definition s (·.Spelled s.sensorParens) (·.view.tokens) := by
  intro ts d rest cs he
  simp only [definition, ends_peek_bind] at he
  split at he
  · obtain ⟨keyword, _, cs₁, _, hkeyword, he₁, rfl⟩ := ends_bind.mp he
    obtain ⟨name, _, cs₂, _, hname, he₂, rfl⟩ := ends_bind.mp he₁
    obtain ⟨parameter, _, cs₃, _, hparameter, he₃, rfl⟩ := ends_bind.mp he₂
    obtain ⟨as_, _, cs₄, _, has, he₄, rfl⟩ := ends_bind.mp he₃
    obtain ⟨body, _, cs₅, _, hbody, he₅, rfl⟩ := ends_bind.mp he₄
    obtain ⟨rfl, rfl, rfl⟩ := ends_pure.mp he₅
    obtain ⟨hkk, hkr⟩ := makes_expect hs (by decide) hkeyword
    obtain ⟨hnk, hnr⟩ := makes_expect hs (by decide) hname
    obtain ⟨hpk, hpr⟩ := makes_optionalParameter hs hparameter
    obtain ⟨hak, har⟩ := makes_expect hs (by decide) has
    obtain ⟨hbk, hbr⟩ := makes_statementOf hs (opens_command hs) _ hbody
    refine ⟨⟨hkk, hnk, hpk, hak, hbk⟩, ?_⟩
    simpa [Definition.view, Node.tokens] using
      hkr.trans (hnr.trans (hpr.trans (har.trans hbr)))
  · obtain ⟨keyword, _, cs₁, _, hkeyword, he₁, rfl⟩ := ends_bind.mp he
    obtain ⟨name, _, cs₂, _, hname, he₂, rfl⟩ := ends_bind.mp he₁
    obtain ⟨parameter, _, cs₃, _, hparameter, he₃, rfl⟩ := ends_bind.mp he₂
    obtain ⟨semicolon, _, cs₄, _, hsemi, he₄, rfl⟩ := ends_bind.mp he₃
    obtain ⟨rfl, rfl, rfl⟩ := ends_pure.mp he₄
    obtain ⟨hkk, hkr⟩ := makes_expect hs (by decide) hkeyword
    obtain ⟨hnk, hnr⟩ := makes_expect hs (by decide) hname
    obtain ⟨hpk, hpr⟩ := makes_optionalParameter hs hparameter
    obtain ⟨hsk, hsr⟩ := makes_expectTerminator hs hsemi
    refine ⟨⟨hkk, hnk, hpk, hsk⟩, ?_⟩
    simpa [Definition.view, Node.tokens] using hkr.trans (hnr.trans (hpr.trans hsr))
  · exact absurd he ends_noViable

/-- The main part is spelled, and made of what was read between its two words. -/
theorem makes_mainPart (hs : s.stop.kind = .eof) :
    Makes mainPart s (·.Spelled s.sensorParens) (·.view.tokens) := by
  intro ts m rest cs he
  obtain ⟨opening, mid, cs₁, _, hopening, he₁, rfl⟩ := ends_bind.mp he
  obtain ⟨body, _, cs₂, _, hbody, he₂, rfl⟩ := ends_bind.mp he₁
  obtain ⟨closing, _, cs₃, _, hclosing, he₃, rfl⟩ := ends_bind.mp he₂
  obtain ⟨rfl, rfl, rfl⟩ := ends_pure.mp he₃
  obtain ⟨hok, hor⟩ := makes_expect hs (by decide) hopening
  obtain ⟨hspelled, hlists, _⟩ := lists_listUpTo hs (by decide) (by decide)
    (fun _ _ _ _ he hfirst => opens_statementOf hs (opens_command hs) he hfirst)
    mid.length (Nat.le_refl _) hbody
  obtain ⟨hck, hread⟩ := hlists.close hs (by decide) (by decide) hclosing
  refine ⟨⟨hok, Code.spelled_ofList hspelled, hck⟩, ?_⟩
  simpa [Main.tokens_view] using hor.trans hread

/-- A program that the grammar ends with is spelled, its tokens are what was
read, and nothing is left. -/
theorem makes_program (hs : s.stop.kind = .eof) {p : Program}
    (he : Ends program s ts p rest cs) :
    p.Spelled s.sensorParens ∧ Reads s ts p.view.tokens cs rest
      ∧ (front s rest).kind = .eof := by
  obtain ⟨opening, _, cs₁, _, hopening, he₁, rfl⟩ := ends_bind.mp he
  obtain ⟨definitions, _, cs₂, _, hdefinitions, he₂, rfl⟩ := ends_bind.mp he₁
  obtain ⟨main, _, cs₃, _, hmain, he₃, rfl⟩ := ends_bind.mp he₂
  obtain ⟨closing, _, cs₄, _, hclosing, he₄, rfl⟩ := ends_bind.mp he₃
  obtain ⟨_, _, cs₅, _, hfinish, he₅, rfl⟩ := ends_bind.mp he₄
  obtain ⟨rfl, rfl, rfl⟩ := ends_pure.mp he₅
  obtain ⟨heof, rfl, rfl⟩ := ends_finish.mp hfinish
  obtain ⟨hok, hor⟩ := makes_expect hs (by decide) hopening
  obtain ⟨hdk, hdr⟩ := makes_many (makes_definition hs) hdefinitions
  obtain ⟨hmk, hmr⟩ := makes_mainPart hs hmain
  obtain ⟨hck, hcr⟩ := makes_expect hs (by decide) hclosing
  refine ⟨⟨hok, hdk, hmk, hck⟩, ?_, heof⟩
  simpa [Program.tokens_view] using hor.trans (hdr.trans (hmr.trans hcr))

/-! ## §5. Accepted sources. -/

/-- No entry of the table makes an end of input, so there is only the one behind the text. -/
theorem lexicon_emitsNoEnd : lexicon.EmitsNoEnd := by
  unfold Lexicon.EmitsNoEnd
  decide

/-- What `parseTokens` accepts was read to its end with harmless complaints
only. -/
theorem exists_reads_of_parseTokens {tokens : List Token} {program : Program}
    (h : parseTokens tokens = .ok program) :
    ∃ s : Setting, ∃ p rest cs, s.label = label ∧ p.Spelled false
      ∧ Reads s (beforeEnd tokens) p.view.tokens cs rest ∧ (front s rest).kind = .eof
      ∧ serious cs = [] ∧ program = if cs.isEmpty then p else p.settle := by
  simp only [parseTokens] at h
  split at h
  · cases h
  · next p hresult =>
    split at h
    · next hserious =>
      obtain ⟨hspelled, hreads, heof⟩ := makes_program (endToken_kind tokens)
        (ends_of_result hresult)
      exact ⟨_, p, _, _, rfl, hspelled, hreads, heof, hserious, (Except.ok.inj h).symm⟩
    · cases h

/-- An accepted source was read to its end with harmless complaints only.  The tree that was read is
settled if there were any. -/
theorem exists_reads_of_parse {source : String} {parsed : Parsed Program}
    (h : parse source = .ok parsed) :
    ∃ s : Setting, ∃ p cs, s.label = label ∧ p.Spelled false
      ∧ Reads s (lexicon.bodyTokens source) p.view.tokens cs []
      ∧ serious cs = [] ∧ parsed.program = if cs.isEmpty then p else p.settle := by
  simp only [parse] at h
  split at h
  · cases htokens : parseTokens (lexicon.tokenize source).tokens with
    | error failure => simp [htokens, Except.map] at h
    | ok program =>
      obtain rfl : ⟨program, _⟩ = parsed := by simpa [htokens, Except.map] using h
      obtain ⟨s, p, rest, cs, hlabel, hspelled, hreads, heof, hserious, hp⟩ :=
        exists_reads_of_parseTokens htokens
      rw [Lexicon.beforeEnd_tokens lexicon_emitsNoEnd] at hreads
      -- the end of input is no token of the source, so all of them were read
      have hrest : rest = [] := by
        cases rest with
        | nil => rfl
        | cons t rest =>
          exact absurd heof (Lexicon.kind_ne_eof_of_mem lexicon_emitsNoEnd
            (hreads.suffix.subset (by simp)))
      exact ⟨s, p, cs, hlabel, hspelled, hrest ▸ hreads, hserious, hp⟩
  · cases h

end RobotLang.Worded
