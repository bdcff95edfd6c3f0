/-
  RobotLang.Proofs.Braced.Reading
  ───────────────────────────────
  **THE BRACED GRAMMAR MAKES SPELLED PROGRAMS AND ACCOUNTS FOR EVERY TOKEN.**

  The same promise as in the worded dialect:

      Makes program s (·.Spelled s.sensorParens) (·.view.tokens)

  The dialect is read without recovery, so for an accepted source the trace is
  the tokens themselves and there are no complaints.
-/
import RobotLang.Dialect
import RobotLang.Proofs.Lexing.Token
import RobotLang.Proofs.Rule.Expression

namespace RobotLang.Braced

open Rule

/-! ## §1. Spelled programs. -/

/-- The code is spelled by its tokens. -/
def Code.Spelled (parens : Bool) {part : Part} : Code part → Prop
  | .nil => True
  | .cons head tail => head.Spelled parens ∧ tail.Spelled parens
  | .empty semicolon => semicolon.kind = .semicolon
  | .builtin action keyword left right semicolon =>
    Builtin.ofKind? keyword.kind = some action ∧ left.kind = .leftParen
      ∧ right.kind = .rightParen ∧ semicolon.kind = .semicolon
  | .call name left argument right semicolon =>
    name.kind = .identifier ∧ left.kind = .leftParen ∧ (∀ n ∈ argument, n.Spelled)
      ∧ right.kind = .rightParen ∧ semicolon.kind = .semicolon
  | .cond keyword left test right yes =>
    keyword.kind = .if_ ∧ left.kind = .leftParen ∧ test.Spelled parens
      ∧ right.kind = .rightParen ∧ yes.Spelled parens
  | .condElse keyword left test right yes otherwise no =>
    keyword.kind = .if_ ∧ left.kind = .leftParen ∧ test.Spelled parens
      ∧ right.kind = .rightParen ∧ yes.Spelled parens ∧ otherwise.kind = .else_
      ∧ no.Spelled parens
  | .whileDo keyword left test right body =>
    keyword.kind = .while_ ∧ left.kind = .leftParen ∧ test.Spelled parens
      ∧ right.kind = .rightParen ∧ body.Spelled parens
  | .times keyword left count right body =>
    keyword.kind = .repeat_ ∧ left.kind = .leftParen ∧ count.Spelled
      ∧ right.kind = .rightParen ∧ body.Spelled parens
  | .block left body right =>
    left.kind = .leftBrace ∧ body.Spelled parens ∧ right.kind = .rightBrace

/-- The block is spelled by its tokens. -/
def Block.Spelled (parens : Bool) (b : Block) : Prop :=
  b.left.kind = .leftBrace ∧ b.body.Spelled parens ∧ b.right.kind = .rightBrace

/-- The definition is spelled by its tokens. -/
def Definition.Spelled (parens : Bool) (d : Definition) : Prop :=
  d.keyword.kind = .define ∧ d.name.kind = .identifier ∧ d.parameter.Spelled
    ∧ d.block.Spelled parens

/-- The main part is spelled by its tokens. -/
def Main.Spelled (parens : Bool) (m : Main) : Prop :=
  m.keyword.kind = .program ∧ m.left.kind = .leftParen ∧ m.right.kind = .rightParen
    ∧ m.block.Spelled parens

/-- The program is spelled by its tokens. -/
def Program.Spelled (parens : Bool) (p : Program) : Prop :=
  p.keyword.kind = .class_ ∧ p.name.kind = .program ∧ p.left.kind = .leftBrace
    ∧ (∀ d ∈ p.definitions, d.Spelled parens) ∧ p.main.Spelled parens
    ∧ p.right.kind = .rightBrace

theorem Code.spelled_ofList {parens : Bool} {ss : List Statement} :
    (Code.ofList ss).Spelled parens ↔ ∀ s ∈ ss, s.Spelled parens := by
  induction ss with
  | nil => simp [Code.ofList, Code.Spelled]
  | cons s ss ih => simp [Code.ofList, Code.Spelled, ih]

/-! ## §2. Statements. -/

variable {s : Setting} {ts rest : List Token} {cs : List Diagnostic}

/-- The code is spelled, and its tokens are what was read. -/
abbrev MakesCode {part : Part} (rule : Rule (Code part)) (s : Setting) : Prop :=
  Makes rule s (·.Spelled s.sensorParens) (·.children.tokens)

/-- A block is spelled, and made of what was read between its braces. -/
theorem makes_blockOf (hs : s.stop.kind = .eof) {statement : Rule Statement}
    (h : MakesCode statement s) :
    Makes (blockOf statement) s (·.Spelled s.sensorParens) (·.view.tokens) := by
  intro ts b rest cs he
  obtain ⟨left, _, cs₁, _, hleft, he₁, rfl⟩ := ends_bind.mp he
  obtain ⟨body, _, cs₂, _, hbody, he₂, rfl⟩ := ends_bind.mp he₁
  obtain ⟨right, _, cs₃, _, hright, he₃, rfl⟩ := ends_bind.mp he₂
  obtain ⟨rfl, rfl, rfl⟩ := ends_pure.mp he₃
  obtain ⟨hlk, hlr⟩ := makes_expect hs (by decide) hleft
  obtain ⟨hbk, hbr⟩ := makes_many h hbody
  obtain ⟨hrk, hrr⟩ := makes_expect hs (by decide) hright
  refine ⟨⟨hlk, Code.spelled_ofList.mpr hbk, hrk⟩, ?_⟩
  simpa [Block.tokens_view] using hlr.trans (hbr.trans hrr)

/-- What follows the argument of a call. -/
theorem makes_callEnd (hs : s.stop.kind = .eof) {name left : Token} {argument : Option Integer}
    {c : Statement}
    (he : Ends (do
      let right ← expect .rightParen
      return .call name left argument right (← expect .semicolon)) s ts c rest cs) :
    ∃ right semicolon, c = .call name left argument right semicolon
      ∧ right.kind = .rightParen ∧ semicolon.kind = .semicolon
      ∧ Reads s ts [right, semicolon] cs rest := by
  obtain ⟨right, _, cs₁, _, hright, he₁, rfl⟩ := ends_bind.mp he
  obtain ⟨semicolon, _, cs₂, _, hsemi, he₂, rfl⟩ := ends_bind.mp he₁
  obtain ⟨rfl, rfl, rfl⟩ := ends_pure.mp he₂
  obtain ⟨hrk, hrr⟩ := makes_expect hs (by decide) hright
  obtain ⟨hsk, hsr⟩ := makes_expect hs (by decide) hsemi
  exact ⟨right, semicolon, rfl, hrk, hsk, by simpa using hrr.trans hsr⟩

/-- A call is spelled, and made of what was read, with an argument or without. -/
theorem makes_call (hs : s.stop.kind = .eof) : MakesCode call s := by
  intro ts c rest cs he
  obtain ⟨name, _, cs₁, _, hname, he₁, rfl⟩ := ends_bind.mp he
  obtain ⟨left, _, cs₂, _, hleft, he₂, rfl⟩ := ends_bind.mp he₁
  obtain ⟨hnk, hnr⟩ := makes_expect hs (by decide) hname
  obtain ⟨hlk, hlr⟩ := makes_expect hs (by decide) hleft
  rw [ends_isAt_bind, ends_ite] at he₂
  rcases he₂ with ⟨_, he₃⟩ | ⟨_, he₃⟩
  · obtain ⟨right, semicolon, rfl, hrk, hsk, hread⟩ := makes_callEnd hs he₃
    refine ⟨⟨hnk, hlk, by simp, hrk, hsk⟩, ?_⟩
    simpa [Code.children, Code.callView, Node.tokens] using hnr.trans (hlr.trans hread)
  · obtain ⟨argument, _, cs₃, _, hargument, he₄, rfl⟩ := ends_bind.mp he₃
    obtain ⟨n, hn, rfl⟩ := ends_map.mp hargument
    obtain ⟨hik, hir⟩ := makes_integer hs hn
    obtain ⟨right, semicolon, rfl, hrk, hsk, hread⟩ := makes_callEnd hs he₄
    refine ⟨⟨hnk, hlk, by simpa using hik, hrk, hsk⟩, ?_⟩
    simpa [Code.children, Code.callView, Node.tokens] using
      hnr.trans (hlr.trans (hir.trans hread))

/-- An action is spelled by its word, its parentheses and its `;`. -/
theorem makes_builtin (hs : s.stop.kind = .eof) {action : Builtin} {t : Token}
    (ht : Builtin.ofKind? t.kind = some action) {c : Statement}
    (he : Ends (builtin action) s (t :: ts) c rest cs) :
    c.Spelled s.sensorParens ∧ Reads s (t :: ts) c.children.tokens cs rest := by
  rw [builtin, ends_advance_bind] at he
  obtain ⟨left, _, cs₁, _, hleft, he₁, rfl⟩ := ends_bind.mp he
  obtain ⟨right, _, cs₂, _, hright, he₂, rfl⟩ := ends_bind.mp he₁
  obtain ⟨semicolon, _, cs₃, _, hsemi, he₃, rfl⟩ := ends_bind.mp he₂
  obtain ⟨rfl, rfl, rfl⟩ := ends_pure.mp he₃
  obtain ⟨hlk, hlr⟩ := makes_expect hs (by decide) hleft
  obtain ⟨hrk, hrr⟩ := makes_expect hs (by decide) hright
  obtain ⟨hsk, hsr⟩ := makes_expect hs (by decide) hsemi
  refine ⟨⟨ht, hlk, hrk, hsk⟩, ?_⟩
  simpa [Code.children] using .take t (hlr.trans (hrr.trans hsr))

/-- A conditional is spelled, with the second branch or without.  The tokens of each part are those
it was read from, and the parts stand in the order of the rule. -/
theorem makes_cond (hs : s.stop.kind = .eof) {statement : Rule Statement}
    (h : MakesCode statement s) : MakesCode (cond statement) s := by
  intro ts c rest cs he
  obtain ⟨keyword, _, cs₁, _, hkeyword, he₁, rfl⟩ := ends_bind.mp he
  obtain ⟨left, _, cs₂, _, hleft, he₂, rfl⟩ := ends_bind.mp he₁
  obtain ⟨test, _, cs₃, _, htest, he₃, rfl⟩ := ends_bind.mp he₂
  obtain ⟨right, _, cs₄, _, hright, he₄, rfl⟩ := ends_bind.mp he₃
  obtain ⟨yes, _, cs₅, _, hyes, he₅, rfl⟩ := ends_bind.mp he₄
  obtain ⟨hkk, hkr⟩ := makes_expect hs (by decide) hkeyword
  obtain ⟨hlk, hlr⟩ := makes_expect hs (by decide) hleft
  obtain ⟨htk, htr⟩ := makes_term hs htest
  obtain ⟨hrk, hrr⟩ := makes_expect hs (by decide) hright
  obtain ⟨hyk, hyr⟩ := h hyes
  rw [ends_eat_bind] at he₅
  split at he₅
  · next hk =>
    obtain ⟨otherwise, tail, rfl, ho⟩ := exists_cons_of_front_kind hs (by decide) hk
    obtain ⟨no, _, cs₆, _, hno, he₆, rfl⟩ := ends_bind.mp he₅
    obtain ⟨rfl, rfl, rfl⟩ := ends_pure.mp he₆
    obtain ⟨hnk, hnr⟩ := h hno
    refine ⟨⟨hkk, hlk, htk, hrk, hyk, ho, hnk⟩, ?_⟩
    simpa [Code.children] using
      hkr.trans (hlr.trans (htr.trans (hrr.trans (hyr.trans (.take otherwise hnr)))))
  · obtain ⟨rfl, rfl, rfl⟩ := ends_pure.mp he₅
    refine ⟨⟨hkk, hlk, htk, hrk, hyk⟩, ?_⟩
    simpa [Code.children] using hkr.trans (hlr.trans (htr.trans (hrr.trans hyr)))

theorem makes_whileDo (hs : s.stop.kind = .eof) {statement : Rule Statement}
    (h : MakesCode statement s) : MakesCode (whileDo statement) s := by
  intro ts c rest cs he
  obtain ⟨keyword, _, cs₁, _, hkeyword, he₁, rfl⟩ := ends_bind.mp he
  obtain ⟨left, _, cs₂, _, hleft, he₂, rfl⟩ := ends_bind.mp he₁
  obtain ⟨test, _, cs₃, _, htest, he₃, rfl⟩ := ends_bind.mp he₂
  obtain ⟨right, _, cs₄, _, hright, he₄, rfl⟩ := ends_bind.mp he₃
  obtain ⟨body, _, cs₅, _, hbody, he₅, rfl⟩ := ends_bind.mp he₄
  obtain ⟨rfl, rfl, rfl⟩ := ends_pure.mp he₅
  obtain ⟨hkk, hkr⟩ := makes_expect hs (by decide) hkeyword
  obtain ⟨hlk, hlr⟩ := makes_expect hs (by decide) hleft
  obtain ⟨htk, htr⟩ := makes_term hs htest
  obtain ⟨hrk, hrr⟩ := makes_expect hs (by decide) hright
  obtain ⟨hbk, hbr⟩ := h hbody
  refine ⟨⟨hkk, hlk, htk, hrk, hbk⟩, ?_⟩
  simpa [Code.children] using hkr.trans (hlr.trans (htr.trans (hrr.trans hbr)))

theorem makes_times (hs : s.stop.kind = .eof) {statement : Rule Statement}
    (h : MakesCode statement s) : MakesCode (times statement) s := by
  intro ts c rest cs he
  obtain ⟨keyword, _, cs₁, _, hkeyword, he₁, rfl⟩ := ends_bind.mp he
  obtain ⟨left, _, cs₂, _, hleft, he₂, rfl⟩ := ends_bind.mp he₁
  obtain ⟨count, _, cs₃, _, hcount, he₃, rfl⟩ := ends_bind.mp he₂
  obtain ⟨right, _, cs₄, _, hright, he₄, rfl⟩ := ends_bind.mp he₃
  obtain ⟨body, _, cs₅, _, hbody, he₅, rfl⟩ := ends_bind.mp he₄
  obtain ⟨rfl, rfl, rfl⟩ := ends_pure.mp he₅
  obtain ⟨hkk, hkr⟩ := makes_expect hs (by decide) hkeyword
  obtain ⟨hlk, hlr⟩ := makes_expect hs (by decide) hleft
  obtain ⟨hck, hcr⟩ := makes_integer hs hcount
  obtain ⟨hrk, hrr⟩ := makes_expect hs (by decide) hright
  obtain ⟨hbk, hbr⟩ := h hbody
  refine ⟨⟨hkk, hlk, hck, hrk, hbk⟩, ?_⟩
  simpa [Code.children] using hkr.trans (hlr.trans (hcr.trans (hrr.trans hbr)))

/-- Whatever the token at hand chooses is spelled, and made of what was read.  Each choice is one of
the lemmas above. -/
theorem makes_statementStep (hs : s.stop.kind = .eof) {inner : Rule Statement}
    (h : MakesCode inner s) : MakesCode (statementStep inner) s := by
  intro ts c rest cs he
  simp only [statementStep, ends_peek_bind] at he
  split at he
  · exact makes_cond hs h he
  · exact makes_whileDo hs h he
  · exact makes_times hs h he
  · obtain ⟨b, _, cs₁, _, hb, he₁, rfl⟩ := ends_bind.mp he
    obtain ⟨rfl, rfl, rfl⟩ := ends_pure.mp he₁
    obtain ⟨hbk, hbr⟩ := makes_blockOf hs h hb
    exact ⟨hbk, by simpa [Code.children, Block.tokens_view] using hbr⟩
  · exact makes_call hs he
  · next hk =>
    obtain ⟨t, tail, rfl, ht⟩ := exists_cons_of_front_kind hs (by decide) hk
    rw [ends_advance_bind] at he
    obtain ⟨rfl, rfl, rfl⟩ := ends_pure.mp he
    exact ⟨ht, .one t _⟩
  · split at he
    · next action haction =>
      have hne : (front s ts).kind ≠ .eof := by
        intro hk
        simp [hk, Builtin.ofKind?] at haction
      obtain ⟨t, tail, rfl, ht⟩ := exists_cons_of_front_kind hs hne rfl
      exact makes_builtin hs (by simpa using haction) he
    · exact absurd he ends_noViable

/-- Statements of any depth are spelled, and made of what was read. -/
theorem makes_statement (hs : s.stop.kind = .eof) : MakesCode statement s :=
  makes_nested fun _ h => makes_statementStep hs h

/-! ## §3. Definitions and programs. -/

theorem makes_block (hs : s.stop.kind = .eof) :
    Makes block s (·.Spelled s.sensorParens) (·.view.tokens) :=
  makes_blockOf hs (makes_statement hs)

/-- A definition is spelled, and made of what was read. -/
theorem makes_definition (hs : s.stop.kind = .eof) :
    Makes definition s (·.Spelled s.sensorParens) (·.view.tokens) := by
  intro ts d rest cs he
  obtain ⟨keyword, _, cs₁, _, hkeyword, he₁, rfl⟩ := ends_bind.mp he
  obtain ⟨name, _, cs₂, _, hname, he₂, rfl⟩ := ends_bind.mp he₁
  obtain ⟨parameter, _, cs₃, _, hparameter, he₃, rfl⟩ := ends_bind.mp he₂
  obtain ⟨block, _, cs₄, _, hblock, he₄, rfl⟩ := ends_bind.mp he₃
  obtain ⟨rfl, rfl, rfl⟩ := ends_pure.mp he₄
  obtain ⟨hkk, hkr⟩ := makes_expect hs (by decide) hkeyword
  obtain ⟨hnk, hnr⟩ := makes_expect hs (by decide) hname
  obtain ⟨hpk, hpr⟩ := makes_parameter hs hparameter
  obtain ⟨hbk, hbr⟩ := makes_block hs hblock
  refine ⟨⟨hkk, hnk, hpk, hbk⟩, ?_⟩
  simpa [Definition.tokens_view] using hkr.trans (hnr.trans (hpr.trans hbr))

theorem makes_mainPart (hs : s.stop.kind = .eof) :
    Makes mainPart s (·.Spelled s.sensorParens) (·.view.tokens) := by
  intro ts m rest cs he
  obtain ⟨keyword, _, cs₁, _, hkeyword, he₁, rfl⟩ := ends_bind.mp he
  obtain ⟨left, _, cs₂, _, hleft, he₂, rfl⟩ := ends_bind.mp he₁
  obtain ⟨right, _, cs₃, _, hright, he₃, rfl⟩ := ends_bind.mp he₂
  obtain ⟨block, _, cs₄, _, hblock, he₄, rfl⟩ := ends_bind.mp he₃
  obtain ⟨rfl, rfl, rfl⟩ := ends_pure.mp he₄
  obtain ⟨hkk, hkr⟩ := makes_expect hs (by decide) hkeyword
  obtain ⟨hlk, hlr⟩ := makes_expect hs (by decide) hleft
  obtain ⟨hrk, hrr⟩ := makes_expect hs (by decide) hright
  obtain ⟨hbk, hbr⟩ := makes_block hs hblock
  refine ⟨⟨hkk, hlk, hrk, hbk⟩, ?_⟩
  simpa [Main.tokens_view] using hkr.trans (hlr.trans (hrr.trans hbr))

/-- A program that the grammar ends with is spelled, its tokens are what was
read, and nothing is left. -/
theorem makes_program (hs : s.stop.kind = .eof) {p : Program}
    (he : Ends program s ts p rest cs) :
    p.Spelled s.sensorParens ∧ Reads s ts p.view.tokens cs rest
      ∧ (front s rest).kind = .eof := by
  obtain ⟨keyword, _, cs₁, _, hkeyword, he₁, rfl⟩ := ends_bind.mp he
  obtain ⟨name, _, cs₂, _, hname, he₂, rfl⟩ := ends_bind.mp he₁
  obtain ⟨left, _, cs₃, _, hleft, he₃, rfl⟩ := ends_bind.mp he₂
  obtain ⟨definitions, _, cs₄, _, hdefinitions, he₄, rfl⟩ := ends_bind.mp he₃
  obtain ⟨main, _, cs₅, _, hmain, he₅, rfl⟩ := ends_bind.mp he₄
  obtain ⟨right, _, cs₆, _, hright, he₆, rfl⟩ := ends_bind.mp he₅
  obtain ⟨_, _, cs₇, _, hfinish, he₇, rfl⟩ := ends_bind.mp he₆
  obtain ⟨rfl, rfl, rfl⟩ := ends_pure.mp he₇
  obtain ⟨heof, rfl, rfl⟩ := ends_finish.mp hfinish
  obtain ⟨hkk, hkr⟩ := makes_expect hs (by decide) hkeyword
  obtain ⟨hnk, hnr⟩ := makes_expect hs (by decide) hname
  obtain ⟨hlk, hlr⟩ := makes_expect hs (by decide) hleft
  obtain ⟨hdk, hdr⟩ := makes_many (makes_definition hs) hdefinitions
  obtain ⟨hmk, hmr⟩ := makes_mainPart hs hmain
  obtain ⟨hrk, hrr⟩ := makes_expect hs (by decide) hright
  refine ⟨⟨hkk, hnk, hlk, hdk, hmk, hrk⟩, ?_, heof⟩
  simpa [Program.tokens_view] using
    hkr.trans (hnr.trans (hlr.trans (hdr.trans (hmr.trans hrr))))

/-! ## §4. Accepted sources. -/

/-- No entry of the table makes an end of input, so there is only the one behind the text. -/
theorem lexicon_emitsNoEnd : lexicon.EmitsNoEnd := by
  unfold Lexicon.EmitsNoEnd
  decide

/-- What `parseTokens` accepts is spelled by the tokens up to the end of input. -/
theorem spelled_of_parseTokens {tokens : List Token} {p : Program}
    (h : parseTokens tokens = .ok p) :
    p.Spelled true ∧ ∃ s : Setting, ∃ rest, beforeEnd tokens = p.view.tokens ++ rest
      ∧ (front s rest).kind = .eof := by
  simp only [parseTokens] at h
  split at h
  · next p' hresult hcomplaints =>
    cases h
    obtain ⟨hspelled, hreads, heof⟩ := makes_program (endToken_kind tokens)
      (ends_of_result hresult)
    exact ⟨hspelled, _, _, (hreads.strict rfl).1, heof⟩
  · cases h

/-- An accepted program is spelled by the tokens of its source. -/
theorem spelled_of_parse {source : String} {parsed : Parsed Program}
    (h : parse source = .ok parsed) :
    parsed.program.Spelled true ∧ parsed.program.view.tokens = lexicon.bodyTokens source := by
  simp only [parse] at h
  split at h
  · cases htokens : parseTokens (lexicon.tokenize source).tokens with
    | error failure => simp [htokens, Except.map] at h
    | ok program =>
      obtain rfl : ⟨program, _⟩ = parsed := by simpa [htokens, Except.map] using h
      obtain ⟨hspelled, s, rest, hread, heof⟩ := spelled_of_parseTokens htokens
      rw [Lexicon.beforeEnd_tokens lexicon_emitsNoEnd] at hread
      cases rest with
      | nil => exact ⟨hspelled, by simpa using hread.symm⟩
      | cons t rest =>
        have hmem : t ∈ lexicon.bodyTokens source := by simp [hread]
        exact absurd heof (Lexicon.kind_ne_eof_of_mem lexicon_emitsNoEnd hmem)
  · cases h

end RobotLang.Braced
