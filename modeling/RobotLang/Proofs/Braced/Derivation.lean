/-
  RobotLang.Proofs.Braced.Derivation
  ──────────────────────────────────
  **THE DOCUMENTED GRAMMAR OF THE BRACED DIALECT, AND ITS TREES.**

  `grammar` is the grammar as it is documented, one line for each symbol.  It
  is ambiguous where an `else` could belong to two `if`s, and says nothing
  about how a program is read.

  The spelled programs are its derivations:

      Derives grammar programClass (ts.map kind)  ∧  the literals of ts fit
        ↔  ∃ p, p.Spelled true ∧ p.view.tokens = ts
-/
import RobotLang.Proofs.Braced.Reading
import RobotLang.Proofs.Grammar.Expression

namespace RobotLang.Braced

/-! ## §1. The grammar. -/

/-- The symbols of the grammar. -/
inductive Symbol where
  | programClass | programDef | block | def_ | defParam
  | statement | singleStatement | statementFun | call | cond | loop | repeat_
  /-- One of the symbols that both dialects share. -/
  | expression (e : ExpressionSymbol)
  deriving DecidableEq, Repr

/-- The documented grammar. -/
def grammar : Symbol → Phrase Symbol
  | .programClass =>
    .inOrder [.token .class_, .token .program, .token .leftBrace, .star (.symbol .def_),
      .symbol .programDef, .token .rightBrace]
  | .programDef =>
    .inOrder [.token .program, .token .leftParen, .token .rightParen, .symbol .block]
  | .block => .inOrder [.token .leftBrace, .star (.symbol .statement), .token .rightBrace]
  | .def_ =>
    .inOrder [.token .define, .token .identifier, .symbol .defParam, .symbol .block]
  | .defParam => .inOrder [.token .leftParen, .opt (.token .identifier), .token .rightParen]
  | .statement =>
    .oneOf (.symbol .singleStatement)
      [.symbol .cond, .symbol .loop, .symbol .repeat_, .symbol .block]
  | .singleStatement =>
    .inOrder
      [.opt (.oneOf
        (.inOrder [.symbol .statementFun, .token .leftParen, .token .rightParen])
        [.symbol .call]), .token .semicolon]
  | .statementFun => .word [.move, .turnLeft, .pickBeeper, .putBeeper, .turnOff, .return_]
  | .call =>
    .inOrder [.token .identifier, .token .leftParen, .opt (.symbol (.expression .integer)),
      .token .rightParen]
  | .cond =>
    .inOrder [.token .if_, .token .leftParen, .symbol (.expression .term), .token .rightParen,
      .symbol .statement, .opt (.inOrder [.token .else_, .symbol .statement])]
  | .loop =>
    .inOrder [.token .while_, .token .leftParen, .symbol (.expression .term),
      .token .rightParen, .symbol .statement]
  | .repeat_ =>
    .inOrder [.token .repeat_, .token .leftParen, .symbol (.expression .integer),
      .token .rightParen, .symbol .statement]
  | .expression e => e.phrase true .expression

/-! ## §2. A program is a derivation. -/

/-- What the grammar has for a form of code. -/
def Part.phrase : Part → Phrase Symbol
  | .statement => .symbol .statement
  | .statements => .star (.symbol .statement)

/-- Every alternative of a statement is a statement. -/
theorem derives_statement (name : Symbol) {ks : List Kind}
    (hname : name ∈ [.singleStatement, .cond, .loop, .repeat_, .block])
    (h : Derives grammar (grammar name) ks) : Derives grammar (.symbol .statement) ks :=
  .symbol (.oneOf (List.mem_map_of_mem (f := Phrase.symbol) hname) (.symbol h))

/-- Expressions are those of both dialects, with parentheses behind sensors. -/
theorem grammar_expression (e : ExpressionSymbol) :
    grammar (.expression e) = e.phrase true .expression := rfl

/-- A spelled number is derived by the documented grammar. -/
theorem derives_integer {n : Integer} (hn : n.Spelled) :
    Derives grammar (.symbol (.expression .integer)) (n.children.tokens.map (·.kind)) :=
  Integer.derives grammar_expression hn

theorem derives_term {c : Condition .term} (hc : c.Spelled true) :
    Derives grammar (.symbol (.expression .term)) (c.children.tokens.map (·.kind)) :=
  Condition.derives grammar_expression hc

/-- A spelled statement is derived, construct by construct.  By induction on the code; a list is a
repetition of statements. -/
theorem Code.derives {part : Part} {c : Code part} (hc : c.Spelled true) :
    Derives grammar part.phrase (c.children.tokens.map (·.kind)) := by
  unfold Part.phrase
  induction c with
  | nil => exact .starNil
  | cons head tail ihhead ihtail =>
    have h := Derives.starCons (ihhead hc.1) (ihtail hc.2)
    simpa [Code.children] using h
  | empty semicolon =>
    -- a single statement whose optional command is missing
    have hk : semicolon.kind = .semicolon := hc
    have h := derives_statement .singleStatement (by decide)
      (.seq .optNone (.seq (.token _) .nothing))
    simpa [Code.children, hk] using h
  | builtin action keyword left right semicolon =>
    obtain ⟨hk, hl, hr, hsemi⟩ := hc
    have hword : Derives grammar (.symbol .statementFun) [keyword.kind] := by
      refine .symbol (.word ?_)
      show keyword.kind ∈ Builtin.kinds
      rw [← Builtin.ofKind?_isSome_iff, hk]
      rfl
    have h := derives_statement .singleStatement (by decide)
      (.seq (.optSome (.altLeft (.seq hword (.seq (.token _) (.seq (.token _) .nothing)))))
        (.seq (.token _) .nothing))
    simpa [Code.children, hl, hr, hsemi] using h
  | call name left argument right semicolon =>
    obtain ⟨hn, hl, ha, hr, hsemi⟩ := hc
    have hargument : Derives grammar (.opt (.symbol (.expression .integer)))
        ((argument.elim [] (·.children.tokens)).map (·.kind)) := by
      cases argument with
      | none => exact .optNone
      | some n => exact .optSome (derives_integer (ha n rfl))
    -- the argument stays optional here; what the tokens are is looked at last
    have hcall : Derives grammar (.symbol .call) _ := .symbol
      (.seq (.token _) (.seq (.token _) (.seq hargument (.seq (.token _) .nothing))))
    have h := derives_statement .singleStatement (by decide)
      (.seq (.optSome (.altRight hcall)) (.seq (.token _) .nothing))
    cases argument <;> simpa [Code.children, Code.callView, hn, hl, hr, hsemi] using h
  | cond keyword left test right yes ih =>
    obtain ⟨hk, hl, ht, hr, hyes⟩ := hc
    have h := derives_statement .cond (by decide)
      (.seq (.token _) (.seq (.token _) (.seq (derives_term ht) (.seq (.token _)
        (.seq (ih hyes) (.seq .optNone .nothing))))))
    simpa [Code.children, hk, hl, hr] using h
  | condElse keyword left test right yes otherwise no ihyes ihno =>
    obtain ⟨hk, hl, ht, hr, hyes, ho, hno⟩ := hc
    have h := derives_statement .cond (by decide)
      (.seq (.token _) (.seq (.token _) (.seq (derives_term ht) (.seq (.token _)
        (.seq (ihyes hyes) (.seq (.optSome (.seq (.token _) (.seq (ihno hno) .nothing)))
          .nothing))))))
    simpa [Code.children, hk, hl, hr, ho] using h
  | whileDo keyword left test right body ih =>
    obtain ⟨hk, hl, ht, hr, hbody⟩ := hc
    have h := derives_statement .loop (by decide)
      (.seq (.token _) (.seq (.token _) (.seq (derives_term ht) (.seq (.token _)
        (.seq (ih hbody) .nothing)))))
    simpa [Code.children, hk, hl, hr] using h
  | times keyword left count right body ih =>
    obtain ⟨hk, hl, hn, hr, hbody⟩ := hc
    have h := derives_statement .repeat_ (by decide)
      (.seq (.token _) (.seq (.token _) (.seq (derives_integer hn) (.seq (.token _)
        (.seq (ih hbody) .nothing)))))
    simpa [Code.children, hk, hl, hr] using h
  | block left body right ih =>
    obtain ⟨hl, hbody, hr⟩ := hc
    have h := derives_statement .block (by decide)
      (.seq (.token _) (.seq (ih hbody) (.seq (.token _) .nothing)))
    simpa [Code.children, hl, hr] using h

theorem Block.derives {b : Block} (hb : b.Spelled true) :
    Derives grammar (.symbol .block) (b.view.tokens.map (·.kind)) := by
  obtain ⟨hl, hbody, hr⟩ := hb
  have h : Derives grammar (.symbol .block) _ := .symbol
    (.seq (.token _) (.seq (Code.derives hbody) (.seq (.token _) .nothing)))
  simpa [Block.tokens_view, hl, hr] using h

/-- A spelled definition is derived with its parameter and its block. -/
theorem Definition.derives {d : Definition} (hd : d.Spelled true) :
    Derives grammar (.symbol .def_) (d.view.tokens.map (·.kind)) := by
  obtain ⟨hk, hn, hp, hb⟩ := hd
  have h : Derives grammar (.symbol .def_) _ := .symbol
    (.seq (.token _) (.seq (.token _) (.seq (Parameter.derives rfl hp)
      (.seq (Block.derives hb) .nothing))))
  simpa [Definition.tokens_view, hk, hn] using h

theorem Main.derives {m : Main} (hm : m.Spelled true) :
    Derives grammar (.symbol .programDef) (m.view.tokens.map (·.kind)) := by
  obtain ⟨hk, hl, hr, hb⟩ := hm
  have h : Derives grammar (.symbol .programDef) _ := .symbol
    (.seq (.token _) (.seq (.token _) (.seq (.token _) (.seq (Block.derives hb) .nothing))))
  simpa [Main.tokens_view, hk, hl, hr] using h

/-- A spelled program is a derivation of the kinds of its tokens. -/
theorem Program.derives {p : Program} (hp : p.Spelled true) :
    Derives grammar (.symbol .programClass) (p.view.tokens.map (·.kind)) := by
  obtain ⟨hk, hn, hl, hd, hm, hr⟩ := hp
  have h : Derives grammar (.symbol .programClass) _ := .symbol
    (.seq (.token _) (.seq (.token _) (.seq (.token _)
      (.seq (.starFlatMap fun d hmem => Definition.derives (hd d hmem))
        (.seq (Main.derives hm) (.seq (.token _) .nothing))))))
  simpa [Program.tokens_view, hk, hn, hl, hr, List.map_flatMap] using h

/-! ## §3. A derivation is a program. -/

/-- The tokens are those of a spelled statement. -/
def WritesStatement (ts : List Token) : Prop :=
  ∃ c : Statement, c.Spelled true ∧ c.children.tokens = ts

/-- What a symbol stands for. -/
def Symbol.Writes : Symbol → List Token → Prop
  | .programClass, ts => ∃ p : Program, p.Spelled true ∧ p.view.tokens = ts
  | .programDef, ts => ∃ m : Main, m.Spelled true ∧ m.view.tokens = ts
  | .block, ts => ∃ b : Block, b.Spelled true ∧ b.view.tokens = ts
  | .def_, ts => ∃ d : Definition, d.Spelled true ∧ d.view.tokens = ts
  | .defParam, ts => ∃ p : Parameter, p.Spelled ∧ p.children.tokens = ts
  | .statement, ts | .singleStatement, ts | .cond, ts | .loop, ts | .repeat_, ts =>
    WritesStatement ts
  | .statementFun, ts => ∃ t action, ts = [t] ∧ Builtin.ofKind? t.kind = some action
  | .call, ts =>
    ∃ name left argument right, name.kind = .identifier ∧ left.kind = .leftParen
      ∧ (∀ n ∈ argument, Integer.Spelled n) ∧ right.kind = .rightParen
      ∧ (Code.callView name left argument right).tokens = ts
  | .expression e, ts => e.Writes true ts

section Matching

variable {ts : List Token}

/-- A phrase of the grammar on tokens, with the trees as meanings. -/
abbrev Written (p : Phrase Symbol) (ts : List Token) : Prop :=
  p.Matches Symbol.Writes Token.LiteralFits ts

/-- What stands for a single statement, up to its `;`, is the tokens of one. -/
theorem writesStatement_of_single (h : Written (grammar .singleStatement) ts) :
    WritesStatement ts := by
  obtain ⟨us, _, rfl, hbody, h⟩ := Phrase.matches_inOrder_cons.mp h
  obtain ⟨semicolon, _, rfl, hsemi, _, rfl⟩ := Phrase.matches_inOrder_token.mp h
  rcases hbody with rfl | hbody
  · exact ⟨.empty semicolon, hsemi, rfl⟩
  · rcases hbody with h | h
    · obtain ⟨_, _, rfl, hword, h⟩ := Phrase.matches_inOrder_cons.mp h
      obtain ⟨left, _, rfl, hl, _, h⟩ := Phrase.matches_inOrder_token.mp h
      obtain ⟨right, _, rfl, hr, _, rfl⟩ := Phrase.matches_inOrder_token.mp h
      obtain ⟨keyword, action, rfl, hk⟩ := hword
      exact ⟨.builtin action keyword left right semicolon, ⟨hk, hl, hr, hsemi⟩, rfl⟩
    · obtain ⟨name, left, argument, right, hn, hl, ha, hr, rfl⟩ := h
      exact ⟨.call name left argument right semicolon, ⟨hn, hl, ha, hr, hsemi⟩,
        by simp [Code.children, Node.tokens]⟩

/-- The head of a conditional or a loop, and the statement behind it. -/
theorem exists_of_headed {k : Kind} {name : Symbol} {ps : List (Phrase Symbol)}
    (h : Written (.inOrder (.token k :: .token .leftParen :: .symbol name :: .token .rightParen
      :: .symbol .statement :: ps)) ts) :
    ∃ keyword left inside right, ∃ body : Statement, ∃ rest,
      ts = keyword :: left :: (inside ++ right :: (body.children.tokens ++ rest))
        ∧ keyword.kind = k ∧ left.kind = .leftParen ∧ name.Writes inside
        ∧ right.kind = .rightParen ∧ body.Spelled true ∧ Written (.inOrder ps) rest := by
  obtain ⟨keyword, _, rfl, hk, _, h⟩ := Phrase.matches_inOrder_token.mp h
  obtain ⟨left, _, rfl, hl, _, h⟩ := Phrase.matches_inOrder_token.mp h
  obtain ⟨inside, _, rfl, hinside, h⟩ := Phrase.matches_inOrder_cons.mp h
  obtain ⟨right, _, rfl, hr, _, h⟩ := Phrase.matches_inOrder_token.mp h
  obtain ⟨_, rest, rfl, hbody, hrest⟩ := Phrase.matches_inOrder_cons.mp h
  obtain ⟨body, hbody, rfl⟩ := hbody
  exact ⟨keyword, left, inside, right, body, rest, rfl, hk, hl, hinside, hr, hbody, hrest⟩

/-- A conditional with or without its second branch.  Which of the two it is shows in whether "else"
is derived. -/
theorem writesStatement_of_cond (h : Written (grammar .cond) ts) : WritesStatement ts := by
  obtain ⟨keyword, left, _, right, yes, _, rfl, hk, hl, htest, hr, hyes, h⟩ := exists_of_headed h
  obtain ⟨_, _, rfl, helse, rfl⟩ := Phrase.matches_inOrder_cons.mp h
  obtain ⟨test, ht, rfl⟩ := htest
  rcases helse with rfl | h
  · exact ⟨.cond keyword left test right yes, ⟨hk, hl, ht, hr, hyes⟩, by simp [Code.children]⟩
  · obtain ⟨otherwise, _, rfl, ho, _, h⟩ := Phrase.matches_inOrder_token.mp h
    obtain ⟨_, _, rfl, hno, rfl⟩ := Phrase.matches_inOrder_cons.mp h
    obtain ⟨no, hno, rfl⟩ := hno
    exact ⟨.condElse keyword left test right yes otherwise no,
      ⟨hk, hl, ht, hr, hyes, ho, hno⟩, by simp [Code.children]⟩

/-- A loop is its head and the statement behind it. -/
theorem writesStatement_of_loop (h : Written (grammar .loop) ts) : WritesStatement ts := by
  obtain ⟨keyword, left, _, right, body, _, rfl, hk, hl, htest, hr, hbody, rfl⟩ :=
    exists_of_headed h
  obtain ⟨test, ht, rfl⟩ := htest
  exact ⟨.whileDo keyword left test right body, ⟨hk, hl, ht, hr, hbody⟩,
    by simp [Code.children]⟩

theorem writesStatement_of_repeat (h : Written (grammar .repeat_) ts) : WritesStatement ts := by
  obtain ⟨keyword, left, _, right, body, _, rfl, hk, hl, hcount, hr, hbody, rfl⟩ :=
    exists_of_headed h
  obtain ⟨count, hn, rfl⟩ := hcount
  exact ⟨.times keyword left count right body, ⟨hk, hl, hn, hr, hbody⟩,
    by simp [Code.children]⟩

/-- What the rule of a symbol matches is what the symbol stands for.  One case for each rule of the
grammar: the pieces at its places are put together to a piece of the tree with all their tokens. -/
theorem Symbol.writes_of_matches (name : Symbol) (h : Written (grammar name) ts) :
    name.Writes ts := by
  cases name with
  | expression e =>
    have hm : ∀ e ts, (Symbol.expression e).Writes ts → e.Writes true ts := fun _ _ h => h
    exact e.writes_of_matches hm h
  | singleStatement => exact writesStatement_of_single h
  | cond => exact writesStatement_of_cond h
  | loop => exact writesStatement_of_loop h
  | repeat_ => exact writesStatement_of_repeat h
  | statementFun =>
    obtain ⟨t, rfl, ht, _⟩ := Phrase.matches_word.mp h
    obtain ⟨action, haction⟩ := Option.isSome_iff_exists.mp
      ((Builtin.ofKind?_isSome_iff t.kind).mpr ht)
    exact ⟨t, action, rfl, haction⟩
  | statement =>
    obtain ⟨p, hp, h⟩ := Phrase.matches_oneOf.mp h
    simp only [List.mem_cons, List.not_mem_nil, or_false] at hp
    rcases hp with rfl | rfl | rfl | rfl | rfl
    -- all alternatives but the last stand for statements themselves
    iterate 4 exact h
    obtain ⟨⟨left, body, right⟩, hb, rfl⟩ := h
    exact ⟨.block left body right, hb, by simp [Code.children, Block.tokens_view]⟩
  | call =>
    obtain ⟨name, _, rfl, hn, _, h⟩ := Phrase.matches_inOrder_token.mp h
    obtain ⟨left, _, rfl, hl, _, h⟩ := Phrase.matches_inOrder_token.mp h
    obtain ⟨_, _, rfl, hargument, h⟩ := Phrase.matches_inOrder_cons.mp h
    obtain ⟨right, _, rfl, hr, _, rfl⟩ := Phrase.matches_inOrder_token.mp h
    rcases hargument with rfl | ⟨n, hspelled, rfl⟩
    · exact ⟨name, left, none, right, hn, hl, by simp, hr, rfl⟩
    · exact ⟨name, left, some n, right, hn, hl, by simpa using hspelled, hr,
        by simp [Code.callView, Node.tokens]⟩
  | block =>
    obtain ⟨left, _, rfl, hl, _, h⟩ := Phrase.matches_inOrder_token.mp h
    obtain ⟨_, _, rfl, hbody, h⟩ := Phrase.matches_inOrder_cons.mp h
    obtain ⟨right, _, rfl, hr, _, rfl⟩ := Phrase.matches_inOrder_token.mp h
    obtain ⟨ss, hss, rfl⟩ := Phrase.exists_list_of_star (fun c : Statement => c.Spelled true)
      (·.children.tokens) hbody fun _ h => h
    exact ⟨⟨left, .ofList ss, right⟩, ⟨hl, Code.spelled_ofList.mpr hss, hr⟩,
      by simp [Block.tokens_view]⟩
  | defParam => exact exists_parameter_of_matches h
  | def_ =>
    obtain ⟨keyword, _, rfl, hk, _, h⟩ := Phrase.matches_inOrder_token.mp h
    obtain ⟨name, _, rfl, hn, _, h⟩ := Phrase.matches_inOrder_token.mp h
    obtain ⟨_, _, rfl, hparameter, h⟩ := Phrase.matches_inOrder_cons.mp h
    obtain ⟨_, _, rfl, hblock, rfl⟩ := Phrase.matches_inOrder_cons.mp h
    obtain ⟨p, hp, rfl⟩ := hparameter
    obtain ⟨b, hb, rfl⟩ := hblock
    exact ⟨⟨keyword, name, p, b⟩, ⟨hk, hn, hp, hb⟩, by simp [Definition.tokens_view]⟩
  | programDef =>
    obtain ⟨keyword, _, rfl, hk, _, h⟩ := Phrase.matches_inOrder_token.mp h
    obtain ⟨left, _, rfl, hl, _, h⟩ := Phrase.matches_inOrder_token.mp h
    obtain ⟨right, _, rfl, hr, _, h⟩ := Phrase.matches_inOrder_token.mp h
    obtain ⟨_, _, rfl, hblock, rfl⟩ := Phrase.matches_inOrder_cons.mp h
    obtain ⟨b, hb, rfl⟩ := hblock
    exact ⟨⟨keyword, left, right, b⟩, ⟨hk, hl, hr, hb⟩, by simp [Main.tokens_view]⟩
  | programClass =>
    obtain ⟨keyword, _, rfl, hk, _, h⟩ := Phrase.matches_inOrder_token.mp h
    obtain ⟨name, _, rfl, hn, _, h⟩ := Phrase.matches_inOrder_token.mp h
    obtain ⟨left, _, rfl, hl, _, h⟩ := Phrase.matches_inOrder_token.mp h
    obtain ⟨_, _, rfl, hdefinitions, h⟩ := Phrase.matches_inOrder_cons.mp h
    obtain ⟨_, _, rfl, hmain, h⟩ := Phrase.matches_inOrder_cons.mp h
    obtain ⟨right, _, rfl, hr, _, rfl⟩ := Phrase.matches_inOrder_token.mp h
    obtain ⟨ds, hds, rfl⟩ := Phrase.exists_list_of_star (fun d : Definition => d.Spelled true)
      (·.view.tokens) hdefinitions fun _ h => h
    obtain ⟨m, hm, rfl⟩ := hmain
    exact ⟨⟨keyword, name, left, ds, m, right⟩, ⟨hk, hn, hl, hds, hm, hr⟩,
      by simp [Program.tokens_view]⟩

end Matching

/-! ## §4. Literals. -/

/-- A spelled literal has its value, so it can be held.  By induction on the code; only the numbers
and conditions in it hold literals. -/
theorem Code.literalFits {part : Part} {c : Code part} (hc : c.Spelled true) :
    ∀ t ∈ c.children.tokens, t.LiteralFits := by
  induction c with
  | builtin action keyword left right semicolon =>
    have hk : keyword.LiteralFits := by
      intro hl
      simp [Code.Spelled, Builtin.ofKind?, hl] at hc
    simp_all [Code.Spelled, Code.children, Token.LiteralFits]
  | call name left argument right semicolon =>
    have ha : ∀ n ∈ argument, ∀ t ∈ n.children.tokens, t.LiteralFits :=
      fun n hn => Integer.literalFits (hc.2.2.1 n hn)
    cases argument <;>
      simp_all [Code.Spelled, Code.children, Code.callView, Token.LiteralFits, or_imp]
  | cond keyword left test right yes ih | whileDo keyword left test right body ih =>
    have ht := Condition.literalFits hc.2.2.1
    simp_all [Code.Spelled, Code.children, Token.LiteralFits, or_imp]
  | condElse keyword left test right yes otherwise no ihyes ihno =>
    have ht := Condition.literalFits hc.2.2.1
    simp_all [Code.Spelled, Code.children, Token.LiteralFits, or_imp]
  | times keyword left count right body ih =>
    have hn := Integer.literalFits hc.2.2.1
    simp_all [Code.Spelled, Code.children, Token.LiteralFits, or_imp]
  | nil | cons | empty | block =>
    simp_all [Code.Spelled, Code.children, Token.LiteralFits, or_imp]

theorem Block.literalFits {b : Block} (hb : b.Spelled true) :
    ∀ t ∈ b.view.tokens, t.LiteralFits := by
  have hbody := Code.literalFits hb.2.1
  simp_all [Block.Spelled, Block.tokens_view, Token.LiteralFits, or_imp]

theorem Definition.literalFits {d : Definition} (hd : d.Spelled true) :
    ∀ t ∈ d.view.tokens, t.LiteralFits := by
  have hblock := Block.literalFits hd.2.2.2
  have hparameter : ∀ t ∈ d.parameter.children.tokens, t.LiteralFits := by
    obtain ⟨hl, hn, hr⟩ := hd.2.2.1
    generalize d.parameter = p at hl hn hr
    obtain ⟨left, name, right⟩ := p
    cases name <;> simp_all [Parameter.children, Token.LiteralFits]
  simp_all [Definition.Spelled, Definition.tokens_view, Token.LiteralFits, or_imp]

/-- Every literal of a spelled program can be held.  The tokens around its parts are words and
braces, which are no literals. -/
theorem Program.literalFits {p : Program} (hp : p.Spelled true) :
    ∀ t ∈ p.view.tokens, t.LiteralFits := by
  obtain ⟨hk, hn, hl, hd, ⟨hmk, hml, hmr, hmb⟩, hr⟩ := hp
  have hdefinitions : ∀ t ∈ p.definitions.flatMap (·.view.tokens), t.LiteralFits := by
    intro t ht
    obtain ⟨d, hmem, ht⟩ := List.mem_flatMap.mp ht
    exact Definition.literalFits (hd d hmem) t ht
  have hblock := Block.literalFits hmb
  rw [Program.tokens_view, Main.tokens_view]
  intro t ht
  simp only [List.cons_append, List.append_assoc, List.mem_cons, List.mem_append,
    List.not_mem_nil, or_false] at ht
  rcases ht with rfl | rfl | rfl | ht | rfl | rfl | rfl | ht | rfl
  · exact Token.literalFits_of_kind hk (by decide)
  · exact Token.literalFits_of_kind hn (by decide)
  · exact Token.literalFits_of_kind hl (by decide)
  · exact hdefinitions t ht
  · exact Token.literalFits_of_kind hmk (by decide)
  · exact Token.literalFits_of_kind hml (by decide)
  · exact Token.literalFits_of_kind hmr (by decide)
  · exact hblock t ht
  · exact Token.literalFits_of_kind hr (by decide)

/-- The spelled programs are the derivations of the grammar whose literals can
be held. -/
theorem exists_spelled_iff_derives {ts : List Token} :
    (∃ p : Program, p.Spelled true ∧ p.view.tokens = ts)
      ↔ Derives grammar (.symbol .programClass) (ts.map (·.kind)) ∧ ∀ t ∈ ts, t.LiteralFits := by
  constructor
  · rintro ⟨p, hp, rfl⟩
    exact ⟨Program.derives hp, Program.literalFits hp⟩
  · rintro ⟨h, hfits⟩
    exact h.toMatches (fun name _ => name.writes_of_matches) rfl hfits

end RobotLang.Braced
