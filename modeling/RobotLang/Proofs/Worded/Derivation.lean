/-
  RobotLang.Proofs.Worded.Derivation
  ──────────────────────────────────
  **THE DOCUMENTED GRAMMAR OF THE WORDED DIALECT, STRICT AND LENIENT.**

  `grammar false` is the grammar as it is documented, one line for each symbol.
  `grammar true` is the one that programs are really written in: the `;` of
  the last statement of a list may be missing before the word that closes it.

  A spelled program is a derivation by the strict grammar.  What is derived by
  the lenient one is a program too, in which a `;` was put in wherever one is
  missing; `written` are the tokens without those:

      p.Spelled false  →  Derives (grammar false) program (p.view.tokens.map kind)
      Derives (grammar true) program (ts.map kind)
        →  ∃ p, p.Lenient false ∧ p.written = ts
-/
import RobotLang.Proofs.Grammar.Expression
import RobotLang.Proofs.Worded.Acceptance

namespace RobotLang.Worded

/-! ## §1. The grammar. -/

/-- The symbols of the grammar. -/
inductive Symbol where
  | program | programDef | block | defOrProto | proto | def_ | defParam
  | statement | singleStatement | statementFun | call | cond | loop | repeat_
  /-- One of the symbols that both dialects share. -/
  | expression (e : ExpressionSymbol)
  deriving DecidableEq, Repr

/-- A list of statements between two words; leniently, the last one may do
without its `;`. -/
def enclosed (lenient : Bool) (opening closing : Kind) : Phrase Symbol :=
  if lenient then
    .inOrder [.token opening, .star (.symbol .statement), .opt (.symbol .singleStatement),
      .token closing]
  else .inOrder [.token opening, .star (.symbol .statement), .token closing]

/-- The documented grammar, as it stands or with a last `;` optional. -/
def grammar (lenient : Bool) : Symbol → Phrase Symbol
  | .program =>
    .inOrder [.token .beginProgram, .star (.symbol .defOrProto), .symbol .programDef,
      .token .endProgram]
  | .programDef => enclosed lenient .beginExecution .endExecution
  | .block => enclosed lenient .begin_ .end_
  | .defOrProto => .oneOf (.symbol .def_) [.symbol .proto]
  | .proto =>
    .inOrder [.token .prototype, .token .identifier, .opt (.symbol .defParam), .token .semicolon]
  | .def_ =>
    .inOrder [.token .define, .token .identifier, .opt (.symbol .defParam), .token .as_,
      .symbol .statement]
  | .defParam => .inOrder [.token .leftParen, .opt (.token .identifier), .token .rightParen]
  | .statement => .inOrder [.opt (.symbol .singleStatement), .token .semicolon]
  | .singleStatement =>
    .oneOf (.symbol .statementFun)
      [.symbol .call, .symbol .cond, .symbol .loop, .symbol .repeat_, .symbol .block]
  | .statementFun => .word [.move, .turnLeft, .pickBeeper, .putBeeper, .turnOff, .return_]
  | .call =>
    .inOrder [.token .identifier,
      .opt (.inOrder [.token .leftParen, .symbol (.expression .integer), .token .rightParen])]
  | .cond =>
    .inOrder [.token .if_, .symbol (.expression .term), .token .then_, .symbol .singleStatement,
      .opt (.inOrder [.token .else_, .symbol .singleStatement])]
  | .loop =>
    .inOrder [.token .while_, .symbol (.expression .term), .token .do_, .symbol .singleStatement]
  | .repeat_ =>
    .inOrder [.token .repeat_, .symbol (.expression .integer), .token .times,
      .symbol .singleStatement]
  | .expression e => e.phrase false .expression

/-! ## §2. A spelled program is a strict derivation. -/

/-- What the grammar has for a form of code. -/
def Part.phrase : Part → Phrase Symbol
  | .command => .symbol .singleStatement
  | .statement => .symbol .statement
  | .statements => .star (.symbol .statement)

/-- Every alternative of a command is a command. -/
theorem derives_command (lenient : Bool) (name : Symbol) {ks : List Kind}
    (hname : name ∈ [.statementFun, .call, .cond, .loop, .repeat_, .block])
    (h : Derives (grammar lenient) (grammar lenient name) ks) :
    Derives (grammar lenient) (.symbol .singleStatement) ks :=
  .symbol (.oneOf (List.mem_map_of_mem (f := Phrase.symbol) hname) (.symbol h))

/-- Expressions are those of both dialects, without parentheses behind sensors. -/
theorem grammar_expression (e : ExpressionSymbol) :
    grammar false (.expression e) = e.phrase false .expression := rfl

/-- A spelled number is derived by the documented grammar. -/
theorem derives_integer {n : Integer} (hn : n.Spelled) :
    Derives (grammar false) (.symbol (.expression .integer)) (n.children.tokens.map (·.kind)) :=
  Integer.derives grammar_expression hn

theorem derives_term {c : Condition .term} (hc : c.Spelled false) :
    Derives (grammar false) (.symbol (.expression .term)) (c.children.tokens.map (·.kind)) :=
  Condition.derives grammar_expression hc

/-- Spelled code is derived, construct by construct, with every `;` where the grammar has it.  By
induction on the code; a command is one of the alternatives of a single statement. -/
theorem Code.derives {part : Part} {c : Code part} (hc : c.Spelled false) :
    Derives (grammar false) part.phrase (c.children.tokens.map (·.kind)) := by
  unfold Part.phrase
  induction c with
  | nil => exact .starNil
  | cons head tail ihhead ihtail =>
    have h := Derives.starCons (ihhead hc.1) (ihtail hc.2)
    simpa [Code.children] using h
  | empty semicolon =>
    have hk : semicolon.kind = .semicolon := hc
    have h : Derives (grammar false) (.symbol .statement) _ :=
      .symbol (.seq .optNone (.seq (.token _) .nothing))
    simpa [Code.children, hk] using h
  | ended command semicolon ih =>
    obtain ⟨hcommand, hsemi⟩ := hc
    have h : Derives (grammar false) (.symbol .statement) _ :=
      .symbol (.seq (.optSome (ih hcommand)) (.seq (.token _) .nothing))
    simpa [Code.children, hsemi] using h
  | builtin action keyword =>
    have hword : Derives (grammar false) (grammar false .statementFun) [keyword.kind] := by
      refine .word ?_
      show keyword.kind ∈ Builtin.kinds
      rw [← Builtin.ofKind?_isSome_iff, hc]
      rfl
    simpa [Code.children] using derives_command false .statementFun (by decide) hword
  | call name =>
    have hn : name.kind = .identifier := hc
    have h := derives_command false .call (by decide) (.seq (.token _) (.seq .optNone .nothing))
    simpa [Code.children, hn] using h
  | callWith name left argument right =>
    obtain ⟨hn, hl, ha, hr⟩ := hc
    have h := derives_command false .call (by decide)
      (.seq (.token _) (.seq (.optSome (.seq (.token _) (.seq (derives_integer ha)
        (.seq (.token _) .nothing)))) .nothing))
    simpa [Code.children, hn, hl, hr] using h
  | cond keyword test then_ yes ih =>
    obtain ⟨hk, ht, hth, hyes⟩ := hc
    have h := derives_command false .cond (by decide)
      (.seq (.token _) (.seq (derives_term ht) (.seq (.token _) (.seq (ih hyes)
        (.seq .optNone .nothing)))))
    simpa [Code.children, hk, hth] using h
  | condElse keyword test then_ yes otherwise no ihyes ihno =>
    obtain ⟨hk, ht, hth, hyes, ho, hno⟩ := hc
    have h := derives_command false .cond (by decide)
      (.seq (.token _) (.seq (derives_term ht) (.seq (.token _) (.seq (ihyes hyes)
        (.seq (.optSome (.seq (.token _) (.seq (ihno hno) .nothing))) .nothing)))))
    simpa [Code.children, hk, hth, ho] using h
  | whileDo keyword test do_ body ih =>
    obtain ⟨hk, ht, hd, hbody⟩ := hc
    have h := derives_command false .loop (by decide)
      (.seq (.token _) (.seq (derives_term ht) (.seq (.token _) (.seq (ih hbody) .nothing))))
    simpa [Code.children, hk, hd] using h
  | times keyword count unit body ih =>
    obtain ⟨hk, hn, hu, hbody⟩ := hc
    have h := derives_command false .repeat_ (by decide)
      (.seq (.token _) (.seq (derives_integer hn) (.seq (.token _) (.seq (ih hbody) .nothing))))
    simpa [Code.children, hk, hu] using h
  | block opening body closing ih =>
    obtain ⟨ho, hbody, hc⟩ := hc
    have h := derives_command false .block (by decide)
      (.seq (.token _) (.seq (ih hbody) (.seq (.token _) .nothing)))
    simpa [Code.children, ho, hc] using h

theorem derives_parameter {parameter : Option Parameter} (h : ∀ p ∈ parameter, p.Spelled) :
    Derives (grammar false) (.opt (.symbol .defParam))
      ((parameterForest parameter).tokens.map (·.kind)) := by
  cases parameter with
  | none => exact .optNone
  | some p => simpa [parameterForest, Parameter.view] using
      Derives.optSome (Parameter.derives (g := grammar false) rfl (h p rfl))

/-- A spelled definition is derived, with its body or as a prototype. -/
theorem Definition.derives {d : Definition} (hd : d.Spelled false) :
    Derives (grammar false) (.symbol .defOrProto) (d.view.tokens.map (·.kind)) := by
  cases d with
  | full keyword name parameter as_ body =>
    obtain ⟨hk, hn, hp, ha, hbody⟩ := hd
    have h : Derives (grammar false) (.symbol .defOrProto) _ := .symbol (.altLeft (.symbol
      (.seq (.token _) (.seq (.token _) (.seq (derives_parameter hp) (.seq (.token _)
        (.seq (Code.derives hbody) .nothing)))))))
    simpa [Definition.view, Node.tokens, hk, hn, ha] using h
  | prototype keyword name parameter semicolon =>
    obtain ⟨hk, hn, hp, hs⟩ := hd
    have h : Derives (grammar false) (.symbol .defOrProto) _ := .symbol (.altRight (.symbol
      (.seq (.token _) (.seq (.token _) (.seq (derives_parameter hp) (.seq (.token _)
        .nothing))))))
    simpa [Definition.view, Node.tokens, hk, hn, hs] using h

theorem Main.derives {m : Main} (hm : m.Spelled false) :
    Derives (grammar false) (.symbol .programDef) (m.view.tokens.map (·.kind)) := by
  obtain ⟨ho, hbody, hc⟩ := hm
  have h : Derives (grammar false) (.symbol .programDef) _ := .symbol
    (.seq (.token _) (.seq (Code.derives hbody) (.seq (.token _) .nothing)))
  simpa [Main.tokens_view, ho, hc] using h

/-- A spelled program is a derivation of the kinds of its tokens. -/
theorem Program.derives {p : Program} (hp : p.Spelled false) :
    Derives (grammar false) (.symbol .program) (p.view.tokens.map (·.kind)) := by
  obtain ⟨ho, hd, hm, hc⟩ := hp
  have h : Derives (grammar false) (.symbol .program) _ := .symbol
    (.seq (.token _) (.seq (.starFlatMap fun d hmem => Definition.derives (hd d hmem))
      (.seq (Main.derives hm) (.seq (.token _) .nothing))))
  simpa [Program.tokens_view, ho, hc, List.map_flatMap] using h

/-! ## §3. Programs with a `;` missing. -/

/-- A `;` that stands in the source, or one that was put in before the word
`closing`, where it may be missing. -/
def Terminates (closing : Option Token) (semicolon : Token) : Prop :=
  (semicolon.kind = .semicolon ∧ semicolon.inserted = false)
    ∨ ∃ word ∈ closing, word.image ∈ closers ∧ semicolon = word.insertedBefore .semicolon ";"

/-- The code is spelled, and what was put in is the `;` of a command at the end
of a list.  `closing` is the word behind the code, if it closes a list. -/
def Code.Lenient (parens : Bool) {part : Part} (closing : Option Token) : Code part → Prop
  | .nil => True
  | .cons head tail =>
    (head.Lenient parens none ∧ tail.Lenient parens closing)
      ∨ (head.Lenient parens closing ∧ tail = .nil)
  | .empty semicolon => semicolon.kind = .semicolon
  | .ended command semicolon => command.Lenient parens none ∧ Terminates closing semicolon
  | .builtin action keyword => Builtin.ofKind? keyword.kind = some action
  | .call name => name.kind = .identifier
  | .callWith name left argument right =>
    name.kind = .identifier ∧ left.kind = .leftParen ∧ argument.Spelled
      ∧ right.kind = .rightParen
  | .cond keyword test then_ yes =>
    keyword.kind = .if_ ∧ test.Spelled parens ∧ then_.kind = .then_ ∧ yes.Lenient parens none
  | .condElse keyword test then_ yes otherwise no =>
    keyword.kind = .if_ ∧ test.Spelled parens ∧ then_.kind = .then_ ∧ yes.Lenient parens none
      ∧ otherwise.kind = .else_ ∧ no.Lenient parens none
  | .whileDo keyword test do_ body =>
    keyword.kind = .while_ ∧ test.Spelled parens ∧ do_.kind = .do_ ∧ body.Lenient parens none
  | .times keyword count unit body =>
    keyword.kind = .repeat_ ∧ count.Spelled ∧ unit.kind = .times ∧ body.Lenient parens none
  | .block opening body closing =>
    opening.kind = .begin_ ∧ body.Lenient parens (some closing) ∧ closing.kind = .end_

/-- What a `;` leaves in the source. -/
def sourceOf (semicolon : Token) : List Token :=
  if semicolon.inserted then [] else [semicolon]

/-- The tokens of the code that stand in the source. -/
def Code.written {part : Part} : Code part → List Token
  | .nil => []
  | .cons head tail => head.written ++ tail.written
  | .empty semicolon => [semicolon]
  | .ended command semicolon => command.written ++ sourceOf semicolon
  | .builtin _ keyword => [keyword]
  | .call name => [name]
  | .callWith name left argument right => name :: left :: argument.children.tokens ++ [right]
  | .cond keyword test then_ yes => keyword :: test.children.tokens ++ then_ :: yes.written
  | .condElse keyword test then_ yes otherwise no =>
    keyword :: test.children.tokens ++ then_ :: yes.written ++ otherwise :: no.written
  | .whileDo keyword test do_ body => keyword :: test.children.tokens ++ do_ :: body.written
  | .times keyword count unit body => keyword :: count.children.tokens ++ unit :: body.written
  | .block opening body closing => opening :: body.written ++ [closing]

/-- The body of a function is no last statement of a list. -/
def Definition.Lenient (parens : Bool) : Definition → Prop
  | .full keyword name parameter as_ body =>
    keyword.kind = .define ∧ name.kind = .identifier ∧ (∀ p ∈ parameter, p.Spelled)
      ∧ as_.kind = .as_ ∧ body.Lenient parens none
  | .prototype keyword name parameter semicolon =>
    keyword.kind = .prototype ∧ name.kind = .identifier ∧ (∀ p ∈ parameter, p.Spelled)
      ∧ semicolon.kind = .semicolon

/-- The tokens of the definition that stand in the source. -/
def Definition.written : Definition → List Token
  | .full keyword name parameter as_ body =>
    keyword :: name :: (parameterForest parameter).tokens ++ as_ :: body.written
  | .prototype keyword name parameter semicolon =>
    keyword :: name :: (parameterForest parameter).tokens ++ [semicolon]

def Main.Lenient (parens : Bool) (m : Main) : Prop :=
  m.opening.kind = .beginExecution ∧ m.body.Lenient parens (some m.closing)
    ∧ m.closing.kind = .endExecution

/-- The tokens of the main part that stand in the source. -/
def Main.written (m : Main) : List Token :=
  m.opening :: m.body.written ++ [m.closing]

/-- The program is spelled, up to a `;` put in where a list of statements ends. -/
def Program.Lenient (parens : Bool) (p : Program) : Prop :=
  p.opening.kind = .beginProgram ∧ (∀ d ∈ p.definitions, d.Lenient parens)
    ∧ p.main.Lenient parens ∧ p.closing.kind = .endProgram

/-- The tokens of the program that stand in the source. -/
def Program.written (p : Program) : List Token :=
  p.opening :: p.definitions.flatMap (·.written) ++ p.main.written ++ [p.closing]

/-- A list is written statement by statement. -/
@[simp] theorem Code.written_ofList (ss : List Statement) :
    (Code.ofList ss).written = ss.flatMap (·.written) := by
  induction ss with
  | nil => rfl
  | cons s ss ih => simp [Code.ofList, Code.written, ih]

/-- A list whose statements all have their `;`. -/
theorem Code.lenient_ofList {parens : Bool} {closing : Option Token} {ss : List Statement}
    (h : ∀ s ∈ ss, s.Lenient parens none) : (Code.ofList ss).Lenient parens closing := by
  induction ss with
  | nil => trivial
  | cons s ss ih =>
    rw [List.forall_mem_cons] at h
    exact .inl ⟨h.1, ih h.2⟩

/-- A list whose last statement may lack its `;`. -/
theorem Code.lenient_ofList_concat {parens : Bool} {closing : Option Token}
    {ss : List Statement} {last : Statement} (h : ∀ s ∈ ss, s.Lenient parens none)
    (hlast : last.Lenient parens closing) :
    (Code.ofList (ss ++ [last])).Lenient parens closing := by
  induction ss with
  | nil => exact .inr ⟨hlast, rfl⟩
  | cons s ss ih =>
    rw [List.forall_mem_cons] at h
    exact .inl ⟨h.1, ih h.2⟩

/-! ## §4. A lenient derivation is a program. -/

/-- A token as the source has it: its literal can be held, no repair put it in,
and a closing word is spelled like one. -/
structure Genuine (t : Token) : Prop where
  fits : t.LiteralFits
  notInserted : t.inserted = false
  closer : closesList t = true → t.image ∈ closers

/-- The tokens are those of a command. -/
def WritesCommand (ts : List Token) : Prop :=
  ∃ c : Command, c.Lenient false none ∧ c.written = ts

def WritesDefinition (ts : List Token) : Prop :=
  ∃ d : Definition, d.Lenient false ∧ d.written = ts

/-- What a symbol stands for. -/
def Symbol.Writes : Symbol → List Token → Prop
  | .program, ts => ∃ p : Program, p.Lenient false ∧ p.written = ts
  | .programDef, ts => ∃ m : Main, m.Lenient false ∧ m.written = ts
  | .defOrProto, ts | .proto, ts | .def_, ts => WritesDefinition ts
  | .defParam, ts => ∃ p : Parameter, p.Spelled ∧ p.children.tokens = ts
  | .statement, ts => ∃ c : Statement, c.Lenient false none ∧ c.written = ts
  | .singleStatement, ts | .statementFun, ts | .call, ts | .cond, ts | .loop, ts | .repeat_, ts
  | .block, ts => WritesCommand ts
  | .expression e, ts => e.Writes false ts

section Matching

variable {ts : List Token}

/-- A phrase of the grammar on tokens of a source, with the trees as meanings. -/
abbrev Written (p : Phrase Symbol) (ts : List Token) : Prop :=
  p.Matches Symbol.Writes Genuine ts

/-- The `;` that is missing before the closing word is put in.  A last command without one stands
directly before that word, which tells where the `;` goes. -/
theorem exists_of_enclosed {k k' : Kind} (hk' : k' = .end_ ∨ k' = .endExecution)
    (h : Written (enclosed true k k') ts) :
    ∃ opening closing, ∃ body : Statements, ts = opening :: body.written ++ [closing]
      ∧ opening.kind = k ∧ body.Lenient false (some closing) ∧ closing.kind = k' := by
  obtain ⟨opening, _, rfl, ho, _, h⟩ := Phrase.matches_inOrder_token.mp h
  obtain ⟨_, _, rfl, hbody, h⟩ := Phrase.matches_inOrder_cons.mp h
  obtain ⟨_, _, rfl, hlast, h⟩ := Phrase.matches_inOrder_cons.mp h
  obtain ⟨closing, _, rfl, hc, hgenuine, rfl⟩ := Phrase.matches_inOrder_token.mp h
  obtain ⟨ss, hss, rfl⟩ := Phrase.exists_list_of_star (fun c : Statement => c.Lenient false none)
    (·.written) hbody fun _ h => h
  rcases hlast with rfl | ⟨c, hlenient, rfl⟩
  · exact ⟨opening, closing, .ofList ss, by simp, ho, Code.lenient_ofList hss, hc⟩
  · have himage : closing.image ∈ closers := by
      refine hgenuine.closer ?_
      rcases hk' with rfl | rfl <;> simp [closesList, hc]
    have hlast : (Code.ended c (closing.insertedBefore .semicolon ";")).Lenient false
        (some closing) := ⟨hlenient, .inr ⟨closing, rfl, himage, rfl⟩⟩
    refine ⟨opening, closing, .ofList (ss ++ [.ended c (closing.insertedBefore .semicolon ";")]),
      ?_, ho, Code.lenient_ofList_concat hss hlast, hc⟩
    simp [Code.written, sourceOf, Token.insertedBefore]

/-- A call is its name, and its argument in parentheses if there is one. -/
theorem writesCommand_of_call (h : Written (grammar true .call) ts) : WritesCommand ts := by
  obtain ⟨name, _, rfl, hn, _, h⟩ := Phrase.matches_inOrder_token.mp h
  obtain ⟨_, _, rfl, hargument, rfl⟩ := Phrase.matches_inOrder_cons.mp h
  rcases hargument with rfl | h
  · exact ⟨.call name, hn, rfl⟩
  · obtain ⟨left, _, rfl, hl, _, h⟩ := Phrase.matches_inOrder_token.mp h
    obtain ⟨_, _, rfl, hargument, h⟩ := Phrase.matches_inOrder_cons.mp h
    obtain ⟨right, _, rfl, hr, _, rfl⟩ := Phrase.matches_inOrder_token.mp h
    obtain ⟨argument, ha, rfl⟩ := hargument
    exact ⟨.callWith name left argument right, ⟨hn, hl, ha, hr⟩, by simp [Code.written]⟩

/-- The head of a conditional or a loop, and the command behind it. -/
theorem exists_of_headed {k k' : Kind} {name : Symbol} {ps : List (Phrase Symbol)}
    (h : Written (.inOrder (.token k :: .symbol name :: .token k' :: .symbol .singleStatement
      :: ps)) ts) :
    ∃ keyword inside word, ∃ body : Command, ∃ rest,
      ts = keyword :: (inside ++ word :: (body.written ++ rest))
        ∧ keyword.kind = k ∧ name.Writes inside ∧ word.kind = k' ∧ body.Lenient false none
        ∧ Written (.inOrder ps) rest := by
  obtain ⟨keyword, _, rfl, hk, _, h⟩ := Phrase.matches_inOrder_token.mp h
  obtain ⟨inside, _, rfl, hinside, h⟩ := Phrase.matches_inOrder_cons.mp h
  obtain ⟨word, _, rfl, hw, _, h⟩ := Phrase.matches_inOrder_token.mp h
  obtain ⟨_, rest, rfl, ⟨body, hbody, rfl⟩, hrest⟩ := Phrase.matches_inOrder_cons.mp h
  exact ⟨keyword, inside, word, body, rest, rfl, hk, hinside, hw, hbody, hrest⟩

/-- A conditional with or without its second branch.  Which of the two it is shows in whether
`si-no` is derived. -/
theorem writesCommand_of_cond (h : Written (grammar true .cond) ts) : WritesCommand ts := by
  obtain ⟨keyword, _, then_, yes, _, rfl, hk, ⟨test, ht, rfl⟩, hth, hyes, h⟩ :=
    exists_of_headed h
  obtain ⟨_, _, rfl, helse, rfl⟩ := Phrase.matches_inOrder_cons.mp h
  rcases helse with rfl | h
  · exact ⟨.cond keyword test then_ yes, ⟨hk, ht, hth, hyes⟩, by simp [Code.written]⟩
  · obtain ⟨otherwise, _, rfl, ho, _, h⟩ := Phrase.matches_inOrder_token.mp h
    obtain ⟨_, _, rfl, ⟨no, hno, rfl⟩, rfl⟩ := Phrase.matches_inOrder_cons.mp h
    exact ⟨.condElse keyword test then_ yes otherwise no, ⟨hk, ht, hth, hyes, ho, hno⟩,
      by simp [Code.written]⟩

/-- A loop is its head and the command behind it. -/
theorem writesCommand_of_loop (h : Written (grammar true .loop) ts) : WritesCommand ts := by
  obtain ⟨keyword, _, do_, body, _, rfl, hk, ⟨test, ht, rfl⟩, hd, hbody, rfl⟩ :=
    exists_of_headed h
  exact ⟨.whileDo keyword test do_ body, ⟨hk, ht, hd, hbody⟩, by simp [Code.written]⟩

theorem writesCommand_of_repeat (h : Written (grammar true .repeat_) ts) : WritesCommand ts := by
  obtain ⟨keyword, _, unit, body, _, rfl, hk, ⟨count, hn, rfl⟩, hu, hbody, rfl⟩ :=
    exists_of_headed h
  exact ⟨.times keyword count unit body, ⟨hk, hn, hu, hbody⟩, by simp [Code.written]⟩

/-- Parentheses after a name, if there are any. -/
theorem exists_optional_parameter (h : Written (.opt (.symbol .defParam)) ts) :
    ∃ parameter : Option Parameter, (∀ p ∈ parameter, p.Spelled)
      ∧ (parameterForest parameter).tokens = ts := by
  rcases h with rfl | ⟨p, hp, rfl⟩
  · exact ⟨none, by simp, rfl⟩
  · exact ⟨some p, by simpa using hp, by simp [parameterForest, Parameter.view]⟩

/-- What the rule of a symbol matches is what the symbol stands for.  One case for each rule of the
lenient grammar: the pieces at its places are put together to a piece of the tree that is written as
these tokens. -/
theorem Symbol.writes_of_matches (name : Symbol) (h : Written (grammar true name) ts) :
    name.Writes ts := by
  cases name with
  | expression e =>
    -- the shared symbols ask only that a literal fits
    have hm : ∀ e ts, (Symbol.expression e).Writes ts → e.Writes false ts := fun _ _ h => h
    exact e.writes_of_matches hm (Phrase.Matches.mono (fun _ h => h.fits) h)
  | call => exact writesCommand_of_call h
  | cond => exact writesCommand_of_cond h
  | loop => exact writesCommand_of_loop h
  | repeat_ => exact writesCommand_of_repeat h
  | statementFun =>
    obtain ⟨t, rfl, ht, _⟩ := Phrase.matches_word.mp h
    obtain ⟨action, haction⟩ := Option.isSome_iff_exists.mp
      ((Builtin.ofKind?_isSome_iff t.kind).mpr ht)
    exact ⟨.builtin action t, haction, rfl⟩
  | block =>
    obtain ⟨opening, closing, body, rfl, ho, hbody, hc⟩ := exists_of_enclosed (.inl rfl) h
    exact ⟨.block opening body closing, ⟨ho, hbody, hc⟩, rfl⟩
  | singleStatement =>
    obtain ⟨p, hp, h⟩ := Phrase.matches_oneOf.mp h
    simp only [List.mem_cons, List.not_mem_nil, or_false] at hp
    rcases hp with rfl | rfl | rfl | rfl | rfl | rfl <;> exact h
  | statement =>
    -- the `;` stands in the source, so the statement need not be the last of its list
    obtain ⟨_, _, rfl, hcommand, h⟩ := Phrase.matches_inOrder_cons.mp h
    obtain ⟨semicolon, _, rfl, hs, hgenuine, rfl⟩ := Phrase.matches_inOrder_token.mp h
    rcases hcommand with rfl | ⟨c, hc, rfl⟩
    · exact ⟨.empty semicolon, hs, rfl⟩
    · exact ⟨.ended c semicolon, ⟨hc, .inl ⟨hs, hgenuine.notInserted⟩⟩,
        by simp [Code.written, sourceOf, hgenuine.notInserted]⟩
  | defParam => exact exists_parameter_of_matches h
  | def_ =>
    obtain ⟨keyword, _, rfl, hk, _, h⟩ := Phrase.matches_inOrder_token.mp h
    obtain ⟨name, _, rfl, hn, _, h⟩ := Phrase.matches_inOrder_token.mp h
    obtain ⟨_, _, rfl, hparameter, h⟩ := Phrase.matches_inOrder_cons.mp h
    obtain ⟨as_, _, rfl, ha, _, h⟩ := Phrase.matches_inOrder_token.mp h
    obtain ⟨_, _, rfl, ⟨body, hbody, rfl⟩, rfl⟩ := Phrase.matches_inOrder_cons.mp h
    obtain ⟨parameter, hp, rfl⟩ := exists_optional_parameter hparameter
    exact ⟨.full keyword name parameter as_ body, ⟨hk, hn, hp, ha, hbody⟩,
      by simp [Definition.written]⟩
  | proto =>
    obtain ⟨keyword, _, rfl, hk, _, h⟩ := Phrase.matches_inOrder_token.mp h
    obtain ⟨name, _, rfl, hn, _, h⟩ := Phrase.matches_inOrder_token.mp h
    obtain ⟨_, _, rfl, hparameter, h⟩ := Phrase.matches_inOrder_cons.mp h
    obtain ⟨semicolon, _, rfl, hs, _, rfl⟩ := Phrase.matches_inOrder_token.mp h
    obtain ⟨parameter, hp, rfl⟩ := exists_optional_parameter hparameter
    exact ⟨.prototype keyword name parameter semicolon, ⟨hk, hn, hp, hs⟩,
      by simp [Definition.written]⟩
  | defOrProto => exact h.elim id id
  | programDef =>
    obtain ⟨opening, closing, body, rfl, ho, hbody, hc⟩ := exists_of_enclosed (.inr rfl) h
    exact ⟨⟨opening, body, closing⟩, ⟨ho, hbody, hc⟩, rfl⟩
  | program =>
    obtain ⟨opening, _, rfl, ho, _, h⟩ := Phrase.matches_inOrder_token.mp h
    obtain ⟨_, _, rfl, hdefinitions, h⟩ := Phrase.matches_inOrder_cons.mp h
    obtain ⟨_, _, rfl, hmain, h⟩ := Phrase.matches_inOrder_cons.mp h
    obtain ⟨closing, _, rfl, hc, _, rfl⟩ := Phrase.matches_inOrder_token.mp h
    obtain ⟨main, hm, rfl⟩ := hmain
    obtain ⟨ds, hds, rfl⟩ := Phrase.exists_list_of_star (fun d : Definition => d.Lenient false)
      (·.written) hdefinitions fun _ h => h
    exact ⟨⟨opening, ds, main, closing⟩, ⟨ho, hds, hm, hc⟩, by simp [Program.written]⟩

end Matching

/-- What is derived by the lenient grammar, from tokens of a source, is written
by a program. -/
theorem exists_lenient_of_derives {ts : List Token} (hts : ∀ t ∈ ts, Genuine t)
    (h : Derives (grammar true) (.symbol .program) (ts.map (·.kind))) :
    ∃ p : Program, p.Lenient false ∧ p.written = ts := by
  have hwritten : Written (.symbol .program) ts :=
    h.toMatches (fun name _ => name.writes_of_matches) rfl hts
  exact hwritten

end RobotLang.Worded
