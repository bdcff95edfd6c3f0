/-
  RobotLang.Proofs.Braced.Completeness
  ────────────────────────────────────
  **A PROGRAM IS READ BACK FROM ITS TOKENS.**

  The other direction of reading: on the tokens of a spelled program in which
  every `else` belongs to the nearest `if`, the grammar ends with that program
  and has no complaints.

      Ends program s p.view.tokens p [] []

  A statement may stand in front of anything, except that one that ends open
  does not stand in front of an `else`, which it would take.
-/
import RobotLang.Proofs.Braced.NearestElse
import RobotLang.Proofs.Rule.Completeness

namespace RobotLang.Braced

open Rule

variable {s : Setting} {rest : List Token}

/-! ## §1. Numbers and conditions in place. -/

/-- A number is read up to the token behind it. -/
theorem ends_integer {n : Integer} (hn : n.Spelled) (rest : List Token) :
    Ends integer s (n.children.tokens ++ rest) n rest [] :=
  rereads_integer _ hn (Nat.le_refl _) rest trivial

/-- A condition is read up to the parenthesis that closes it. -/
theorem ends_term {test : Condition .term} {right : Token}
    (ht : test.Spelled s.sensorParens) (hr : right.kind = .rightParen) (rest : List Token) :
    Ends term s (test.children.tokens ++ right :: rest) test (right :: rest) [] :=
  rereads_term _ ht (Nat.le_refl _) (right :: rest) (by simp [hr, goesOn])

/-- A number does not start with a closing parenthesis. -/
theorem front_integer {n : Integer} (hn : n.Spelled) :
    (front s (n.children.tokens ++ rest)).kind ≠ .rightParen := by
  cases n with
  | name keyword | literal keyword | succ keyword | pred keyword =>
    simp [Integer.Spelled] at hn
    simp [Integer.children, hn]

/-! ## §2. Statements. -/

/-- A list of statements as code is all there is. -/
theorem Code.exists_ofList : (c : Statements) → ∃ ss, c = .ofList ss
  | .nil => ⟨[], rfl⟩
  | .cons head tail => by
    obtain ⟨ss, rfl⟩ := tail.exists_ofList
    exact ⟨head :: ss, rfl⟩

/-- A statement starts with one of the kinds that say so. -/
theorem exists_statementFirst {parens : Bool} {c : Statement} (hc : c.Spelled parens) :
    ∃ t more, c.children.tokens = t :: more ∧ t.kind ∈ statementFirst := by
  cases c with
  | empty t | cond t | condElse t | whileDo t | times t | block t =>
    simp [Code.Spelled] at hc
    simp [Code.children, hc, statementFirst]
  | call t _ argument =>
    have hk : t.kind = .identifier := hc.1
    cases argument <;> simp [Code.children, Code.callView, hk, statementFirst]
  | builtin action t =>
    have hk : t.kind ∈ Builtin.kinds := by
      rw [← Builtin.ofKind?_isSome_iff, hc.1]
      rfl
    simp [Code.children, statementFirst, hk]

/-- A statement is read back in front of what is not an `else` for it. -/
abbrev RereadsStatement (rule : Rule Statement) (s : Setting) (size : Nat) : Prop :=
  Rereads rule s (fun c => c.Spelled s.sensorParens ∧ c.NearestElse) (·.children.tokens)
    (fun c kind => c.endsOpen = true → kind ≠ .else_) size

/-- A block is read from its tokens if each of its statements is, given that these have fewer
tokens. -/
theorem ends_blockOf {statement : Rule Statement} {size : Nat}
    (h : RereadsStatement statement s size) {b : Block} (hb : b.Spelled s.sensorParens)
    (hnearest : b.body.NearestElse) (hlen : b.body.children.tokens.length ≤ size)
    (rest : List Token) : Ends (blockOf statement) s (b.view.tokens ++ rest) b rest [] := by
  obtain ⟨left, body, right⟩ := b
  obtain ⟨hl, hbody, hr⟩ := hb
  obtain ⟨ss, rfl⟩ := body.exists_ofList
  rw [Code.spelled_ofList] at hbody
  rw [Code.nearestElse_ofList] at hnearest
  rw [Code.tokens_ofList] at hlen
  have hstop : (front s (right :: rest)).kind = .rightBrace := hr
  have hmany : Ends (many statementFirst statement) s
      (ss.flatMap (·.children.tokens) ++ right :: rest) ss (right :: rest) [] := by
    refine ends_many (by rw [hstop]; decide) (fun c hc => exists_statementFirst (hbody c hc)) ?_
    intro c hc rest' hrest'
    refine h ⟨hbody c hc, hnearest c hc⟩ ?_ rest' fun _ => ?_
    · exact (length_tokens_le_flatMap (fun c : Statement => c.children.tokens) hc).trans hlen
    -- neither another statement nor the brace is an `else`
    · rcases hrest' with hin | rfl
      · intro helse
        rw [helse] at hin
        exact absurd hin (by decide)
      · rw [hstop]
        decide
  have htokens : (Block.mk left (.ofList ss) right).view.tokens ++ rest
      = left :: (ss.flatMap (·.children.tokens) ++ right :: rest) := by
    simp [Block.tokens_view]
  rw [htokens, blockOf, ends_expect_bind_of_kind hl, ends_bind_of_ends hmany,
    ends_expect_bind_of_kind hr]
  exact ends_pure.mpr ⟨rfl, rfl, rfl⟩

/-- A call is read with its argument, or without one where a parenthesis closes right away.  The
rule can tell the two apart by that parenthesis, since no number starts with it. -/
theorem ends_call {name left right semicolon : Token} {argument : Option Integer}
    (hc : (Code.call name left argument right semicolon).Spelled s.sensorParens)
    (rest : List Token) :
    Ends call s ((Code.call name left argument right semicolon).children.tokens ++ rest)
      (.call name left argument right semicolon) rest [] := by
  obtain ⟨hn, hl, ha, hr, hsemi⟩ := hc
  cases argument with
  | none =>
    show Ends _ s (name :: left :: right :: semicolon :: rest) _ _ _
    rw [call, ends_expect_bind_of_kind hn, ends_expect_bind_of_kind hl, ends_isAt_bind, ends_ite]
    refine .inl ⟨by simp [hr], ?_⟩
    show Ends (expect .rightParen >>= _) _ _ _ _ _
    rw [ends_expect_bind_of_kind hr, ends_expect_bind_of_kind hsemi]
    exact ends_pure.mpr ⟨rfl, rfl, rfl⟩
  | some n =>
    have hn' : n.Spelled := ha n rfl
    have htokens :
        (Code.call name left (some n) right semicolon).children.tokens ++ rest
          = name :: left :: (n.children.tokens ++ right :: semicolon :: rest) := by
      simp [Code.children, Code.callView]
    rw [htokens, call, ends_expect_bind_of_kind hn, ends_expect_bind_of_kind hl, ends_isAt_bind,
      ends_ite]
    refine .inr ⟨by simpa using front_integer hn', ?_⟩
    rw [ends_bind_of_ends (ends_map.mpr ⟨n, ends_integer hn' _, rfl⟩)]
    show Ends (expect .rightParen >>= _) _ _ _ _ _
    rw [ends_expect_bind_of_kind hr, ends_expect_bind_of_kind hsemi]
    exact ends_pure.mpr ⟨rfl, rfl, rfl⟩

section Layers

variable {inner : Rule Statement} {size : Nat} {keyword left right : Token}

/-- A conditional without a second branch is read where no `else` comes next. -/
theorem ends_cond (h : RereadsStatement inner s size) {test : Condition .term}
    {yes : Statement} (hc : (Code.cond keyword left test right yes).Spelled s.sensorParens)
    (hnearest : yes.NearestElse) (hlen : yes.children.tokens.length ≤ size)
    (hrest : (front s rest).kind ≠ .else_) :
    Ends (cond inner) s ((Code.cond keyword left test right yes).children.tokens ++ rest)
      (.cond keyword left test right yes) rest [] := by
  obtain ⟨hk, hl, ht, hr, hyes⟩ := hc
  have hbranch := h ⟨hyes, hnearest⟩ hlen rest fun _ => hrest
  have htokens : (Code.cond keyword left test right yes).children.tokens ++ rest
      = keyword :: left :: (test.children.tokens ++ right :: (yes.children.tokens ++ rest)) := by
    simp [Code.children]
  rw [htokens, cond, ends_expect_bind_of_kind hk, ends_expect_bind_of_kind hl,
    ends_bind_of_ends (ends_term ht hr _), ends_expect_bind_of_kind hr, ends_bind_of_ends hbranch,
    ends_eat_bind_of_ne hrest]
  exact ends_pure.mpr ⟨rfl, rfl, rfl⟩

/-- The first branch leaves the `else` alone because it does not end open.  Behind that branch
stands this `else`, and behind the second one whatever follows the conditional. -/
theorem ends_condElse (h : RereadsStatement inner s size) {test : Condition .term}
    {yes no : Statement} {otherwise : Token}
    (hc : (Code.condElse keyword left test right yes otherwise no).Spelled s.sensorParens)
    (hnearest : (Code.condElse keyword left test right yes otherwise no).NearestElse)
    (hyeslen : yes.children.tokens.length ≤ size) (hnolen : no.children.tokens.length ≤ size)
    (hrest : no.endsOpen = true → (front s rest).kind ≠ .else_) :
    Ends (cond inner) s
      ((Code.condElse keyword left test right yes otherwise no).children.tokens ++ rest)
      (.condElse keyword left test right yes otherwise no) rest [] := by
  obtain ⟨hk, hl, ht, hr, hyes, ho, hno⟩ := hc
  obtain ⟨hopen, hyesnear, hnonear⟩ := hnearest
  have hbranch := h ⟨hyes, hyesnear⟩ hyeslen (otherwise :: (no.children.tokens ++ rest))
    (by simp [hopen])
  have hother := h ⟨hno, hnonear⟩ hnolen rest hrest
  have htokens : (Code.condElse keyword left test right yes otherwise no).children.tokens ++ rest
      = keyword :: left :: (test.children.tokens ++ right ::
          (yes.children.tokens ++ otherwise :: (no.children.tokens ++ rest))) := by
    simp [Code.children]
  rw [htokens, cond, ends_expect_bind_of_kind hk, ends_expect_bind_of_kind hl,
    ends_bind_of_ends (ends_term ht hr _), ends_expect_bind_of_kind hr, ends_bind_of_ends hbranch,
    ends_eat_bind_of_kind ho]
  show Ends (inner >>= _) _ _ _ _ _
  rw [ends_bind_of_ends hother]
  exact ends_pure.mpr ⟨rfl, rfl, rfl⟩

/-- A loop is read if its body is.  What its body could take of what follows, the loop could. -/
theorem ends_whileDo (h : RereadsStatement inner s size) {test : Condition .term}
    {body : Statement}
    (hc : (Code.whileDo keyword left test right body).Spelled s.sensorParens)
    (hnearest : body.NearestElse) (hlen : body.children.tokens.length ≤ size)
    (hrest : body.endsOpen = true → (front s rest).kind ≠ .else_) :
    Ends (whileDo inner) s ((Code.whileDo keyword left test right body).children.tokens ++ rest)
      (.whileDo keyword left test right body) rest [] := by
  obtain ⟨hk, hl, ht, hr, hbody⟩ := hc
  have hloop := h ⟨hbody, hnearest⟩ hlen rest hrest
  have htokens : (Code.whileDo keyword left test right body).children.tokens ++ rest
      = keyword :: left :: (test.children.tokens ++ right :: (body.children.tokens ++ rest)) := by
    simp [Code.children]
  rw [htokens, whileDo, ends_expect_bind_of_kind hk, ends_expect_bind_of_kind hl,
    ends_bind_of_ends (ends_term ht hr _), ends_expect_bind_of_kind hr, ends_bind_of_ends hloop]
  exact ends_pure.mpr ⟨rfl, rfl, rfl⟩

theorem ends_times (h : RereadsStatement inner s size) {count : Integer} {body : Statement}
    (hc : (Code.times keyword left count right body).Spelled s.sensorParens)
    (hnearest : body.NearestElse) (hlen : body.children.tokens.length ≤ size)
    (hrest : body.endsOpen = true → (front s rest).kind ≠ .else_) :
    Ends (times inner) s ((Code.times keyword left count right body).children.tokens ++ rest)
      (.times keyword left count right body) rest [] := by
  obtain ⟨hk, hl, hn, hr, hbody⟩ := hc
  have hloop := h ⟨hbody, hnearest⟩ hlen rest hrest
  have htokens : (Code.times keyword left count right body).children.tokens ++ rest
      = keyword :: left :: (count.children.tokens ++ right :: (body.children.tokens ++ rest)) := by
    simp [Code.children]
  rw [htokens, times, ends_expect_bind_of_kind hk, ends_expect_bind_of_kind hl,
    ends_bind_of_ends (ends_integer hn _), ends_expect_bind_of_kind hr, ends_bind_of_ends hloop]
  exact ends_pure.mpr ⟨rfl, rfl, rfl⟩

end Layers

/-- Whatever a statement nests has fewer tokens than the statement.  So a rule that rereads
statements of some size makes one that rereads those of one token more. -/
theorem rereads_statementStep {inner : Rule Statement} {size : Nat}
    (h : RereadsStatement inner s size) :
    RereadsStatement (statementStep inner) s (size + 1) := by
  rintro c ⟨hc, hnearest⟩ hlen rest hrest
  cases c with
  | empty semicolon =>
    refine ends_peek_of_front hc ?_
    exact ends_advance_bind.mpr (ends_pure.mpr ⟨rfl, rfl, rfl⟩)
  | builtin action keyword left right semicolon =>
    have hfront : (front s ((Code.builtin action keyword left right semicolon).children.tokens
        ++ rest)).kind = keyword.kind := rfl
    refine ends_peek_of_front hfront ?_
    obtain ⟨hk, hl, hr, hsemi⟩ := hc
    split
    case h_7 =>
      rw [hk]
      show Ends (advance >>= _) s (keyword :: left :: right :: semicolon :: rest) _ _ _
      rw [ends_advance_bind, List.tail_cons, ends_expect_bind_of_kind hl,
        ends_expect_bind_of_kind hr, ends_expect_bind_of_kind hsemi]
      exact ends_pure.mpr ⟨rfl, rfl, rfl⟩
    -- the other words are not actions
    all_goals next hother => simp [hother, Builtin.ofKind?] at hk
  | call name left argument right semicolon =>
    have hfront : (front s ((Code.call name left argument right semicolon).children.tokens
        ++ rest)).kind = .identifier := by
      cases argument <;> exact hc.1
    exact ends_peek_of_front hfront (ends_call hc rest)
  | cond keyword left test right yes =>
    exact ends_peek_of_front hc.1
      (ends_cond h hc hnearest (by simp [Code.children] at hlen; omega) (hrest rfl))
  | condElse keyword left test right yes otherwise no =>
    exact ends_peek_of_front hc.1
      (ends_condElse h hc hnearest (by simp [Code.children] at hlen; omega)
      (by simp [Code.children] at hlen; omega) hrest)
  | whileDo keyword left test right body =>
    exact ends_peek_of_front hc.1
      (ends_whileDo h hc hnearest (by simp [Code.children] at hlen; omega) hrest)
  | times keyword left count right body =>
    exact ends_peek_of_front hc.1
      (ends_times h hc hnearest (by simp [Code.children] at hlen; omega) hrest)
  | block left body right =>
    have hlen' : body.children.tokens.length ≤ size := by
      simp [Code.children] at hlen
      omega
    have hblock := ends_blockOf h (b := ⟨left, body, right⟩) hc hnearest hlen' rest
    have htokens : (Code.block left body right).children.tokens
        = (Block.mk left body right).view.tokens := by
      simp [Code.children, Block.tokens_view]
    refine ends_peek_of_front hc.1 ?_
    show Ends (blockOf inner >>= _) s ((Code.block left body right).children.tokens ++ rest) _ _ _
    rw [htokens, ends_bind_of_ends hblock]
    exact ends_pure.mpr ⟨rfl, rfl, rfl⟩

/-- By induction on the number of tokens of the statement. -/
theorem rereads_statement (size : Nat) : RereadsStatement statement s size := by
  refine rereads_nested (fun c hc => ?_) (fun _ _ h => rereads_statementStep h) size
  obtain ⟨t, more, ht, _⟩ := exists_statementFirst hc.1
  simp [ht]

/-! ## §3. Definitions and programs. -/

theorem ends_block {b : Block} (hb : b.Spelled s.sensorParens) (hnearest : b.body.NearestElse)
    (rest : List Token) : Ends block s (b.view.tokens ++ rest) b rest [] :=
  ends_blockOf (rereads_statement _) hb hnearest (Nat.le_refl _) rest

/-- A definition is read from its tokens, whatever follows. -/
theorem ends_definition {d : Definition} (hd : d.Spelled s.sensorParens)
    (hnearest : d.NearestElse) (rest : List Token) :
    Ends definition s (d.view.tokens ++ rest) d rest [] := by
  obtain ⟨hk, hn, hp, hb⟩ := hd
  have hparameter := rereads_parameter (s := s) _ hp (Nat.le_refl _)
    (d.block.view.tokens ++ rest) trivial
  have htokens : d.view.tokens ++ rest = d.keyword :: d.name ::
      (d.parameter.children.tokens ++ (d.block.view.tokens ++ rest)) := by
    simp [Definition.tokens_view]
  rw [htokens, definition, ends_expect_bind_of_kind hk, ends_expect_bind_of_kind hn,
    ends_bind_of_ends hparameter, ends_bind_of_ends (ends_block hb hnearest rest)]
  exact ends_pure.mpr ⟨rfl, rfl, rfl⟩

theorem ends_mainPart {m : Main} (hm : m.Spelled s.sensorParens)
    (hnearest : m.block.body.NearestElse) (rest : List Token) :
    Ends mainPart s (m.view.tokens ++ rest) m rest [] := by
  obtain ⟨hk, hl, hr, hb⟩ := hm
  rw [Main.tokens_view]
  show Ends mainPart s (m.keyword :: m.left :: m.right :: (m.block.view.tokens ++ rest)) _ _ _
  rw [mainPart, ends_expect_bind_of_kind hk, ends_expect_bind_of_kind hl,
    ends_expect_bind_of_kind hr, ends_bind_of_ends (ends_block hb hnearest rest)]
  exact ends_pure.mpr ⟨rfl, rfl, rfl⟩

/-- A program whose `else`s belong to the nearest `if`s is read back from its
tokens, without a complaint. -/
theorem ends_program (hs : s.stop.kind = .eof) {p : Program} (hp : p.Spelled s.sensorParens)
    (hnearest : p.NearestElse) : Ends program s p.view.tokens p [] [] := by
  obtain ⟨hk, hn, hl, hd, hm, hr⟩ := hp
  obtain ⟨hdnear, hmnear⟩ := hnearest
  have hmain := ends_mainPart hm hmnear [p.right]
  have hfront : (front s (p.main.view.tokens ++ [p.right])).kind = .program := by
    rw [Main.tokens_view]
    exact hm.1
  have hdefinitions : Ends (many [.define] definition) s
      (p.definitions.flatMap (·.view.tokens) ++ (p.main.view.tokens ++ [p.right]))
      p.definitions (p.main.view.tokens ++ [p.right]) [] := by
    refine ends_many (by rw [hfront]; decide) (fun d hmem => ?_)
      (fun d hmem rest' _ => ends_definition (hd d hmem) (hdnear d hmem) rest')
    exact ⟨d.keyword, _, Definition.tokens_view d, by simp [(hd d hmem).1]⟩
  have hfinish : Ends finish s [] () [] [] := ends_finish.mpr ⟨hs, rfl, rfl⟩
  have htokens : p.view.tokens = p.keyword :: p.name :: p.left ::
      (p.definitions.flatMap (·.view.tokens) ++ (p.main.view.tokens ++ [p.right])) := by
    simp [Program.tokens_view]
  rw [htokens, program, ends_expect_bind_of_kind hk, ends_expect_bind_of_kind hn,
    ends_expect_bind_of_kind hl, ends_bind_of_ends hdefinitions, ends_bind_of_ends hmain,
    ends_expect_bind_of_kind hr, ends_bind_of_ends hfinish]
  exact ends_pure.mpr ⟨rfl, rfl, rfl⟩

end RobotLang.Braced
