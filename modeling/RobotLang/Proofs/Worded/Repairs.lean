/-
  RobotLang.Proofs.Worded.Repairs
  ───────────────────────────────
  **WITH RECOVERY, EVERY REPAIR HAS ITS OWN COMPLAINT.**

  The tokens read and the tokens of the tree are laid side by side, one piece
  for each token of either: it was kept, it was put in, or it is missing from
  the tree.  The repairs can be read off such pieces without knowing the rules:

      a `;` that was put in                   terminator (the next kept token)
      a maximal run of missing tokens         loss (its first token)

  The rules of the grammar leave traces in which a repair is always followed by
  a token that is taken.  So no two runs merge, and the complaints are those of
  the repairs, one by one and in order.
-/
import RobotLang.Proofs.Rule.Mending
import RobotLang.Proofs.Worded.Acceptance
import Mathlib.Data.List.Forall2

namespace RobotLang.Worded

open Rule

/-! ## §1. Pieces and repairs. -/

/-- What became of a token. -/
inductive Piece where
  /-- It was read and stands in the tree. -/
  | kept (t : Token)
  /-- It was not read but put into the tree. -/
  | inserted (t : Token)
  /-- It was read and does not stand in the tree. -/
  | missing (t : Token)

namespace Piece

/-- The token as it was read. -/
def input? : Piece → Option Token
  | .kept t | .missing t => some t
  | .inserted _ => none

/-- The token as it stands in the tree. -/
def tree? : Piece → Option Token
  | .kept t | .inserted t => some t
  | .missing _ => none

/-- The token that was read and stands in the tree. -/
def kept? : Piece → Option Token
  | .kept t => some t
  | _ => none

end Piece

/-- What recovery does to the tokens. -/
inductive Repair where
  /-- A `;` is put in before a token. -/
  | terminator (before : Option Token)
  /-- A run of tokens that starts with `first` is lost. -/
  | loss (first : Token)

/-- The repairs that the pieces show; `lost` says whether the token read last is
missing. -/
def repairs (lost : Bool) : List Piece → List Repair
  | [] => []
  | .kept _ :: pieces => repairs false pieces
  | .inserted _ :: pieces => .terminator (pieces.findSome? Piece.kept?) :: repairs lost pieces
  | .missing t :: pieces =>
    if lost then repairs true pieces else .loss t :: repairs true pieces

/-- The complaint is the one that the repair calls for. -/
def Told (d : Diagnostic) : Repair → Prop
  | .terminator (some t) => d = .mismatch t [";"]
  | .terminator none => False
  | .loss first => ∃ wanted, d = .mismatch first [lexicon.label wanted]

/-- A repair is told as a mismatch, whichever repair it is. -/
theorem Told.issue_eq {d : Diagnostic} {r : Repair} (h : Told d r) :
    d.issue = .mismatchedToken := by
  cases r with
  | terminator before =>
    cases before with
    | none => exact absurd h id
    | some t => exact congrArg Diagnostic.issue h
  | loss first =>
    obtain ⟨wanted, rfl⟩ := h
    rfl

/-- The pieces of the tokens that were read and of those that the tree has. -/
structure Aligns (pieces : List Piece) (body tree : List Token) : Prop where
  input : pieces.filterMap Piece.input? = body
  tree : pieces.filterMap Piece.tree? = tree
  kept : ∀ t, .kept t ∈ pieces → t.inserted = false
  inserted : ∀ t, .inserted t ∈ pieces → t.kind = .semicolon ∧ t.inserted = true

section Pieces

variable {pieces : List Piece} {body tree : List Token}

/-- A run of missing tokens is one loss. -/
theorem repairs_missing (run : List Token) (pieces : List Piece) :
    repairs true (run.map Piece.missing ++ pieces) = repairs true pieces := by
  induction run with
  | nil => rfl
  | cons t run ih => exact ih

/-- Where there are no repairs, every token was kept. -/
theorem input_eq_tree_of_repairs_eq_nil (h : repairs false pieces = []) :
    pieces.filterMap Piece.input? = pieces.filterMap Piece.tree? := by
  induction pieces with
  | nil => rfl
  | cons piece pieces ih =>
    cases piece with
    | kept t => exact congrArg (t :: ·) (ih h)
    | inserted t => exact absurd h (List.cons_ne_nil _ _)
    | missing t => exact absurd h (List.cons_ne_nil _ _)

/-- The tokens of the tree that stand in the source were kept. -/
theorem Aligns.sourceTokens_eq (h : Aligns pieces body tree) :
    sourceTokens tree = pieces.filterMap Piece.kept? := by
  obtain ⟨-, rfl, hkept, hinserted⟩ := h
  induction pieces with
  | nil => rfl
  | cons piece pieces ih =>
    have ih := ih (fun t ht => hkept t (List.mem_cons_of_mem _ ht))
      fun t ht => hinserted t (List.mem_cons_of_mem _ ht)
    cases piece with
    | kept t =>
      have ht := hkept t List.mem_cons_self
      show sourceTokens (t :: pieces.filterMap Piece.tree?) = t :: pieces.filterMap Piece.kept?
      rw [sourceTokens_cons, ih, ht]
      rfl
    | inserted t =>
      have ht := (hinserted t List.mem_cons_self).2
      show sourceTokens (t :: pieces.filterMap Piece.tree?) = pieces.filterMap Piece.kept?
      rw [sourceTokens_cons, ih, if_pos ht]
    | missing t => exact ih

/-- They are a subsequence of the tokens that were read. -/
theorem Aligns.sublist (h : Aligns pieces body tree) : (sourceTokens tree).Sublist body := by
  rw [h.sourceTokens_eq, ← h.input]
  clear h
  induction pieces with
  | nil => exact .slnil
  | cons piece pieces ih =>
    cases piece with
    | kept t => exact ih.cons_cons t
    | inserted t => exact ih
    | missing t => exact ih.cons t

end Pieces

/-- A trace that owes nothing at its end lays out the tokens in pieces, with one
complaint for each repair.  A debt means that the next piece is a token kept. -/
theorem exists_pieces_of_mends {s : Setting} {owed owed' : Bool} {ts tree rest : List Token}
    {ds : List Diagnostic} (hlabel : s.label = lexicon.label)
    (hinput : ∀ t ∈ ts, t.inserted = false)
    (h : Mends s owed ts tree ds owed' rest) (howed : owed' = false) (hrest : rest = []) :
    ∃ pieces, Aligns pieces ts tree ∧ List.Forall₂ Told ds (repairs false pieces)
      ∧ (owed = true → ∃ next pieces', pieces = .kept next :: pieces' ∧ front s ts = next) := by
  induction h with
  | done owed ts =>
    subst hrest howed
    exact ⟨[], ⟨rfl, rfl, by simp, by simp⟩, .nil, nofun⟩
  | @take owed t ts tree ds owed' rest hmends ih =>
    rw [List.forall_mem_cons] at hinput
    obtain ⟨pieces, ⟨hin, htree, hkept, hinserted⟩, htold, -⟩ := ih hinput.2 howed hrest
    refine ⟨.kept t :: pieces, ⟨?_, ?_, ?_, ?_⟩, htold, fun _ => ⟨t, pieces, rfl, rfl⟩⟩
    · exact congrArg (t :: ·) hin
    · exact congrArg (t :: ·) htree
    · simpa [hinput.1] using hkept
    · simpa using hinserted
  | @put ts tree ds owed' rest hmends ih =>
    obtain ⟨pieces, ⟨hin, htree, hkept, hinserted⟩, htold, hnext⟩ := ih hinput howed hrest
    obtain ⟨next, pieces, rfl, hfront⟩ := hnext rfl
    rw [hfront, hlabel]
    refine ⟨.inserted _ :: .kept next :: pieces, ⟨hin, congrArg (_ :: ·) htree, ?_, ?_⟩,
      .cons rfl htold, nofun⟩
    · simpa using hkept
    · intro t ht
      rcases List.mem_cons.mp ht with heq | hmem
      · cases heq
        exact ⟨rfl, rfl⟩
      · exact hinserted t hmem
  | @lose stray run wanted ts tree ds owed' rest hmends ih =>
    have hts : ∀ t ∈ ts, t.inserted = false := fun t ht => hinput t (by simp [ht])
    obtain ⟨pieces, ⟨hin, htree, hkept, hinserted⟩, htold, hnext⟩ := ih hts howed hrest
    obtain ⟨next, pieces, rfl, hfront⟩ := hnext rfl
    have hrun : (run.map Piece.missing).filterMap Piece.input? = run := by
      rw [List.filterMap_map]
      exact List.filterMap_some
    have hnone : (run.map Piece.missing).filterMap Piece.tree? = [] := by
      rw [List.filterMap_map]
      exact List.filterMap_eq_nil_iff.mpr fun _ _ => rfl
    refine ⟨.missing stray :: (run.map .missing ++ .kept next :: pieces), ⟨?_, ?_, ?_, ?_⟩, ?_,
      nofun⟩
    · show stray :: List.filterMap Piece.input? (run.map .missing ++ _) = _
      rw [List.filterMap_append, hrun, hin]
      rfl
    · show List.filterMap Piece.tree? (run.map .missing ++ _) = _
      rw [List.filterMap_append, hnone, htree]
      rfl
    · simpa using hkept
    · simpa using hinserted
    · -- the token kept behind it ends the run
      show List.Forall₂ Told _
        (.loss stray :: repairs true (run.map .missing ++ .kept next :: pieces))
      rw [repairs_missing]
      exact .cons ⟨wanted, by rw [hlabel]⟩ htold

/-! ## §2. Commands. -/

section Rules

variable {s : Setting}

/-- A number owes nothing behind it: whatever was dropped in it stands before a token of it. -/
theorem accounts_integer (hs : s.stop.kind = .eof) :
    Accounts integer s (Waits []) (fun n tree => tree = n.children.tokens) (Waits []) := by
  refine accounts_of_makes (makes_integer hs) fun n hn => ?_
  refine Integer.forall_mem_tokens (fun t ht hsemi => ?_) (fun t _ ht _ => by simp [ht]) hn
  exact absurd (hsemi ▸ ht) (by decide)

/-- A condition owes nothing behind it: whatever was dropped in it stands before a token of it. -/
theorem accounts_term (hs : s.stop.kind = .eof) :
    Accounts term s (Waits []) (fun c tree => tree = c.children.tokens) (Waits []) := by
  refine accounts_of_makes (makes_term hs) fun c hc => ?_
  refine Condition.forall_mem_tokens (fun t ht hsemi => ?_) (fun t _ ht _ => by simp [ht]) hc
  exact absurd (hsemi ▸ ht) (by decide)

/-- The tokens of the code. -/
abbrev TokensOf {part : Part} (c : Code part) (tree : List Token) : Prop :=
  tree = c.children.tokens

/-- A call may be owed where a name is at hand, and takes that name. -/
theorem accounts_call (hs : s.stop.kind = .eof) :
    Accounts call s (Waits [.identifier]) TokensOf (Waits []) := by
  unfold call
  refine (accounts_expect hs (by decide)).bind ?_
  rintro name _ rfl
  refine (accounts_eat hs (by decide)).bind ?_
  rintro found _ rfl
  cases found with
  | none => exact .pure rfl
  | some left =>
    refine (accounts_integer hs).bind ?_
    rintro argument _ rfl
    refine (accounts_expect hs (by decide)).settled.bind ?_
    rintro right _ rfl
    exact .pure (by simp [TokensOf, Code.children])

/-- A command takes the token at hand, so nothing is owed behind it whatever was
owed in front. -/
abbrev AccountsCommand (rule : Rule Command) (s : Setting) : Prop :=
  Accounts rule s (fun _ _ => True) TokensOf (Waits [])

/-- Where nothing is owed, a command accounts for its repairs whatever is at hand. -/
theorem AccountsCommand.settled {rule : Rule Command} (h : AccountsCommand rule s) :
    Accounts rule s (Waits []) TokensOf (Waits []) :=
  h.mono (fun _ _ _ => trivial) fun _ _ hq => hq

/-- A conditional may be owed where its word is at hand; behind its test nothing is owed any
more. -/
theorem accounts_cond (hs : s.stop.kind = .eof) {command : Rule Command}
    (h : AccountsCommand command s) :
    Accounts (cond command) s (Waits [.if_]) TokensOf (Waits []) := by
  unfold cond
  refine (accounts_expect hs (by decide)).bind ?_
  rintro keyword _ rfl
  refine (accounts_term hs).bind ?_
  rintro test _ rfl
  refine (accounts_expect hs (by decide)).settled.bind ?_
  rintro then_ _ rfl
  refine h.settled.bind ?_
  rintro yes _ rfl
  refine (accounts_eat hs (by decide)).bind ?_
  rintro found _ rfl
  cases found with
  | none => exact .pure (by simp [TokensOf, Code.children])
  | some otherwise =>
    refine h.settled.bind ?_
    rintro no _ rfl
    exact .pure (by simp [TokensOf, Code.children])

theorem accounts_whileDo (hs : s.stop.kind = .eof) {command : Rule Command}
    (h : AccountsCommand command s) :
    Accounts (whileDo command) s (Waits [.while_]) TokensOf (Waits []) := by
  unfold whileDo
  refine (accounts_expect hs (by decide)).bind ?_
  rintro keyword _ rfl
  refine (accounts_term hs).bind ?_
  rintro test _ rfl
  refine (accounts_expect hs (by decide)).settled.bind ?_
  rintro do_ _ rfl
  refine h.settled.bind ?_
  rintro body _ rfl
  exact .pure (by simp [TokensOf, Code.children])

theorem accounts_times (hs : s.stop.kind = .eof) {command : Rule Command}
    (h : AccountsCommand command s) :
    Accounts (times command) s (Waits [.repeat_]) TokensOf (Waits []) := by
  unfold times
  refine (accounts_expect hs (by decide)).bind ?_
  rintro keyword _ rfl
  refine (accounts_integer hs).bind ?_
  rintro count _ rfl
  refine (accounts_expect hs (by decide)).settled.bind ?_
  rintro unit _ rfl
  refine h.settled.bind ?_
  rintro body _ rfl
  exact .pure (by simp [TokensOf, Code.children])

/-! ## §3. Statements and blocks. -/

/-- What is owed behind a statement waits for one of `follow`. -/
theorem accounts_statementOf (hs : s.stop.kind = .eof) {command : Rule Command}
    (h : AccountsCommand command s) (follow : List Kind) :
    Accounts (statementOf command follow) s (Waits statementFirst) TokensOf (Waits follow) := by
  unfold statementOf
  refine accounts_isAtAny_bind ?_ ?_
  · refine (h.mono (fun _ _ _ => trivial) fun _ _ hq => hq).bind ?_
    rintro command _ rfl
    refine (accounts_expectTerminator hs follow).settled.bind ?_
    rintro semicolon _ rfl
    exact .pure (by simp [TokensOf, Code.children])
  · refine Accounts.bind (Q := Waits follow) (T := Alone) ?_ ?_
    · -- a debt that no command can take waits for the `;`
      refine (accounts_expectTerminator hs follow).mono ?_ fun _ _ hq => hq
      intro owed kind hkind hdue
      exact (List.mem_append.mp (hkind.1 hdue)).resolve_left hkind.2
    · rintro semicolon _ rfl
      exact .pure (by simp [TokensOf, Code.children])

/-- Every statement has a token, one that was put in if there is no other. -/
theorem Code.tokens_statement_ne_nil (c : Statement) : c.children.tokens ≠ [] := by
  cases c <;> simp [Code.children]

/-- The statements of a list up to its closer. -/
theorem accounts_statements (hs : s.stop.kind = .eof) {command : Rule Command}
    (h : AccountsCommand command s) (closer : Kind) (resync : List Kind) :
    Accounts (list statementFirst closer resync
        (statementOf command (statementFirst ++ [closer]))) s (Waits [])
      (fun body tree => TokensOf (Code.ofList body) tree) (Waits [closer]) := by
  have hitem : Accounts (statementOf command (statementFirst ++ [closer])) s
      (fun _ k => k ∈ statementFirst) TokensOf (Waits (statementFirst ++ [closer])) :=
    (accounts_statementOf hs h _).mono (fun _ _ hmem _ => hmem) fun _ _ hq => hq
  have hlist : Accounts (list statementFirst closer resync
        (statementOf command (statementFirst ++ [closer]))) s (Waits (statementFirst ++ [closer]))
      (fun body tree => tree = body.flatMap (·.children.tokens)) (Waits [closer]) :=
    accounts_list hs (by decide) Code.tokens_statement_ne_nil hitem
  intro ts body rest cs he owed howed
  obtain ⟨_, owed', rfl, hmends⟩ := hlist.settled he owed howed
  exact ⟨_, owed', (Code.tokens_ofList body).symm, hmends⟩

/-- A block may be owed where its opening word is at hand, and its closing word pays for all in
it. -/
theorem accounts_block (hs : s.stop.kind = .eof) {command : Rule Command}
    (h : AccountsCommand command s) :
    Accounts (block command) s (Waits [.begin_]) TokensOf (Waits []) := by
  unfold block
  refine (accounts_expect hs (by decide)).bind ?_
  rintro opening _ rfl
  refine (accounts_statements hs h .end_ blockResync).bind ?_
  rintro body _ rfl
  refine (accounts_expect hs (by decide)).bind ?_
  rintro closing _ rfl
  exact .pure (by simp [TokensOf, Code.children])

/-- Whatever the first token chooses takes that token, and so pays what is owed.  Each choice has an
account of its own, for the kind that it starts with. -/
theorem accounts_commandStep (hs : s.stop.kind = .eof) {inner : Rule Command}
    (h : AccountsCommand inner s) : AccountsCommand (commandStep inner) s := by
  -- whatever is owed, the kind at hand is the one that the rule starts with
  have here {rule : Rule Command} {kind : Kind} (hrule : Accounts rule s (Waits [kind]) TokensOf
      (Waits [])) : Accounts rule s (fun _ k => True ∧ k = kind) TokensOf (Waits []) :=
    hrule.mono (fun _ _ hk _ => List.mem_singleton.mpr hk.2) fun _ _ hq => hq
  unfold commandStep
  refine accounts_peek_bind fun kind => ?_
  split
  · exact here (accounts_call hs)
  · exact here (accounts_cond hs h)
  · exact here (accounts_whileDo hs h)
  · exact here (accounts_times hs h)
  · exact here (accounts_block hs h)
  · split
    · next action haction =>
      have hne : kind ≠ .eof := by
        intro heof
        simp [heof, Builtin.ofKind?] at haction
      refine Accounts.bind (Q := Waits []) (T := Alone) ?_ ?_
      · exact (accounts_advance hs).mono (fun _ _ hk => hk.2 ▸ hne) fun _ _ hq => hq
      · rintro keyword _ rfl
        exact .pure rfl
    · exact accounts_noViable

/-- Commands of any depth account for their repairs. -/
theorem accounts_command (hs : s.stop.kind = .eof) : AccountsCommand command s :=
  accounts_nested fun _ h => accounts_commandStep hs h

/-! ## §4. Definitions and programs. -/

/-- A parameter has no `;` in it, so nothing of it was put in and nothing is owed for it. -/
theorem accounts_optionalParameter (hs : s.stop.kind = .eof) :
    Accounts optionalParameter s (Waits [])
      (fun p tree => tree = (parameterForest p).tokens) (Waits []) := by
  refine accounts_of_makes (makes_optionalParameter hs) fun p hp t ht => ?_
  cases p with
  | none => exact absurd ht List.not_mem_nil
  | some p =>
    obtain ⟨left, name, right⟩ := p
    obtain ⟨hleft, hname, hright⟩ := hp _ rfl
    cases name with
    | none =>
      have hmem : t = left ∨ t = right := by
        simpa [parameterForest, Parameter.view, Parameter.children] using ht
      rcases hmem with rfl | rfl
      · exact hleft ▸ by decide
      · exact hright ▸ by decide
    | some name =>
      have hmem : t = left ∨ t = name ∨ t = right := by
        simpa [parameterForest, Parameter.view, Parameter.children] using ht
      rcases hmem with rfl | rfl | rfl
      · exact hleft ▸ by decide
      · exact hname _ rfl ▸ by decide
      · exact hright ▸ by decide

/-- A `;` put in behind a body waits for what may follow a definition. -/
theorem accounts_fullDefinition (hs : s.stop.kind = .eof) :
    Accounts fullDefinition s (Waits [.define]) (fun d tree => tree = d.view.tokens)
      (Waits definitionFollow) := by
  unfold fullDefinition
  refine (accounts_expect hs (by decide)).bind ?_
  rintro keyword _ rfl
  refine (accounts_expect hs (by decide)).settled.bind ?_
  rintro name _ rfl
  refine (accounts_optionalParameter hs).bind ?_
  rintro parameter _ rfl
  refine (accounts_expect hs (by decide)).settled.bind ?_
  rintro as_ _ rfl
  refine (accounts_statementOf hs (accounts_command hs) definitionFollow).settled.bind ?_
  rintro body _ rfl
  exact .pure (by simp [Definition.view, Node.tokens])

theorem accounts_prototype (hs : s.stop.kind = .eof) :
    Accounts prototype s (Waits [.prototype]) (fun d tree => tree = d.view.tokens)
      (Waits definitionFollow) := by
  unfold prototype
  refine (accounts_expect hs (by decide)).bind ?_
  rintro keyword _ rfl
  refine (accounts_expect hs (by decide)).settled.bind ?_
  rintro name _ rfl
  refine (accounts_optionalParameter hs).bind ?_
  rintro parameter _ rfl
  refine (accounts_expectTerminator hs definitionFollow).settled.bind ?_
  rintro semicolon _ rfl
  exact .pure (by simp [Definition.view, Node.tokens])

/-- A definition may be owed where one starts, and takes its first word. -/
theorem accounts_definition (hs : s.stop.kind = .eof) :
    Accounts definition s (fun _ k => k ∈ [.define, .prototype])
      (fun d tree => tree = d.view.tokens) (Waits definitionFollow) := by
  unfold definition
  refine accounts_peek_bind fun kind => ?_
  split
  · exact (accounts_fullDefinition hs).mono (fun _ _ hk _ => by simp [hk.2]) fun _ _ hq => hq
  · exact (accounts_prototype hs).mono (fun _ _ hk _ => by simp [hk.2]) fun _ _ hq => hq
  · exact accounts_noViable

theorem Definition.tokens_ne_nil (d : Definition) : d.view.tokens ≠ [] := by
  cases d <;> simp [Definition.view, Node.tokens]

/-- Behind the word that closes the main part nothing is owed. -/
theorem accounts_mainPart (hs : s.stop.kind = .eof) :
    Accounts mainPart s (Waits [.beginExecution]) (fun m tree => tree = m.view.tokens)
      (Waits []) := by
  unfold mainPart
  refine (accounts_expect hs (by decide)).bind ?_
  rintro opening _ rfl
  refine (accounts_statements hs (accounts_command hs) .endExecution mainResync).bind ?_
  rintro body _ rfl
  refine (accounts_expect hs (by decide)).bind ?_
  rintro closing _ rfl
  exact .pure (by simp [Main.tokens_view])

/-- Nothing is owed behind a program.  What a definition leaves owed is taken by the next one or by
the main part, and at the end of input nothing can be owed. -/
theorem accounts_program (hs : s.stop.kind = .eof) :
    Accounts program s (Waits []) (fun p tree => tree = p.view.tokens)
      (fun owed k => owed = false ∧ k = .eof) := by
  unfold program
  refine (accounts_expect hs (by decide)).settled.bind ?_
  rintro opening _ rfl
  have hdefinitions :=
    accounts_many hs (by decide) Definition.tokens_ne_nil (accounts_definition hs)
  refine hdefinitions.settled.bind ?_
  rintro definitions _ rfl
  refine Accounts.bind (Q := Waits []) (T := fun m tree => tree = m.view.tokens) ?_ ?_
  · -- a debt that no definition can take waits for the main part
    refine (accounts_mainPart hs).mono ?_ fun _ _ hq => hq
    intro owed kind hkind hdue
    have hmem := hkind.1 hdue
    have hnot := hkind.2
    simp only [definitionFollow, List.mem_cons, List.not_mem_nil, or_false, not_or] at hmem hnot ⊢
    exact (hmem.resolve_left hnot.1).resolve_left hnot.2
  rintro main _ rfl
  refine (accounts_expect hs (by decide)).settled.bind ?_
  rintro closing _ rfl
  refine Accounts.bind (Q := fun owed k => owed = false ∧ k = .eof) (T := fun _ tree => tree = [])
    ?_ ?_
  · intro ts u rest cs he owed howed
    obtain ⟨heof, rfl, rfl⟩ := ends_finish.mp he
    exact ⟨[], owed, rfl, .done owed _, howed.eq_false, heof⟩
  · rintro _ _ rfl
    exact .pure (by simp [Program.tokens_view])

end Rules

/-! ## §5. Whole token lists. -/

/-- A program that is read with recovery from a token list that ends with its
only end of input, and in which no token was put in before, accounts for every
repair.  Its source tokens are a subsequence of those read.  The complaints are
mismatches only, and correspond one by one to the repairs: to each `;` that was
put in, expecting `;` at the next token of the tree that was read, and to each
maximal run of tokens missing from the tree, at the first of them.  So without
complaints the tree has every token. -/
theorem complaints_are_repairs {parens : Bool} {body : List Token} {stop : Token} {p : Program}
    (hstop : stop.kind = .eof) (hbody : ∀ t ∈ body, t.kind ≠ .eof)
    (hinput : ∀ t ∈ body, t.inserted = false)
    (h : (program.run lexicon.label true parens (body ++ [stop])).result = some p) :
    let complaints := (program.run lexicon.label true parens (body ++ [stop])).complaints
    (sourceTokens p.view.tokens).Sublist body
      ∧ (∀ d ∈ complaints, d.issue = .mismatchedToken)
      ∧ (∃ pieces, Aligns pieces body p.view.tokens
          ∧ List.Forall₂ Told complaints (repairs false pieces))
      ∧ (complaints = [] → p.view.tokens = body) := by
  intro complaints
  have hends : Ends program (.forTokens lexicon.label true parens (body ++ [stop]))
      (beforeEnd (body ++ [stop])) p _ complaints := ends_of_result h
  rw [beforeEnd_append_stop hstop hbody] at hends
  obtain ⟨_, owed, rfl, hmends, howed, heof⟩ :=
    accounts_program (endToken_kind _) hends false (waits_false _ _)
  have hrest := eq_nil_of_front_eof hbody hmends.suffix heof
  obtain ⟨pieces, haligns, htold, -⟩ := exists_pieces_of_mends rfl hinput hmends howed hrest
  refine ⟨haligns.sublist, ?_, ⟨pieces, haligns, htold⟩, ?_⟩
  · exact ((List.forall₂_and_left _ _).mp (htold.imp fun d r hd => ⟨hd.issue_eq, hd⟩)).1
  · intro hnone
    have hrepairs : repairs false pieces = [] :=
      List.forall₂_nil_left_iff.mp (hnone ▸ htold)
    rw [← haligns.tree, ← haligns.input]
    exact (input_eq_tree_of_repairs_eq_nil hrepairs).symm

/-- `iniciar-programa inicia-ejecución avanza avanza si-no ; entonces veces avanza ;
termina-ejecución finalizar-programa` -/
def threeFaults : List Token :=
  [(.beginProgram, "iniciar-programa"), (.beginExecution, "inicia-ejecución"),
    (.move, "avanza"), (.move, "avanza"), (.else_, "si-no"), (.semicolon, ";"),
    (.then_, "entonces"), (.times, "veces"), (.move, "avanza"), (.semicolon, ";"),
    (.endExecution, "termina-ejecución"), (.endProgram, "finalizar-programa")].zipIdx.map
    fun ((kind, image), place) => ⟨kind, image, 1, place + 1, 1, place, place, false⟩

/-- A `;` is put in, a stray word dropped, and a run of two words skipped: three
repairs, and three complaints. -/
theorem threeFaults_told :
    let o := program.run lexicon.label true false (threeFaults ++ [.endOfInput 1 13 12])
    (∀ t ∈ threeFaults, t.kind ≠ .eof) ∧ (∀ t ∈ threeFaults, t.inserted = false)
      ∧ o.complaints.length = 3
      ∧ ∃ p, o.result = some p ∧ (sourceTokens p.view.tokens).Sublist threeFaults
          ∧ ∃ pieces, Aligns pieces threeFaults p.view.tokens
              ∧ List.Forall₂ Told o.complaints (repairs false pieces) := by
  intro o
  have hbody : ∀ t ∈ threeFaults, t.kind ≠ .eof := by decide
  have hinput : ∀ t ∈ threeFaults, t.inserted = false := by decide
  have hlength : o.complaints.length = 3 := by decide +kernel
  have hsome : o.result.isSome = true := by decide +kernel
  obtain ⟨p, hp⟩ := Option.isSome_iff_exists.mp hsome
  obtain ⟨hsub, -, htold, -⟩ :=
    complaints_are_repairs (Token.endOfInput_kind 1 13 12) hbody hinput hp
  exact ⟨hbody, hinput, hlength, p, hp, hsub, htold⟩

end RobotLang.Worded
