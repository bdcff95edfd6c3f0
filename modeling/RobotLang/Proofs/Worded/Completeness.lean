/-
  RobotLang.Proofs.Worded.Completeness
  ────────────────────────────────────
  **A LENIENT PROGRAM IS READ FROM WHAT STANDS IN THE SOURCE.**

  With repairs, on the tokens of a program that stand in the source, the grammar
  ends with that program.  All it complains about is a `;` missing before a
  closing word (`Passes`):

      Passes program s p.written p []

  Three repairs could get in the way of a program that is all right.  None of
  them does: one token is enough to tell which way to go, so a token is dropped
  or skipped nowhere, and a `;` is put in exactly where the program has one that
  the source does not.
-/
import RobotLang.Proofs.Rule.Completeness
import RobotLang.Proofs.Worded.NearestElse

namespace RobotLang.Worded

open Rule

/-! ## §1. Harmless endings. -/

variable {α β : Type} {s : Setting} {ts mid rest : List Token}

/-- The rule ends with `a`, leaves `rest` and has only harmless complaints. -/
def Passes (rule : Rule α) (s : Setting) (ts : List Token) (a : α) (rest : List Token) : Prop :=
  ∃ cs, Ends rule s ts a rest cs ∧ serious cs = []

/-- A rule that ends without a complaint passes. -/
theorem Passes.of_ends {rule : Rule α} {a : α} (h : Ends rule s ts a rest []) :
    Passes rule s ts a rest :=
  ⟨[], h, rfl⟩

theorem Passes.pure (a : α) (ts : List Token) : Passes (pure a) s ts a ts :=
  .of_ends (ends_pure.mpr ⟨rfl, rfl, rfl⟩)

/-- Harmless complaints of both parts are harmless together. -/
theorem Passes.bind {first : Rule α} {next : α → Rule β} {a : α} {b : β}
    (hfirst : Passes first s ts a mid) (hnext : Passes (next a) s mid b rest) :
    Passes (first >>= next) s ts b rest := by
  obtain ⟨cs, he, hcs⟩ := hfirst
  obtain ⟨cs', he', hcs'⟩ := hnext
  refine ⟨cs ++ cs', ends_bind.mpr ⟨a, mid, cs, cs', he, he', rfl⟩, ?_⟩
  unfold serious at *
  rw [List.filter_append, hcs, hcs']
  rfl

section Looking

variable {kind : Kind} {t : Token} {b : β}

/-- The kind at hand chooses how to go on. -/
theorem Passes.peek {next : Kind → Rule β} (hfront : (front s ts).kind = kind)
    (h : Passes (next kind) s ts b rest) : Passes (peek >>= next) s ts b rest := by
  subst hfront
  exact .bind (.of_ends rfl) h

theorem Passes.isAt {next : Bool → Rule β} {at_ : Bool} (hat : ((front s ts).kind == kind) = at_)
    (h : Passes (next at_) s ts b rest) : Passes (isAt kind >>= next) s ts b rest := by
  subst hat
  exact .bind (.of_ends rfl) h

/-- Whether one of the kinds is at hand chooses how to go on. -/
theorem Passes.isAtAny {next : Bool → Rule β} {kinds : List Kind} {at_ : Bool}
    (hat : kinds.contains (front s ts).kind = at_) (h : Passes (next at_) s ts b rest) :
    Passes (isAtAny kinds >>= next) s ts b rest := by
  subst hat
  exact .bind (.of_ends rfl) h

/-- A wanted token that is at hand is taken. -/
theorem Passes.expect {next : Token → Rule β} (ht : t.kind = kind)
    (h : Passes (next t) s ts b rest) : Passes (expect kind >>= next) s (t :: ts) b rest :=
  .bind (.of_ends (ends_expect_of_kind ht)) h

/-- A token that may stand here and does is taken. -/
theorem Passes.eat {next : Option Token → Rule β} (ht : t.kind = kind)
    (h : Passes (next (some t)) s ts b rest) : Passes (eat kind >>= next) s (t :: ts) b rest :=
  .bind (.of_ends (if_pos ht)) h

/-- A token that may stand here and does not. -/
theorem Passes.eat_none {next : Option Token → Rule β} (hfront : (front s ts).kind ≠ kind)
    (h : Passes (next none) s ts b rest) : Passes (Rule.eat kind >>= next) s ts b rest :=
  .bind (.of_ends (if_neg hfront)) h

end Looking

/-! ## §2. Terminators. -/

/-- The setting that sources are read with. -/
structure Repairs (s : Setting) : Prop where
  stop : s.stop.kind = .eof
  recovery : s.recovery = true
  semicolon : s.label .semicolon = ";"

/-- A missing `;` before a closing word is harmless. -/
theorem isHarmless_mismatch {t : Token} (h : t.image ∈ closers) :
    isHarmless (.mismatch t [";"]) = true := by
  simpa [isHarmless, Diagnostic.mismatch, Diagnostic.atToken, Diagnostic.text,
    Diagnostic.expected] using h

/-- A `;` that stands in the source is taken. -/
theorem passes_expectTerminator_of_kind {follow : List Kind} {semicolon : Token}
    (h : semicolon.kind = .semicolon) :
    Passes (expectTerminator follow) s (semicolon :: rest) semicolon rest :=
  .eat h (.pure semicolon rest)

/-- The tokens at hand start with the word that the `;` may be missing before,
if there is one. -/
def ClosesWith (s : Setting) (follow : List Kind) (closing : Option Token)
    (rest : List Token) : Prop :=
  ∀ word ∈ closing, front s rest = word ∧ closesList word = true ∧ word.kind ∈ follow

/-- A `;` is read from what the source has of it: itself, or nothing where it was put in before a
word that closes a list. -/
theorem passes_expectTerminator (hs : Repairs s) {follow : List Kind} {closing : Option Token}
    {semicolon : Token} (h : Terminates closing semicolon)
    (hrest : ClosesWith s follow closing rest) :
    Passes (expectTerminator follow) s (sourceOf semicolon ++ rest) semicolon rest := by
  rcases h with ⟨hkind, hinserted⟩ | ⟨word, hword, himage, rfl⟩
  · rw [show sourceOf semicolon = [semicolon] by simp [sourceOf, hinserted]]
    exact passes_expectTerminator_of_kind hkind
  · obtain ⟨rfl, hcloses, hfollow⟩ := hrest word hword
    have hne : (front s rest).kind ≠ .semicolon := by
      intro hsemi
      simp [closesList, hsemi] at hcloses
    -- the repair puts in the very token that the program has
    show Passes (expectTerminator follow) s rest _ rest
    refine ⟨[.mismatch (front s rest) [";"]], (ends_expectTerminator hs.stop).mpr
      (.inr (.inl ⟨hs.recovery, hfollow, hne, ?_, rfl, ?_⟩)), ?_⟩
    · rw [hs.semicolon]
    · rw [hs.semicolon]
    · exact serious_eq_nil_iff.mpr (by simpa using isHarmless_mismatch himage)

/-- Behind a command stands its `;`, or the word that it may be missing before. -/
theorem front_sourceOf {follow : List Kind} {closing : Option Token} {semicolon : Token}
    (h : Terminates closing semicolon) (hrest : ClosesWith s follow closing rest) :
    (front s (sourceOf semicolon ++ rest)).kind ∈ [.semicolon, .end_, .endExecution] := by
  unfold sourceOf
  rcases h with ⟨hkind, hinserted⟩ | ⟨word, hword, _, rfl⟩
  · simp [hinserted, hkind]
  · obtain ⟨rfl, hcloses, _⟩ := hrest word hword
    show (front s rest).kind ∈ _
    simp only [closesList, Bool.or_eq_true, beq_iff_eq] at hcloses
    simp [hcloses]

/-! ## §3. Commands and statements. -/

/-- A list of statements as code is all there is. -/
theorem Code.exists_ofList : (c : Statements) → ∃ ss, c = .ofList ss
  | .nil => ⟨[], rfl⟩
  | .cons head tail => by
    obtain ⟨ss, rfl⟩ := tail.exists_ofList
    exact ⟨head :: ss, rfl⟩

/-- A command starts with one of the kinds that say so. -/
theorem exists_commandFirst {parens : Bool} {closing : Option Token} {c : Command}
    (hc : c.Lenient parens closing) :
    ∃ t more, c.written = t :: more ∧ t.kind ∈ commandFirst := by
  cases c with
  | call t =>
    have hk : t.kind = .identifier := hc
    exact ⟨t, [], rfl, by simp [hk, commandFirst]⟩
  | callWith t | cond t | condElse t | whileDo t | times t | block t =>
    exact ⟨t, _, rfl, by simp [hc.1, commandFirst]⟩
  | builtin action t =>
    have hk : t.kind ∈ Builtin.kinds := by
      rw [← Builtin.ofKind?_isSome_iff, show Builtin.ofKind? t.kind = some action from hc]
      rfl
    exact ⟨t, [], rfl, by simp [hk, commandFirst]⟩

/-- A statement starts with one of the kinds that say so; a lone `;` does too. -/
theorem exists_statementFirst {parens : Bool} {closing : Option Token} {c : Statement}
    (hc : c.Lenient parens closing) :
    ∃ t more, c.written = t :: more ∧ t.kind ∈ statementFirst := by
  cases c with
  | empty t =>
    have hk : t.kind = .semicolon := hc
    exact ⟨t, [], rfl, by simp [hk, statementFirst]⟩
  | ended command semicolon =>
    obtain ⟨t, more, ht, hk⟩ := exists_commandFirst hc.1
    exact ⟨t, more ++ _, by rw [Code.written, ht]; rfl, by simp [hk, statementFirst]⟩

/-- A command of at most `size` tokens is read in front of what is neither its
argument nor its `si-no`. -/
def PassesCommand (rule : Rule Command) (s : Setting) (size : Nat) : Prop :=
  ∀ ⦃c : Command⦄, c.Lenient s.sensorParens none → c.NearestElse → c.written.length ≤ size →
    ∀ rest, (front s rest).kind ≠ .leftParen →
      (c.endsOpen = true → (front s rest).kind ≠ .else_) →
      Passes rule s (c.written ++ rest) c rest

/-- A statement is read with its `;`, which may be missing before the word that closes the list
around it. -/
theorem passes_statementOf (hs : Repairs s) {command : Rule Command} {size : Nat}
    (h : PassesCommand command s size) {follow : List Kind} {closing : Option Token}
    {c : Statement} (hc : c.Lenient s.sensorParens closing) (hnearest : c.NearestElse)
    (hlen : c.written.length ≤ size) (hrest : ClosesWith s follow closing rest) :
    Passes (statementOf command follow) s (c.written ++ rest) c rest := by
  cases c with
  | empty semicolon =>
    have hk : semicolon.kind = .semicolon := hc
    have hnot : commandFirst.contains (front s (semicolon :: rest)).kind = false := by
      rw [front_cons, hk]
      decide
    exact .isAtAny hnot ((passes_expectTerminator_of_kind hk).bind (.pure _ rest))
  | ended command' semicolon =>
    obtain ⟨hcommand, hterminates⟩ := hc
    obtain ⟨t, more, ht, hk⟩ := exists_commandFirst hcommand
    have htokens : (Code.ended command' semicolon).written ++ rest
        = command'.written ++ (sourceOf semicolon ++ rest) := List.append_assoc ..
    have hat : commandFirst.contains
        (front s (command'.written ++ (sourceOf semicolon ++ rest))).kind = true := by
      simpa [ht] using hk
    -- neither a `;` nor a closing word goes on with the command
    have hfront := front_sourceOf hterminates hrest
    have hread : Passes command s (command'.written ++ (sourceOf semicolon ++ rest)) command'
        (sourceOf semicolon ++ rest) := by
      refine h hcommand hnearest ?_ _ ?_ ?_
      · rw [Code.written, List.length_append] at hlen
        omega
      · intro hparen
        rw [hparen] at hfront
        exact absurd hfront (by decide)
      · intro _ helse
        rw [helse] at hfront
        exact absurd hfront (by decide)
    rw [htokens]
    exact .isAtAny hat (hread.bind ((passes_expectTerminator hs hterminates hrest).bind
      (.pure _ rest)))

/-- A list stops in front of its closer, with nothing to skip. -/
theorem passes_resume {first resync : List Kind} {closing : Token} :
    Passes (resume first closing.kind resync) s (closing :: rest) false (closing :: rest) :=
  .of_ends (if_pos (by simp))

/-- Only the last statement of a list can lack its `;`. -/
theorem Code.exists_lenient_head {parens : Bool} {closing : Option Token} {c : Statement}
    {ss : List Statement} (h : (Code.ofList (c :: ss)).Lenient parens closing) :
    ∃ last, c.Lenient parens last ∧ (Code.ofList ss).Lenient parens closing
      ∧ (last = none ∨ last = closing ∧ Code.ofList ss = .nil) := by
  rcases h with ⟨hc, hss⟩ | ⟨hc, hnil⟩
  · exact ⟨none, hc, hss, .inl rfl⟩
  · exact ⟨closing, hc, hnil ▸ trivial, .inr ⟨rfl, hnil⟩⟩

/-- The statements of a list are read one after the other, up to the word that
closes it. -/
theorem passes_listUpTo (hs : Repairs s) {command : Rule Command} {size : Nat}
    (h : PassesCommand command s size) {follow resync : List Kind} {closing : Token}
    (hcloses : closesList closing = true) (hfollow : closing.kind ∈ follow)
    {ss : List Statement} (hss : (Code.ofList ss).Lenient s.sensorParens (some closing))
    (hnearest : (Code.ofList ss).NearestElse) (hlen : (Code.ofList ss).written.length ≤ size)
    {bound : Nat} (hbound : ss.length ≤ bound) :
    Passes (listUpTo statementFirst closing.kind resync (statementOf command follow) bound) s
      ((Code.ofList ss).written ++ closing :: rest) ss (closing :: rest) := by
  -- the bound goes down with the statements, so it is never what stops the list
  induction ss generalizing bound with
  | nil =>
    cases bound with
    | zero => exact .pure [] _
    | succ bound =>
      have hnot : statementFirst.contains (front s (closing :: rest)).kind = false := by
        simp only [closesList, Bool.or_eq_true, beq_iff_eq] at hcloses
        rcases hcloses with hk | hk
        · rw [front_cons, hk]
          decide
        · rw [front_cons, hk]
          decide
      exact .isAtAny hnot (passes_resume.bind (.pure [] _))
  | cons c ss ih =>
    cases bound with
    | zero => simp at hbound
    | succ bound =>
      obtain ⟨hcnear, hssnear⟩ := hnearest
      rw [Code.ofList, Code.written, List.length_append] at hlen
      obtain ⟨last, hc, hss, hlast⟩ := Code.exists_lenient_head hss
      have hrest : ClosesWith s follow last ((Code.ofList ss).written ++ closing :: rest) := by
        rcases hlast with rfl | ⟨rfl, hnil⟩
        · simp [ClosesWith]
        · rw [hnil]
          simp [ClosesWith, Code.written, hcloses, hfollow]
      obtain ⟨t, more, ht, hk⟩ := exists_statementFirst hc
      have hitem := passes_statementOf hs h hc hcnear (by omega) hrest
      have htail := ih hss hssnear (by omega) (Nat.le_of_succ_le_succ hbound)
      have hat : statementFirst.contains (front s
          (c.written ++ ((Code.ofList ss).written ++ closing :: rest))).kind = true := by
        simpa [ht] using hk
      rw [Code.ofList, Code.written, List.append_assoc]
      exact .isAtAny hat (hitem.bind (htail.bind (.pure _ _)))

/-- Every statement has a token. -/
theorem length_le_written {parens : Bool} {closing : Option Token} {ss : List Statement}
    (hss : (Code.ofList ss).Lenient parens closing) :
    ss.length ≤ (Code.ofList ss).written.length := by
  induction ss with
  | nil => exact Nat.zero_le _
  | cons c ss ih =>
    obtain ⟨last, hc, hss, _⟩ := Code.exists_lenient_head hss
    obtain ⟨t, more, ht, _⟩ := exists_statementFirst hc
    have hlen := ih hss
    rw [Code.ofList, Code.written, ht]
    simp only [List.cons_append, List.length_cons, List.length_append]
    omega

/-- A list of statements between its two words passes.  The closing word follows a statement, so a
`;` that is missing before it is put in without a complaint that counts. -/
theorem passes_enclosed (hs : Repairs s) {command : Rule Command} {size : Nat}
    (h : PassesCommand command s size) {opener closer : Kind} {follow resync : List Kind}
    {opening closing : Token} {body : Statements} {f : Token → Statements → Token → α}
    (ho : opening.kind = opener) (hc : closing.kind = closer)
    (hcloses : closesList closing = true) (hfollow : closer ∈ follow)
    (hbody : body.Lenient s.sensorParens (some closing)) (hnearest : body.NearestElse)
    (hlen : body.written.length ≤ size) :
    Passes (do
        let opening ← expect opener
        let body ← list statementFirst closer resync (statementOf command follow)
        return f opening (.ofList body) (← expect closer)) s
      (opening :: (body.written ++ closing :: rest)) (f opening body closing) rest := by
  subst hc
  obtain ⟨ss, rfl⟩ := body.exists_ofList
  have hcount := length_le_written hbody
  have hlist : Passes (list statementFirst closing.kind resync (statementOf command follow)) s
      ((Code.ofList ss).written ++ closing :: rest) ss (closing :: rest) := by
    refine passes_listUpTo hs h hcloses hfollow hbody hnearest hlen ?_
    rw [List.length_append]
    omega
  exact .expect ho (hlist.bind (.expect rfl (.pure _ rest)))

/-! ## §4. The forms of commands. -/

/-- A number is read up to the token behind it. -/
theorem passes_integer {n : Integer} (hn : n.Spelled) (rest : List Token) :
    Passes integer s (n.children.tokens ++ rest) n rest :=
  .of_ends (rereads_integer _ hn (Nat.le_refl _) rest trivial)

/-- A condition is read up to the word behind it. -/
theorem passes_term {test : Condition .term} {word : Token} (ht : test.Spelled s.sensorParens)
    (hword : word.kind ∉ goesOn .term) (rest : List Token) :
    Passes term s (test.children.tokens ++ word :: rest) test (word :: rest) :=
  .of_ends (rereads_term _ ht (Nat.le_refl _) (word :: rest) hword)

/-- A call is read with its argument, since a parenthesis stands right behind its name. -/
theorem passes_callWith {name left right : Token} {argument : Integer}
    (hc : (Code.callWith name left argument right).Lenient s.sensorParens none)
    (rest : List Token) :
    Passes call s ((Code.callWith name left argument right).written ++ rest)
      (.callWith name left argument right) rest := by
  obtain ⟨hn, hl, ha, hr⟩ := hc
  have htokens : (Code.callWith name left argument right).written ++ rest
      = name :: left :: (argument.children.tokens ++ right :: rest) := by
    simp [Code.written]
  rw [htokens]
  exact .expect hn (.eat hl ((passes_integer ha _).bind (.expect hr (.pure _ rest))))

section Layers

variable {inner : Rule Command} {size : Nat} {keyword word : Token} {test : Condition .term}

/-- A conditional without a second branch is read where no `si-no` comes next. -/
theorem passes_cond (h : PassesCommand inner s size) {yes : Command}
    (hc : (Code.cond keyword test word yes).Lenient s.sensorParens none)
    (hnearest : yes.NearestElse) (hlen : yes.written.length ≤ size)
    (hparen : (front s rest).kind ≠ .leftParen) (helse : (front s rest).kind ≠ .else_) :
    Passes (cond inner) s ((Code.cond keyword test word yes).written ++ rest)
      (.cond keyword test word yes) rest := by
  obtain ⟨hk, ht, hw, hyes⟩ := hc
  have hbranch := h hyes hnearest hlen rest hparen fun _ => helse
  have htokens : (Code.cond keyword test word yes).written ++ rest
      = keyword :: (test.children.tokens ++ word :: (yes.written ++ rest)) := by
    simp [Code.written]
  rw [htokens]
  exact .expect hk ((passes_term ht (by rw [hw]; decide) _).bind
    (.expect hw (hbranch.bind (.eat_none helse (.pure _ rest)))))

/-- The first branch leaves the `si-no` alone because it does not end open.  Behind it stands this
word, which is no parenthesis and so not taken for an argument either. -/
theorem passes_condElse (h : PassesCommand inner s size) {yes no : Command} {otherwise : Token}
    (hc : (Code.condElse keyword test word yes otherwise no).Lenient s.sensorParens none)
    (hnearest : (Code.condElse keyword test word yes otherwise no).NearestElse)
    (hyeslen : yes.written.length ≤ size) (hnolen : no.written.length ≤ size)
    (hparen : (front s rest).kind ≠ .leftParen)
    (helse : no.endsOpen = true → (front s rest).kind ≠ .else_) :
    Passes (cond inner) s ((Code.condElse keyword test word yes otherwise no).written ++ rest)
      (.condElse keyword test word yes otherwise no) rest := by
  obtain ⟨hk, ht, hw, hyes, ho, hno⟩ := hc
  obtain ⟨hopen, hyesnear, hnonear⟩ := hnearest
  have hbranch := h hyes hyesnear hyeslen (otherwise :: (no.written ++ rest))
    (by rw [front_cons, ho]; decide) (by simp [hopen])
  have hother := h hno hnonear hnolen rest hparen helse
  have htokens : (Code.condElse keyword test word yes otherwise no).written ++ rest
      = keyword :: (test.children.tokens ++ word ::
          (yes.written ++ otherwise :: (no.written ++ rest))) := by
    simp [Code.written]
  rw [htokens]
  exact .expect hk ((passes_term ht (by rw [hw]; decide) _).bind
    (.expect hw (hbranch.bind (.eat ho (hother.bind (.pure _ rest))))))

/-- A loop is read if its body is.  What its body could take of what follows, the loop could. -/
theorem passes_whileDo (h : PassesCommand inner s size) {body : Command}
    (hc : (Code.whileDo keyword test word body).Lenient s.sensorParens none)
    (hnearest : body.NearestElse) (hlen : body.written.length ≤ size)
    (hparen : (front s rest).kind ≠ .leftParen)
    (helse : body.endsOpen = true → (front s rest).kind ≠ .else_) :
    Passes (whileDo inner) s ((Code.whileDo keyword test word body).written ++ rest)
      (.whileDo keyword test word body) rest := by
  obtain ⟨hk, ht, hw, hbody⟩ := hc
  have hloop := h hbody hnearest hlen rest hparen helse
  have htokens : (Code.whileDo keyword test word body).written ++ rest
      = keyword :: (test.children.tokens ++ word :: (body.written ++ rest)) := by
    simp [Code.written]
  rw [htokens]
  exact .expect hk ((passes_term ht (by rw [hw]; decide) _).bind
    (.expect hw (hloop.bind (.pure _ rest))))

/-- A repetition is read if its body is, under the same conditions. -/
theorem passes_times (h : PassesCommand inner s size) {count : Integer} {body : Command}
    (hc : (Code.times keyword count word body).Lenient s.sensorParens none)
    (hnearest : body.NearestElse) (hlen : body.written.length ≤ size)
    (hparen : (front s rest).kind ≠ .leftParen)
    (helse : body.endsOpen = true → (front s rest).kind ≠ .else_) :
    Passes (times inner) s ((Code.times keyword count word body).written ++ rest)
      (.times keyword count word body) rest := by
  obtain ⟨hk, hn, hw, hbody⟩ := hc
  have hloop := h hbody hnearest hlen rest hparen helse
  have htokens : (Code.times keyword count word body).written ++ rest
      = keyword :: (count.children.tokens ++ word :: (body.written ++ rest)) := by
    simp [Code.written]
  rw [htokens]
  exact .expect hk ((passes_integer hn _).bind (.expect hw (hloop.bind (.pure _ rest))))

/-- A block is read with its list, whatever follows it. -/
theorem passes_block (hs : Repairs s) (h : PassesCommand inner s size) {opening closing : Token}
    {body : Statements} (hc : (Code.block opening body closing).Lenient s.sensorParens none)
    (hnearest : body.NearestElse) (hlen : body.written.length ≤ size) :
    Passes (block inner) s ((Code.block opening body closing).written ++ rest)
      (.block opening body closing) rest := by
  obtain ⟨ho, hbody, hclosing⟩ := hc
  have htokens : (Code.block opening body closing).written ++ rest
      = opening :: (body.written ++ closing :: rest) := by
    simp [Code.written]
  rw [htokens]
  exact passes_enclosed hs h (f := Code.block) ho hclosing (by simp [closesList, hclosing])
    (by decide) hbody hnearest hlen

end Layers

/-- Whatever a command nests has fewer tokens than the command.  So a rule that passes on commands
of some size makes one that passes on those of one token more. -/
theorem passes_commandStep (hs : Repairs s) {inner : Rule Command} {size : Nat}
    (h : PassesCommand inner s size) : PassesCommand (commandStep inner) s (size + 1) := by
  intro c hc hnearest hlen rest hparen helse
  cases c with
  | builtin action keyword =>
    have hk : Builtin.ofKind? keyword.kind = some action := hc
    refine .peek (show (front s (keyword :: rest)).kind = keyword.kind from rfl) ?_
    split
    case h_6 =>
      rw [hk]
      exact .of_ends (ends_advance_bind.mpr (ends_pure.mpr ⟨rfl, rfl, rfl⟩))
    -- the other words are not actions
    all_goals next hother => simp [hother, Builtin.ofKind?] at hk
  | call name =>
    have hn : name.kind = .identifier := hc
    exact .peek hn (.expect hn (.eat_none hparen (.pure _ rest)))
  | callWith name left argument right => exact .peek hc.1 (passes_callWith hc rest)
  | cond keyword test then_ yes =>
    exact .peek hc.1 (passes_cond h hc hnearest (by simp [Code.written] at hlen; omega) hparen
      (helse rfl))
  | condElse keyword test then_ yes otherwise no =>
    exact .peek hc.1 (passes_condElse h hc hnearest (by simp [Code.written] at hlen; omega)
      (by simp [Code.written] at hlen; omega) hparen helse)
  | whileDo keyword test do_ body =>
    exact .peek hc.1 (passes_whileDo h hc hnearest (by simp [Code.written] at hlen; omega) hparen
      helse)
  | times keyword count unit body =>
    exact .peek hc.1 (passes_times h hc hnearest (by simp [Code.written] at hlen; omega) hparen
      helse)
  | block opening body closing =>
    exact .peek hc.1 (passes_block hs h hc hnearest (by simp [Code.written] at hlen; omega))

/-- By induction on the number of tokens of the command. -/
theorem passes_command (hs : Repairs s) (size : Nat) : PassesCommand command s size := by
  -- a layer for each token is enough
  have hdepth : ∀ depth, PassesCommand (nestedUpTo commandStep commandFirst depth) s depth := by
    intro depth
    induction depth with
    | zero =>
      intro c hc _ hlen
      obtain ⟨t, more, ht, _⟩ := exists_commandFirst hc
      simp [ht] at hlen
    | succ depth ih => exact passes_commandStep hs ih
  intro c hc hnearest _ rest hparen helse
  have hlen : c.written.length ≤ (c.written ++ rest).length + 1 := by
    rw [List.length_append]
    omega
  obtain ⟨cs, hends, hserious⟩ := hdepth _ hc hnearest hlen rest hparen helse
  refine ⟨cs, ?_, hserious⟩
  show nestedUpTo commandStep commandFirst ((c.written ++ rest).length + 1) s _ = _
  exact hends

/-! ## §5. Definitions and programs. -/

/-- Items that each start with one of `starts` are read one after the other.  Each has a token, so
the bound of the loop is not what ends it. -/
theorem passes_many {starts : List Kind} {item : Rule α} {tokens : α → List Token}
    (hrest : (front s rest).kind ∉ starts) {as : List α}
    (hstart : ∀ a ∈ as, ∃ t more, tokens a = t :: more ∧ t.kind ∈ starts)
    (hitem : ∀ a ∈ as, ∀ rest', Passes item s (tokens a ++ rest') a rest') :
    Passes (many starts item) s (as.flatMap tokens ++ rest) as rest := by
  have hbound : ∀ bound, as.length ≤ bound →
      Passes (manyUpTo starts item bound) s (as.flatMap tokens ++ rest) as rest := by
    intro bound hle
    induction as generalizing bound with
    | nil =>
      cases bound with
      | zero => exact .pure [] rest
      | succ bound =>
        have hnot : starts.contains (front s rest).kind = false := by simpa using hrest
        exact .isAtAny hnot (.pure [] rest)
    | cons a as ih =>
      rw [List.forall_mem_cons] at hstart hitem
      obtain ⟨t, more, ht, hk⟩ := hstart.1
      cases bound with
      | zero => simp at hle
      | succ bound =>
        have htail := ih hstart.2 hitem.2 bound (Nat.le_of_succ_le_succ hle)
        have hat : starts.contains
            (front s (tokens a ++ (as.flatMap tokens ++ rest))).kind = true := by
          simpa [ht] using hk
        rw [List.flatMap_cons, List.append_assoc]
        exact .isAtAny hat ((hitem.1 _).bind (htail.bind (.pure _ rest)))
  refine hbound _ ?_
  -- an item has at least its first token, so the bound of `many` is not reached
  have hlen : as.length ≤ (as.flatMap tokens).length := by
    refine length_le_flatMap fun a ha => ?_
    obtain ⟨t, more, ht, _⟩ := hstart a ha
    simp [ht]
  rw [List.length_append]
  omega

/-- Parentheses after a name are read if there are any. -/
theorem passes_optionalParameter {parameter : Option Parameter}
    (h : ∀ p ∈ parameter, p.Spelled) (hrest : (front s rest).kind ≠ .leftParen) :
    Passes optionalParameter s ((parameterForest parameter).tokens ++ rest) parameter rest := by
  cases parameter with
  | none => exact .isAt (beq_eq_false_iff_ne.mpr hrest) (.pure none rest)
  | some p =>
    have hp := h p rfl
    have hread : Passes Rule.parameter s (p.children.tokens ++ rest) p rest :=
      .of_ends (rereads_parameter _ hp (Nat.le_refl _) rest trivial)
    have hfront : (front s (p.children.tokens ++ rest)).kind = .leftParen := by
      cases hname : p.name <;> simp [Parameter.children, hname, hp.1]
    have htokens : (parameterForest (some p)).tokens ++ rest = p.children.tokens ++ rest := by
      simp [parameterForest, Parameter.view]
    rw [htokens]
    exact .isAt (beq_iff_eq.mpr hfront) (hread.bind (.pure (some p) rest))

/-- Behind the body of a function stands its `;`, so nothing that follows can be taken into it.  The
optional parameter is told from what follows it by its parenthesis. -/
theorem passes_definition (hs : Repairs s) {d : Definition} (hd : d.Lenient s.sensorParens)
    (hnearest : d.NearestElse) (rest : List Token) :
    Passes definition s (d.written ++ rest) d rest := by
  cases d with
  | full keyword name parameter as_ body =>
    obtain ⟨hk, hn, hp, ha, hbody⟩ := hd
    have hstatement : Passes (statement definitionFollow) s (body.written ++ rest) body rest :=
      passes_statementOf hs (passes_command hs _) hbody hnearest (Nat.le_refl _)
        (by simp [ClosesWith])
    have htokens : (Definition.full keyword name parameter as_ body).written ++ rest
        = keyword :: name :: ((parameterForest parameter).tokens ++ as_ ::
            (body.written ++ rest)) := by
      simp [Definition.written]
    rw [htokens]
    exact .peek hk (.expect hk (.expect hn ((passes_optionalParameter hp
      (by rw [front_cons, ha]; decide)).bind (.expect ha (hstatement.bind (.pure _ rest))))))
  | prototype keyword name parameter semicolon =>
    obtain ⟨hk, hn, hp, hsemi⟩ := hd
    have htokens : (Definition.prototype keyword name parameter semicolon).written ++ rest
        = keyword :: name :: ((parameterForest parameter).tokens ++ semicolon :: rest) := by
      simp [Definition.written]
    rw [htokens]
    exact .peek hk (.expect hk (.expect hn ((passes_optionalParameter hp
      (by rw [front_cons, hsemi]; decide)).bind
        ((passes_expectTerminator_of_kind hsemi).bind (.pure _ rest)))))

/-- The main part is read with its list, up to the word that closes it. -/
theorem passes_mainPart (hs : Repairs s) {m : Main} (hm : m.Lenient s.sensorParens)
    (hnearest : m.body.NearestElse) (rest : List Token) :
    Passes mainPart s (m.written ++ rest) m rest := by
  obtain ⟨ho, hbody, hc⟩ := hm
  have htokens : m.written ++ rest = m.opening :: (m.body.written ++ m.closing :: rest) := by
    simp [Main.written]
  rw [htokens]
  exact passes_enclosed hs (passes_command hs _) (f := Main.mk) ho hc
    (by simp [closesList, hc]) (by decide) hbody hnearest (Nat.le_refl _)

/-- A lenient program whose `si-no`s belong to the nearest `si`s is read from what
stands in the source. -/
theorem passes_program (hs : Repairs s) {p : Program} (hp : p.Lenient s.sensorParens)
    (hnearest : p.NearestElse) : Passes program s p.written p [] := by
  obtain ⟨ho, hd, hm, hc⟩ := hp
  obtain ⟨hdnear, hmnear⟩ := hnearest
  have hmain := passes_mainPart hs hm hmnear [p.closing]
  have hfront : (front s (p.main.written ++ [p.closing])).kind = .beginExecution := hm.1
  have hdefinitions : Passes (many [.define, .prototype] definition) s
      (p.definitions.flatMap (·.written) ++ (p.main.written ++ [p.closing])) p.definitions
      (p.main.written ++ [p.closing]) := by
    refine passes_many (by rw [hfront]; decide) (fun d hmem => ?_)
      fun d hmem rest' => passes_definition hs (hd d hmem) (hdnear d hmem) rest'
    have hlenient := hd d hmem
    cases d with
    | full keyword => exact ⟨keyword, _, rfl, by simp [hlenient.1]⟩
    | prototype keyword => exact ⟨keyword, _, rfl, by simp [hlenient.1]⟩
  have hfinish : Passes finish s [] () [] := .of_ends (ends_finish.mpr ⟨hs.stop, rfl, rfl⟩)
  have htokens : p.written = p.opening :: (p.definitions.flatMap (·.written)
      ++ (p.main.written ++ [p.closing])) := by
    simp [Program.written]
  rw [htokens]
  exact .expect ho (hdefinitions.bind (hmain.bind (.expect hc (hfinish.bind (.pure _ [])))))

end RobotLang.Worded
