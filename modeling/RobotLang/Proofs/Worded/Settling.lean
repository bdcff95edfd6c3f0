/-
  RobotLang.Proofs.Worded.Settling
  ────────────────────────────────
  **WHERE THE `;` THAT WERE PUT IN END UP.**

  From the tokens of a source alone one can tell where a `;` is missing: before
  each closing word behind neither a `;` nor an opening word.  `withTerminators`
  puts one in at each of these places, right after the token before it.

  A lenient program, settled, has exactly these tokens:

      p.settle.view.tokens = withTerminators p.written

  Settling looks for the last source token of each command, so the equation is
  proved command by command, from the inside out.
-/
import RobotLang.Proofs.Worded.Completeness

namespace RobotLang.Worded

/-! ## §1. Tokens with their terminators. -/

/-- The `;` that is missing right after the token. -/
def terminatorAfter (t : Token) : Token where
  kind := .semicolon
  image := ";"
  line := t.endLine
  column := t.endColumn
  endLine := t.endLine
  offset := t.endOffset + 1
  endOffset := t.endOffset + 1
  inserted := true

/-- A statement ends with `t`, and the list that it stands in with `closing`,
and there is no `;` between them. -/
def lacksTerminator (t closing : Token) : Bool :=
  closesList closing && !opensList t && t.kind != .semicolon

/-- The `;` that is missing between a token and those behind it, if one is. -/
def missingTerminator (t : Token) (ts : List Token) : List Token :=
  if ts.head?.any (lacksTerminator t) then [terminatorAfter t] else []

@[simp] theorem missingTerminator_nil (t : Token) : missingTerminator t [] = [] := rfl

/-- The tokens with a `;` put in wherever one is missing before a closing word. -/
def withTerminators : List Token → List Token
  | [] => []
  | t :: ts => t :: (missingTerminator t ts ++ withTerminators ts)

/-- The tokens do not start with a closing word. -/
def StartsInside (ts : List Token) : Prop :=
  ∀ t ∈ ts.head?, closesList t = false

theorem startsInside_cons {t : Token} {ts : List Token} (h : closesList t = false) :
    StartsInside (t :: ts) := by
  simpa [StartsInside] using h

/-- Only a closing word can lack a `;` in front of it. -/
theorem missingTerminator_eq_nil {t : Token} {ts : List Token} (h : StartsInside ts) :
    missingTerminator t ts = [] := by
  cases ts with
  | nil => rfl
  | cons u ts =>
    have hu : closesList u = false := h u rfl
    simp [missingTerminator, lacksTerminator, hu]

/-- Nothing is missing between two stretches if the second one does not start
with a closing word. -/
theorem withTerminators_append {us vs : List Token} (h : StartsInside vs) :
    withTerminators (us ++ vs) = withTerminators us ++ withTerminators vs := by
  induction us with
  | nil => rfl
  | cons t us ih =>
    -- what is missing after a token depends on the next one only
    have hmissing : missingTerminator t (us ++ vs) = missingTerminator t us := by
      cases us with
      | nil => exact missingTerminator_eq_nil h
      | cons u us => rfl
    show t :: (missingTerminator t (us ++ vs) ++ withTerminators (us ++ vs)) = _
    rw [hmissing, ih, ← List.append_assoc]
    rfl

/-- In front of anything but a closing word, a token is followed by what follows it. -/
theorem withTerminators_cons {t : Token} {ts : List Token} (h : StartsInside ts) :
    withTerminators (t :: ts) = t :: withTerminators ts := by
  show withTerminators ([t] ++ ts) = [t] ++ withTerminators ts
  exact withTerminators_append h

/-- Tokens none of which closes a list lack nothing. -/
theorem withTerminators_eq_self {ts : List Token} (h : ∀ t ∈ ts, closesList t = false) :
    withTerminators ts = ts := by
  induction ts with
  | nil => rfl
  | cons t ts ih =>
    rw [List.forall_mem_cons] at h
    have hts : StartsInside ts := fun u hu => h.2 u (List.mem_of_mem_head? hu)
    rw [withTerminators_cons hts, ih h.2]

/-- What was put in is not in the source. -/
theorem sourceTokens_withTerminators (ts : List Token) :
    sourceTokens (withTerminators ts) = sourceTokens ts := by
  induction ts with
  | nil => rfl
  | cons t ts ih =>
    have hmissing : sourceTokens (missingTerminator t ts) = [] := by
      unfold missingTerminator
      split <;> rfl
    simp [withTerminators, hmissing, ih]

/-- The last token stays the last. -/
theorem exists_withTerminators_concat (ts : List Token) (last : Token) :
    ∃ before, withTerminators (ts ++ [last]) = before ++ [last] := by
  induction ts with
  | nil => exact ⟨[], rfl⟩
  | cons t ts ih =>
    obtain ⟨before, hbefore⟩ := ih
    exact ⟨t :: (missingTerminator t (ts ++ [last]) ++ before), by simp [withTerminators, hbefore]⟩

/-- Before a closing word, either a `;` is missing or none is. -/
theorem withTerminators_concat_closing {ts : List Token} {last closing : Token} :
    withTerminators (ts ++ [last] ++ [closing])
      = withTerminators (ts ++ [last]) ++ missingTerminator last [closing] ++ [closing] := by
  induction ts with
  | nil => simp [withTerminators, missingTerminator]
  | cons t ts ih =>
    have hmissing : missingTerminator t (ts ++ [last] ++ [closing])
        = missingTerminator t (ts ++ [last]) := by
      cases ts <;> rfl
    show t :: (missingTerminator t (ts ++ [last] ++ [closing])
      ++ withTerminators (ts ++ [last] ++ [closing])) = _
    rw [hmissing, ih]
    simp [withTerminators]

/-! ## §2. The ends of a command. -/

/-- A command does not start with a closing word. -/
theorem startsInside_command {parens : Bool} {closing : Option Token} {c : Command}
    (hc : c.Lenient parens closing) : StartsInside c.written := by
  obtain ⟨t, more, ht, hk⟩ := exists_commandFirst hc
  have hnot : ∀ kind ∈ commandFirst, (kind == .end_ || kind == .endExecution) = false := by decide
  rw [ht]
  exact startsInside_cons (hnot t.kind hk)

/-- A statement does not start with a closing word, but with its command or with its `;`. -/
theorem startsInside_statement {parens : Bool} {closing : Option Token} {c : Statement}
    (hc : c.Lenient parens closing) (rest : List Token) : StartsInside (c.written ++ rest) := by
  obtain ⟨t, more, ht, hk⟩ := exists_statementFirst hc
  have hnot : ∀ kind ∈ statementFirst, (kind == .end_ || kind == .endExecution) = false := by
    decide
  rw [ht]
  exact startsInside_cons (hnot t.kind hk)

/-- The token can end a command: behind it a closing word lacks its `;`. -/
def EndsCommand (t : Token) : Prop :=
  opensList t = false ∧ t.kind ≠ .semicolon

/-- A token of any other kind can end a command, since only an opening word and a `;` cannot. -/
theorem endsCommand_of_kind {t : Token} {kind : Kind} (h : t.kind = kind)
    (hk : kind ∉ [.begin_, .beginExecution, .semicolon]) : EndsCommand t := by
  simp only [List.mem_cons, List.not_mem_nil, or_false, not_or] at hk
  simp [EndsCommand, opensList, h, hk]

/-- A command behind a head ends like the whole. -/
theorem exists_last_behind {front ts : List Token} {word : Token}
    (h : ∃ before last, ts = before ++ [last] ∧ EndsCommand last) :
    ∃ before last, front ++ word :: ts = before ++ [last] ∧ EndsCommand last := by
  obtain ⟨before, last, rfl, hends⟩ := h
  exact ⟨front ++ word :: before, last, by simp, hends⟩

/-- The last token of a command stands in the source and ends it.  By recursion on the command, into
its last part. -/
theorem exists_last_of_command {parens : Bool} :
    (c : Command) → {closing : Option Token} → c.Lenient parens closing →
      ∃ before last, c.written = before ++ [last] ∧ EndsCommand last
  | .builtin action keyword, _, hc => by
    have hmem := (Builtin.ofKind?_isSome_iff keyword.kind).mp
      (by rw [show Builtin.ofKind? keyword.kind = some action from hc]; rfl)
    have hnot : ∀ kind ∈ Builtin.kinds, kind ∉ [.begin_, .beginExecution, .semicolon] := by decide
    exact ⟨[], keyword, rfl, endsCommand_of_kind rfl (hnot _ hmem)⟩
  | .call name, _, hc => ⟨[], name, rfl, endsCommand_of_kind hc (by decide)⟩
  | .callWith name left argument right, _, hc =>
    ⟨_, right, rfl, endsCommand_of_kind hc.2.2.2 (by decide)⟩
  | .cond keyword test then_ yes, _, hc =>
    exists_last_behind (exists_last_of_command yes hc.2.2.2)
  | .condElse keyword test then_ yes otherwise no, _, hc =>
    exists_last_behind (exists_last_of_command no hc.2.2.2.2.2)
  | .whileDo keyword test do_ body, _, hc =>
    exists_last_behind (exists_last_of_command body hc.2.2.2)
  | .times keyword count unit body, _, hc =>
    exists_last_behind (exists_last_of_command body hc.2.2.2)
  | .block opening body closing, _, hc =>
    ⟨_, closing, rfl, endsCommand_of_kind hc.2.2 (by decide)⟩

/-- A statement that has its `;` ends with it. -/
theorem exists_semicolon_of_statement {parens : Bool} {c : Statement}
    (hc : c.Lenient parens none) :
    ∃ before semicolon, c.written = before ++ [semicolon] ∧ semicolon.kind = .semicolon := by
  cases c with
  | empty semicolon => exact ⟨[], semicolon, rfl, hc⟩
  | ended command semicolon =>
    rcases hc.2 with ⟨hk, hinserted⟩ | ⟨word, hword, _⟩
    · exact ⟨command.written, semicolon, by simp [Code.written, sourceOf, hinserted], hk⟩
    · cases hword

/-! ## §3. Settled code. -/

/-- The token before the place where a list ends does not lack a `;` there. -/
def Rests (t : Token) : Prop :=
  opensList t = true ∨ t.kind = .semicolon

/-- Nothing is missing behind a `;` or an opening word. -/
theorem missingTerminator_of_rests {t : Token} (h : Rests t) (ts : List Token) :
    missingTerminator t ts = [] := by
  have hnot : ∀ u, lacksTerminator t u = false := by
    intro u
    rcases h with h | h <;> simp [lacksTerminator, h]
  cases ts <;> simp [missingTerminator, hnot]

/-- What settling makes of the code: what is missing is put in.  In front of the
word that closes its list, the last `;` is among what is missing. -/
def Code.Settles : {part : Part} → Code part → Option Token → Prop
  | .command, c, _ => c.settle.children.tokens = withTerminators c.written
  | .statement, c, none => c.settle.children.tokens = withTerminators c.written
  | .statement, c, some word =>
    c.settle.children.tokens ++ [word] = withTerminators (c.written ++ [word])
  | .statements, _, none => True
  | .statements, c, some word => ∀ t, Rests t →
    t :: (c.settle.children.tokens ++ [word]) = withTerminators (t :: (c.written ++ [word]))

/-- The last token is the last of the source if it stands there. -/
theorem lastSourceToken?_of_concat {node : Node} {ts : List Token} {last : Token}
    (h : node.tokens = ts ++ [last]) (hlast : last.inserted = false) :
    node.lastSourceToken? = some last := by
  simp [Node.lastSourceToken?, h, hlast]

/-- The `;` that was put in moves to just past the command. -/
theorem settledTerminator_of_last {c : Command} {before : List Token} {last word : Token}
    (h : c.children.tokens = withTerminators (before ++ [last])) (hlast : last.inserted = false) :
    settledTerminator c (word.insertedBefore .semicolon ";") = terminatorAfter last := by
  obtain ⟨before', hbefore⟩ := exists_withTerminators_concat before last
  have hsource : (commandView c).lastSourceToken? = some last :=
    lastSourceToken?_of_concat (h.trans hbefore) hlast
  have hinserted : (word.insertedBefore .semicolon ";").inserted = true := rfl
  unfold settledTerminator
  rw [if_pos hinserted, hsource]
  rfl

/-- A command with its `;`.  If the source has none, the one that was put in is moved to where one
is missing, right behind the last token of the command. -/
theorem settles_ended {parens : Bool} {closing : Option Token} {c : Command} {semicolon : Token}
    (hc : (Code.ended c semicolon).Lenient parens closing)
    (hclosing : ∀ word ∈ closing, closesList word = true)
    (hinserted : ∀ t ∈ (Code.ended c semicolon).written, t.inserted = false)
    (h : c.settle.children.tokens = withTerminators c.written) :
    (Code.ended c semicolon).Settles closing := by
  obtain ⟨hcommand, hterminates⟩ := hc
  have htokens : (Code.ended c semicolon).settle.children.tokens
      = withTerminators c.written ++ [settledTerminator c.settle semicolon] := by
    simp [Code.settle, Code.children, h]
  rcases hterminates with ⟨hk, hwritten⟩ | ⟨word, hword, _, rfl⟩
  · -- the `;` stands in the source and stays where it is
    have hsame : settledTerminator c.settle semicolon = semicolon := by
      simp [settledTerminator, hwritten]
    have hinside : ∀ ts, StartsInside (semicolon :: ts) := by
      intro ts
      exact startsInside_cons (by simp [closesList, hk])
    have hsource : (Code.ended c semicolon).written = c.written ++ [semicolon] := by
      simp [Code.written, sourceOf, hwritten]
    rw [hsame] at htokens
    cases closing with
    | none =>
      show (Code.ended c semicolon).settle.children.tokens = _
      rw [htokens, hsource, withTerminators_append (hinside [])]
      rfl
    | some word =>
      show (Code.ended c semicolon).settle.children.tokens ++ [word] = _
      rw [htokens, hsource, List.append_assoc, List.append_assoc]
      show withTerminators c.written ++ [semicolon, word]
        = withTerminators (c.written ++ [semicolon, word])
      rw [withTerminators_append (hinside [word])]
      simp [withTerminators, missingTerminator_of_rests (.inr hk)]
  · -- the `;` was put in before the closing word
    obtain rfl : closing = some word := by simpa using hword
    obtain ⟨before, last, hlast, hends⟩ := exists_last_of_command c hcommand
    have hsource : (Code.ended c (word.insertedBefore .semicolon ";")).written
        = before ++ [last] := by
      simp [Code.written, sourceOf, Token.insertedBefore, hlast]
    have hmissing : missingTerminator last [word] = [terminatorAfter last] := by
      simp [missingTerminator, lacksTerminator, hclosing word rfl, hends.1, hends.2]
    rw [hlast] at h htokens
    have hsettled : settledTerminator c.settle (word.insertedBefore .semicolon ";")
        = terminatorAfter last := settledTerminator_of_last h (hinserted last (by simp [hsource]))
    show (Code.ended c _).settle.children.tokens ++ [word] = _
    rw [htokens, hsettled, hsource, withTerminators_concat_closing, hmissing]

/-- A statement with its `;`, and the rest of the list behind it.  The `;` is no closing word, so
the list can be cut in front of it and both parts settled on their own. -/
theorem settles_cons {parens : Bool} {head : Statement} {tail : Statements} {word : Token}
    (hc : head.Lenient parens none) (hhead : head.Settles none)
    (htail : tail.Settles (some word)) : (Code.cons head tail).Settles (some word) := by
  intro t ht
  obtain ⟨before, semicolon, hwritten, hk⟩ := exists_semicolon_of_statement hc
  have hinside : ∀ ts, StartsInside (semicolon :: ts) := by
    intro ts
    exact startsInside_cons (by simp [closesList, hk])
  -- up to its `;` the statement is settled on its own
  have hfirst : withTerminators (t :: before) ++ [semicolon]
      = t :: head.settle.children.tokens := by
    calc withTerminators (t :: before) ++ [semicolon]
        = withTerminators (t :: before ++ [semicolon]) :=
          (withTerminators_append (hinside [])).symm
      _ = withTerminators (t :: head.written) := by rw [hwritten]; rfl
      _ = t :: withTerminators head.written :=
        withTerminators_cons (by simpa using startsInside_statement hc [])
      _ = t :: head.settle.children.tokens := by
        rw [show head.settle.children.tokens = withTerminators head.written from hhead]
  have hrest : semicolon :: (tail.settle.children.tokens ++ [word])
      = withTerminators (semicolon :: (tail.written ++ [word])) := htail semicolon (.inr hk)
  show t :: ((head.settle.children.tokens ++ tail.settle.children.tokens) ++ [word])
    = withTerminators (t :: ((head.written ++ tail.written) ++ [word]))
  calc t :: ((head.settle.children.tokens ++ tail.settle.children.tokens) ++ [word])
      = (t :: head.settle.children.tokens) ++ (tail.settle.children.tokens ++ [word]) := by simp
    _ = withTerminators (t :: before)
        ++ (semicolon :: (tail.settle.children.tokens ++ [word])) := by
      rw [← hfirst]
      simp
    _ = withTerminators (t :: before)
        ++ withTerminators (semicolon :: (tail.written ++ [word])) := by
      rw [hrest]
    _ = withTerminators (t :: before ++ semicolon :: (tail.written ++ [word])) :=
      (withTerminators_append (hinside _)).symm
    _ = withTerminators (t :: ((head.written ++ tail.written) ++ [word])) := by
      rw [hwritten]
      simp

/-- No word inside an expression closes a list. -/
theorem closesList_of_inner {ts : List Token} (h : ∀ t ∈ ts, Inner t) :
    ∀ t ∈ ts, closesList t = false :=
  fun t ht => (h t ht).2

/-- The head of a conditional or a loop lacks nothing, nor does anything where the
command behind it starts. -/
theorem withTerminators_headed {keyword word : Token} {inside rest : List Token}
    (hinside : ∀ t ∈ inside, closesList t = false) (hword : closesList word = false)
    (hrest : StartsInside rest) :
    withTerminators (keyword :: inside ++ word :: rest)
      = keyword :: inside ++ word :: withTerminators rest := by
  have hstart : StartsInside inside := fun t ht => hinside t (List.mem_of_mem_head? ht)
  rw [withTerminators_append (startsInside_cons hword), withTerminators_cons hstart,
    withTerminators_eq_self hinside, withTerminators_cons hrest]

/-- A token of any other kind is no closing word. -/
theorem closesList_of_kind {t : Token} {kind : Kind} (h : t.kind = kind)
    (hk : (kind == .end_ || kind == .endExecution) = false) : closesList t = false := by
  rw [closesList, h]
  exact hk

/-- A head and the command behind it are settled if the command is. -/
theorem withTerminators_headed_command {parens : Bool} {keyword word : Token}
    {inside : List Token} {kind : Kind} {c : Command} (hinside : ∀ t ∈ inside, Inner t)
    (hword : word.kind = kind) (hk : (kind == .end_ || kind == .endExecution) = false)
    (hc : c.Lenient parens none) (h : c.settle.children.tokens = withTerminators c.written) :
    withTerminators (keyword :: inside ++ word :: c.written)
      = keyword :: inside ++ word :: c.settle.children.tokens := by
  rw [withTerminators_headed (closesList_of_inner hinside) (closesList_of_kind hword hk)
    (startsInside_command hc), h]

/-- **Lenient code, settled, has a `;` wherever one is missing in the source.**  By induction on the
code; a list hands its closing word to its last statement. -/
theorem Code.settles {parens : Bool} {part : Part} {c : Code part} {closing : Option Token}
    (hc : c.Lenient parens closing) (hclosing : ∀ word ∈ closing, closesList word = true)
    (hinserted : ∀ t ∈ c.written, t.inserted = false) : c.Settles closing := by
  -- the closing word changes from list to list, so it is general in the induction
  induction c generalizing closing with
  | nil =>
    cases closing with
    | none => trivial
    | some word =>
      intro t ht
      simp [Code.settle, Code.children, Code.written, withTerminators,
        missingTerminator_of_rests ht]
  | cons head tail ihhead ihtail =>
    have hheadin : ∀ t ∈ head.written, t.inserted = false :=
      fun t ht => hinserted t (List.mem_append_left _ ht)
    have htailin : ∀ t ∈ tail.written, t.inserted = false :=
      fun t ht => hinserted t (List.mem_append_right _ ht)
    cases closing with
    | none => trivial
    | some word =>
      rcases hc with ⟨hhead, htail⟩ | ⟨hhead, rfl⟩
      · exact settles_cons hhead (ihhead hhead (by simp) hheadin) (ihtail htail hclosing htailin)
      · -- the last statement of the list, which may lack its `;`
        intro t _
        have hlast : head.settle.children.tokens ++ [word]
            = withTerminators (head.written ++ [word]) := ihhead hhead hclosing hheadin
        show t :: ((head.settle.children.tokens ++ []) ++ [word])
          = withTerminators (t :: ((head.written ++ []) ++ [word]))
        rw [List.append_nil, List.append_nil, hlast,
          withTerminators_cons (startsInside_statement hhead [word])]
  | empty semicolon =>
    have hk : semicolon.kind = .semicolon := hc
    cases closing with
    | none => rfl
    | some word =>
      show [semicolon, word] = withTerminators [semicolon, word]
      simp [withTerminators, missingTerminator_of_rests (.inr hk)]
  | ended command semicolon ih =>
    exact settles_ended hc hclosing hinserted
      (ih hc.1 (by simp) fun t ht => hinserted t (List.mem_append_left _ ht))
  | builtin action keyword => rfl
  | call name => rfl
  | callWith name left argument right =>
    obtain ⟨hn, hl, ha, hr⟩ := hc
    have hinside : ∀ t ∈ left :: argument.children.tokens, closesList t = false := by
      rw [List.forall_mem_cons]
      exact ⟨closesList_of_kind hl rfl, closesList_of_inner (inner_of_integer ha)⟩
    show (Code.callWith name left argument right).children.tokens
      = withTerminators (name :: (left :: argument.children.tokens) ++ right :: [])
    rw [withTerminators_headed hinside (closesList_of_kind hr rfl) (by simp [StartsInside])]
    simp [Code.children, withTerminators]
  | cond keyword test then_ yes ih =>
    obtain ⟨hk, ht, hth, hyes⟩ := hc
    have hbranch : yes.settle.children.tokens = withTerminators yes.written :=
      ih hyes (by simp) fun t ht => hinserted t (by simp [Code.written, ht])
    show (Code.cond keyword test then_ yes.settle).children.tokens
      = withTerminators (keyword :: test.children.tokens ++ then_ :: yes.written)
    rw [withTerminators_headed_command (inner_of_condition ht) hth rfl hyes hbranch]
    simp [Code.children]
  | condElse keyword test then_ yes otherwise no ihyes ihno =>
    obtain ⟨hk, ht, hth, hyes, ho, hno⟩ := hc
    have hbranch : yes.settle.children.tokens = withTerminators yes.written :=
      ihyes hyes (by simp) fun t ht => hinserted t (by simp [Code.written, ht])
    have hother : no.settle.children.tokens = withTerminators no.written :=
      ihno hno (by simp) fun t ht => hinserted t (by simp [Code.written, ht])
    show (Code.condElse keyword test then_ yes.settle otherwise no.settle).children.tokens
      = withTerminators (keyword :: test.children.tokens ++ then_ :: yes.written
          ++ otherwise :: no.written)
    -- the `si-no` closes no list, so the branches are settled apart
    rw [withTerminators_append (startsInside_cons (closesList_of_kind ho rfl)),
      withTerminators_headed_command (inner_of_condition ht) hth rfl hyes hbranch,
      withTerminators_cons (startsInside_command hno), ← hother]
    simp [Code.children]
  | whileDo keyword test do_ body ih =>
    obtain ⟨hk, ht, hd, hbody⟩ := hc
    have hloop : body.settle.children.tokens = withTerminators body.written :=
      ih hbody (by simp) fun t ht => hinserted t (by simp [Code.written, ht])
    show (Code.whileDo keyword test do_ body.settle).children.tokens
      = withTerminators (keyword :: test.children.tokens ++ do_ :: body.written)
    rw [withTerminators_headed_command (inner_of_condition ht) hd rfl hbody hloop]
    simp [Code.children]
  | times keyword count unit body ih =>
    obtain ⟨hk, hn, hu, hbody⟩ := hc
    have hloop : body.settle.children.tokens = withTerminators body.written :=
      ih hbody (by simp) fun t ht => hinserted t (by simp [Code.written, ht])
    show (Code.times keyword count unit body.settle).children.tokens
      = withTerminators (keyword :: count.children.tokens ++ unit :: body.written)
    rw [withTerminators_headed_command (inner_of_integer hn) hu rfl hbody hloop]
    simp [Code.children]
  | block opening body word ih =>
    obtain ⟨ho, hbody, hw⟩ := hc
    -- the opening word is what the list starts behind
    have hlist := ih hbody (by simp [closesList, hw])
      (fun t ht => hinserted t (by simp [Code.written, ht])) opening
      (.inl (by simp [opensList, ho]))
    show (Code.block opening body.settle word).children.tokens
      = withTerminators (opening :: (body.written ++ [word]))
    rw [← hlist]
    simp [Code.children]

/-! ## §4. Settled programs. -/

/-- A definition starts with its own word. -/
theorem Definition.startsInside {parens : Bool} {d : Definition} (hd : d.Lenient parens)
    (rest : List Token) : StartsInside (d.written ++ rest) := by
  cases d with
  | full keyword => exact startsInside_cons (closesList_of_kind hd.1 rfl)
  | prototype keyword => exact startsInside_cons (closesList_of_kind hd.1 rfl)

/-- The body of a definition has its `;` in the source, so only what is inside of it is moved.  A
prototype has nothing to settle. -/
theorem Definition.settles {parens : Bool} {d : Definition} (hd : d.Lenient parens)
    (hinserted : ∀ t ∈ d.written, t.inserted = false) :
    d.settle.view.tokens = withTerminators d.written := by
  cases d with
  | full keyword name parameter as_ body =>
    obtain ⟨hk, hn, hp, ha, hbody⟩ := hd
    have hinside : ∀ t ∈ name :: (parameterForest parameter).tokens, closesList t = false := by
      rw [List.forall_mem_cons]
      exact ⟨closesList_of_kind hn rfl, closesList_of_inner (inner_of_parameter hp)⟩
    have hsettled : body.settle.children.tokens = withTerminators body.written :=
      Code.settles hbody (by simp) fun t ht => hinserted t (by simp [Definition.written, ht])
    show (Definition.full keyword name parameter as_ body.settle).view.tokens
      = withTerminators (keyword :: (name :: (parameterForest parameter).tokens)
          ++ as_ :: body.written)
    rw [withTerminators_headed hinside (closesList_of_kind ha rfl)
      (by simpa using startsInside_statement hbody []), ← hsettled]
    simp [Definition.view, Node.tokens]
  | prototype keyword name parameter semicolon =>
    obtain ⟨hk, hn, hp, hs⟩ := hd
    have hinside : ∀ t ∈ name :: (parameterForest parameter).tokens, closesList t = false := by
      rw [List.forall_mem_cons]
      exact ⟨closesList_of_kind hn rfl, closesList_of_inner (inner_of_parameter hp)⟩
    show (Definition.prototype keyword name parameter semicolon).view.tokens
      = withTerminators (keyword :: (name :: (parameterForest parameter).tokens)
          ++ semicolon :: [])
    rw [withTerminators_headed hinside (closesList_of_kind hs rfl) (by simp [StartsInside])]
    simp [Definition.view, Node.tokens, withTerminators]

/-- Definitions one after the other: none of them starts with a closing word, so nothing is missing
between them. -/
theorem settles_definitions {parens : Bool} {ds : List Definition}
    (hd : ∀ d ∈ ds, d.Lenient parens)
    (hinserted : ∀ d ∈ ds, ∀ t ∈ d.written, t.inserted = false) :
    StartsInside (ds.flatMap (·.written)) ∧
      (ds.map Definition.settle).flatMap (·.view.tokens)
        = withTerminators (ds.flatMap (·.written)) := by
  induction ds with
  | nil => exact ⟨by simp [StartsInside], rfl⟩
  | cons d ds ih =>
    rw [List.forall_mem_cons] at hd hinserted
    obtain ⟨hstart, hsettles⟩ := ih hd.2 hinserted.2
    rw [List.map_cons, List.flatMap_cons, List.flatMap_cons, withTerminators_append hstart,
      hsettles, Definition.settles hd.1 hinserted.1]
    exact ⟨Definition.startsInside hd.1 _, rfl⟩

/-- A lenient program, settled, has a `;` wherever one is missing in the source.  No part starts
with a closing word, so nothing is missing where two parts meet, and each is settled on its own. -/
theorem Program.tokens_settle {parens : Bool} {p : Program} (hp : p.Lenient parens)
    (hinserted : ∀ t ∈ p.written, t.inserted = false) :
    p.settle.view.tokens = withTerminators p.written := by
  obtain ⟨ho, hd, ⟨hmo, hmb, hmc⟩, hc⟩ := hp
  obtain ⟨hstart, hdefinitions⟩ := settles_definitions hd fun d hmem t ht =>
    hinserted t (by simp only [Program.written, List.mem_append, List.mem_cons, List.mem_flatMap]
                    exact .inl (.inl (.inr ⟨d, hmem, ht⟩)))
  have hmain := Code.settles hmb (by simp [closesList, hmc])
    (fun t ht => hinserted t (by simp [Program.written, Main.written, ht]))
    p.main.opening (.inl (by simp [opensList, hmo]))
  -- no part starts with a word that closes a list, so nothing is missing where parts meet
  have hclosing : StartsInside [p.closing] := startsInside_cons (closesList_of_kind hc rfl)
  have hmainstart : StartsInside p.main.written :=
    startsInside_cons (closesList_of_kind hmo rfl)
  have hview : p.settle.view.tokens = p.opening ::
      ((p.definitions.map Definition.settle).flatMap (·.view.tokens))
        ++ (p.main.opening :: (p.main.body.settle.children.tokens ++ [p.main.closing]))
        ++ [p.closing] := by
    simp [Program.tokens_view, Main.tokens_view, Program.settle]
  rw [hview, hdefinitions, hmain]
  show _ = withTerminators (p.opening :: p.definitions.flatMap (·.written) ++ p.main.written
    ++ [p.closing])
  rw [withTerminators_append hclosing, withTerminators_append hmainstart,
    withTerminators_cons hstart]
  simp [Main.written, withTerminators]

/-- Settling only moves a `;`, so it opens and closes nothing. -/
@[simp] theorem Code.endsOpen_settle {part : Part} (c : Code part) :
    c.settle.endsOpen = c.endsOpen := by
  induction c with
  | condElse _ _ _ _ _ _ _ ih => exact ih
  | whileDo _ _ _ _ ih | times _ _ _ _ ih => exact ih
  | _ => rfl

/-- A `si-no` stays with its `si` while a `;` is moved. -/
theorem Code.nearestElse_settle {part : Part} {c : Code part} (hc : c.NearestElse) :
    c.settle.NearestElse := by
  induction c with
  | cons head tail ihhead ihtail => exact ⟨ihhead hc.1, ihtail hc.2⟩
  | condElse keyword test then_ yes otherwise no ihyes ihno =>
    obtain ⟨hopen, hyes, hno⟩ := hc
    exact ⟨by rw [Code.endsOpen_settle, hopen], ihyes hyes, ihno hno⟩
  | ended _ _ ih | cond _ _ _ _ ih | whileDo _ _ _ _ ih | times _ _ _ _ ih | block _ _ _ ih =>
    exact ih hc
  | nil | empty | builtin | call | callWith => trivial

theorem Program.nearestElse_settle {p : Program} (hp : p.NearestElse) :
    p.settle.NearestElse := by
  refine ⟨?_, Code.nearestElse_settle hp.2⟩
  intro d' hd'
  obtain ⟨d, hmem, rfl⟩ := List.mem_map.mp hd'
  have hd := hp.1 d hmem
  cases d with
  | full keyword name parameter as_ body => exact Code.nearestElse_settle hd
  | prototype => trivial

/-- A `;` that is moved is still one. -/
theorem settledTerminator_kind {command : Command} {semicolon : Token}
    (h : semicolon.kind = .semicolon) :
    (settledTerminator command semicolon).kind = .semicolon := by
  unfold settledTerminator
  split
  · split <;> exact h
  · exact h

/-- What ends a statement is a `;`, whether the source has it or not. -/
theorem kind_of_terminates {closing : Option Token} {semicolon : Token}
    (h : Terminates closing semicolon) : semicolon.kind = .semicolon := by
  rcases h with ⟨hk, _⟩ | ⟨_, _, _, rfl⟩
  · exact hk
  · rfl

/-- A lenient program, settled, is spelled.  A `;` that is moved is still a `;`. -/
theorem Code.spelled_settle {parens : Bool} {part : Part} {c : Code part}
    {closing : Option Token} (hc : c.Lenient parens closing) : c.settle.Spelled parens := by
  induction c generalizing closing with
  | nil => trivial
  | cons head tail ihhead ihtail =>
    rcases hc with ⟨hhead, htail⟩ | ⟨hhead, rfl⟩
    · exact ⟨ihhead hhead, ihtail htail⟩
    · exact ⟨ihhead hhead, trivial⟩
  | ended command semicolon ih =>
    exact ⟨ih hc.1, settledTerminator_kind (kind_of_terminates hc.2)⟩
  | empty | builtin | call | callWith => exact hc
  | cond keyword test then_ yes ih =>
    obtain ⟨hk, ht, hth, hyes⟩ := hc
    exact ⟨hk, ht, hth, ih hyes⟩
  | condElse keyword test then_ yes otherwise no ihyes ihno =>
    obtain ⟨hk, ht, hth, hyes, ho, hno⟩ := hc
    exact ⟨hk, ht, hth, ihyes hyes, ho, ihno hno⟩
  | whileDo keyword test do_ body ih =>
    obtain ⟨hk, ht, hd, hbody⟩ := hc
    exact ⟨hk, ht, hd, ih hbody⟩
  | times keyword count unit body ih =>
    obtain ⟨hk, hn, hu, hbody⟩ := hc
    exact ⟨hk, hn, hu, ih hbody⟩
  | block opening body word ih =>
    obtain ⟨ho, hbody, hw⟩ := hc
    exact ⟨ho, ih hbody, hw⟩

/-- A lenient program, settled, has the tokens that its places ask for. -/
theorem Program.spelled_settle {parens : Bool} {p : Program} (hp : p.Lenient parens) :
    p.settle.Spelled parens := by
  obtain ⟨ho, hd, ⟨hmo, hmb, hmc⟩, hc⟩ := hp
  refine ⟨ho, ?_, ⟨hmo, Code.spelled_settle hmb, hmc⟩, hc⟩
  intro d' hd'
  obtain ⟨d, hmem, rfl⟩ := List.mem_map.mp hd'
  have hlenient := hd d hmem
  cases d with
  | full keyword name parameter as_ body =>
    obtain ⟨hk, hn, hp, ha, hb⟩ := hlenient
    exact ⟨hk, hn, hp, ha, Code.spelled_settle hb⟩
  | prototype => exact hlenient

/-- Where nothing was put in, there is nothing to move. -/
theorem Code.settle_eq_self {part : Part} {c : Code part}
    (h : ∀ t ∈ c.children.tokens, t.inserted = false) : c.settle = c := by
  induction c with
  | cons head tail ihhead ihtail =>
    rw [Code.settle, ihhead fun t ht => h t (by simp [Code.children, ht]),
      ihtail fun t ht => h t (by simp [Code.children, ht])]
  | ended command semicolon ih =>
    have hsemi : semicolon.inserted = false := h semicolon (by simp [Code.children])
    rw [Code.settle, ih fun t ht => h t (by simp [Code.children, ht])]
    simp [settledTerminator, hsemi]
  | cond _ _ _ _ ih | whileDo _ _ _ _ ih | times _ _ _ _ ih | block _ _ _ ih =>
    rw [Code.settle, ih fun t ht => h t (by simp [Code.children, ht])]
  | condElse keyword test then_ yes otherwise no ihyes ihno =>
    rw [Code.settle, ihyes fun t ht => h t (by simp [Code.children, ht]),
      ihno fun t ht => h t (by simp [Code.children, ht])]
  | nil | empty | builtin | call | callWith => rfl

/-- A program that was read without a repair is settled already. -/
theorem Program.settle_eq_self {p : Program} (h : ∀ t ∈ p.view.tokens, t.inserted = false) :
    p.settle = p := by
  have hdefinition : ∀ d ∈ p.definitions, d.settle = d := by
    intro d hmem
    have hd : ∀ t ∈ d.view.tokens, t.inserted = false := by
      intro t ht
      refine h t ?_
      simp only [Program.tokens_view, List.mem_append, List.mem_cons, List.mem_flatMap]
      exact .inl (.inl (.inr ⟨d, hmem, ht⟩))
    cases d with
    | full keyword name parameter as_ body =>
      rw [Definition.settle,
        Code.settle_eq_self fun t ht => hd t (by simp [Definition.view, Node.tokens, ht])]
    | prototype => rfl
  have hmain : p.main.body.settle = p.main.body :=
    Code.settle_eq_self fun t ht => h t (by simp [Program.tokens_view, Main.tokens_view, ht])
  rw [Program.settle, hmain, List.map_congr_left hdefinition, List.map_id']

end RobotLang.Worded
