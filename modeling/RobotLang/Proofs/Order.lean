/-
  RobotLang.Proofs.Order
  ──────────────────────
  **COMPLAINTS COME IN THE ORDER OF THE SOURCE.**

  Reading a braced program puts nothing in, so each complaint is about a token
  behind the one before it.  Reading a worded program puts in a `;` before a
  token that may follow it and blames that token, which stays; the rule that is
  next then takes it in silence:

      in a block or the main list     a command, a `;` or the word that closes
      behind a definition             another one, or the main list

  So whatever the source and whether repairs are made or not, the complaints are
  about different tokens, in the order in which these stand
  (`program_complaints_inOrder`).
-/
import RobotLang.Proofs.Braced.Reading
import RobotLang.Proofs.Composition
import RobotLang.Proofs.Rule.Order
import RobotLang.Proofs.Worded.Reading

namespace RobotLang

open Rule

/-! ## §1. The worded dialect. -/

namespace Worded

variable {s : Setting} (hs : s.stop.kind = .eof) {n : Nat}

theorem proceeds_optionalParameter : Proceeds n optionalParameter s [] [] := by
  refine (composes_proceeds.isAt _).bind fun b => ?_
  cases b with
  | true => exact composes_proceeds.map composes_proceeds.parameter
  | false => exact .pure none

/-- A definition is read by the rule of the word that it starts with. -/
theorem definition_eq (s : Setting) (ts : List Token) :
    definition s ts = if (front s ts).kind = .define then fullDefinition s ts
      else if (front s ts).kind = .prototype then prototype s ts
      else noViable [.define, .prototype] s ts := by
  unfold definition
  rw [bind_of_quiet (show peek s ts = ⟨some (front s ts).kind, ts, []⟩ from rfl)]
  cases (front s ts).kind <;> rfl

section Commands

variable {command : Rule Command} (hcommand : Proceeds n command s commandFirst [])

include hs

/-- A `;` is taken where one is at hand. -/
theorem items_empty (follow : List Kind) :
    Items n (expectTerminator follow >>= fun t => pure (Code.empty t)) s [.semicolon] follow where
  proceeds := (proceeds_expectTerminator hs follow).bind fun _ => .pure _
  shorter := by
    intro ts a rest ds _ hin hrun
    have hk : (front s ts).kind = .semicolon := List.mem_singleton.mp hin
    have hpos := List.length_pos_iff.mpr (ne_nil_of_front hs (by rw [hk]; decide))
    have heat : eat .semicolon s ts = ⟨some (some (front s ts)), ts.tail, []⟩ := if_pos hk
    have hends : expectTerminator follow s ts = ⟨some (front s ts), ts.tail, []⟩ :=
      bind_of_quiet heat
    rw [bind_of_quiet hends] at hrun
    cases hrun
    rw [List.length_tail]
    omega

include hcommand

/-- A statement is ready for the first token of it being blamed, and may leave one blamed that
follows it. -/
theorem items_statementOf (follow : List Kind) :
    Items n (statementOf command follow) s statementFirst follow := by
  have hended : Items n (command >>= fun c => expectTerminator follow >>= fun t =>
      pure (Code.ended c t)) s commandFirst follow := by
    refine .of_bind hcommand fun c => ?_
    exact (proceeds_expectTerminator hs follow).settled.bind fun _ => .pure _
  exact hended.choice (items_empty hs follow)

/-- Behind a list of statements, the word that closes it may have been blamed. -/
theorem proceeds_statements (closer : Kind) (resync : List Kind) :
    Proceeds n (list statementFirst closer resync
      (statementOf command (statementFirst ++ [closer]))) s [] [closer] := by
  have hend : s.stop.kind ∉ statementFirst := by
    rw [hs]
    decide
  exact ((items_statementOf hs hcommand _).list hend).settled

end Commands

/-! ### Commands, where the first token may have been blamed. -/

section FirstToken

variable {command : Rule Command} (hcommand : Proceeds n command s commandFirst [])
  {blamed : Bool} {ts : List Token} (hn : ts.length < n + 1)

include hs hn

/-- A call takes its name, also if that was blamed. -/
theorem goes_call (hk : (front s ts).kind = .identifier) : Goes call s blamed ts [] := by
  refine goes_expect_bind hs (by decide) hk hn fun name => ?_
  refine (composes_proceeds.eat _).bind fun found => ?_
  cases found with
  | some left =>
    exact composes_proceeds.integer.bind fun _ => (composes_proceeds.expect _).bind fun _ => .pure _
  | none => exact .pure _

include hcommand

/-- A conditional takes its word, also if that was blamed; behind it, nothing blamed is left for its
test. -/
theorem goes_cond (hk : (front s ts).kind = .if_) : Goes (cond command) s blamed ts [] := by
  refine goes_expect_bind hs (by decide) hk hn fun keyword => ?_
  refine composes_proceeds.term.bind fun _ => (composes_proceeds.expect _).bind fun _ =>
    hcommand.settled.bind fun _ => (composes_proceeds.eat _).bind fun found => ?_
  cases found with
  | some otherwise => exact hcommand.settled.bind fun _ => .pure _
  | none => exact .pure _

theorem goes_whileDo (hk : (front s ts).kind = .while_) : Goes (whileDo command) s blamed ts [] :=
  goes_expect_bind hs (by decide) hk hn fun _ => composes_proceeds.term.bind fun _ =>
    (composes_proceeds.expect _).bind fun _ => hcommand.settled.bind fun _ => .pure _

theorem goes_times (hk : (front s ts).kind = .repeat_) : Goes (times command) s blamed ts [] :=
  goes_expect_bind hs (by decide) hk hn fun _ => composes_proceeds.integer.bind fun _ =>
    (composes_proceeds.expect _).bind fun _ => hcommand.settled.bind fun _ => .pure _

/-- So does a block with its opening word, and the word that closes it is taken even if it was
blamed. -/
theorem goes_block (hk : (front s ts).kind = .begin_) : Goes (block command) s blamed ts [] :=
  goes_expect_bind hs (by decide) hk hn fun _ =>
    (proceeds_statements hs hcommand .end_ blockResync).bind fun _ =>
    (proceeds_expect hs (by decide)).bind fun _ => .pure _

end FirstToken

include hs

/-- A command takes its first token, and what is nested in it has fewer tokens.  A token that was
blamed starts a command, so where none starts a complaint may be made. -/
theorem proceeds_commandStep {inner : Rule Command} (hinner : Proceeds n inner s commandFirst []) :
    Proceeds (n + 1) (commandStep inner) s commandFirst [] := by
  intro blamed ts hn hwaits
  refine .of_eq (bind_of_quiet (show peek s ts = ⟨some (front s ts).kind, ts, []⟩ from rfl)) ?_
  generalize hk : (front s ts).kind = kind at hwaits
  split
  · exact goes_call hs hn hk
  · exact goes_cond hs hinner hn hk
  · exact goes_whileDo hs hinner hn hk
  · exact goes_times hs hinner hn hk
  · exact goes_block hs hinner hn hk
  · next hidentifier hif hwhile hrepeat hbegin =>
    cases haction : Builtin.ofKind? kind with
    | some action =>
      have hcons : ts ≠ [] := by
        refine ne_nil_of_front hs fun hend => ?_
        rw [← hk, hend] at haction
        cases haction
      exact .of_taken rfl hcons (.of_some rfl (.done false _) (waits_false _ _))
    | none =>
      -- no command starts with that kind, so it was not blamed
      have hfree : blamed = false := by
        cases blamed with
        | false => rfl
        | true =>
          rcases List.mem_append.mp (hwaits rfl) with hmem | hmem
          · rw [← Builtin.ofKind?_isSome_iff, haction] at hmem
            cases hmem
          · simp only [List.mem_cons, List.not_mem_nil, or_false] at hmem
            rcases hmem with h | h | h | h | h <;> contradiction
      rw [hfree]
      exact goes_noViable commandFirst ts

/-- However deep commands are nested, there are enough tokens for it. -/
theorem proceeds_command : Proceeds n command s commandFirst [] := by
  have hdepth (depth : Nat) :
      Proceeds depth (nestedUpTo commandStep commandFirst depth) s commandFirst [] := by
    induction depth with
    | zero => exact fun _ _ hn => absurd hn (Nat.not_lt_zero _)
    | succ depth ih => exact proceeds_commandStep hs ih
  exact fun _ ts _ hwaits => hdepth (ts.length + 1) (Nat.lt_succ_self _) hwaits

/-! ### Definitions and programs. -/

/-- A function may leave a token blamed that can follow a definition, if its `;` was put in. -/
theorem items_fullDefinition : Items n fullDefinition s [.define] definitionFollow := by
  refine .of_bind (proceeds_expect hs (by decide)) fun _ =>
    (composes_proceeds.expect _).bind fun _ => proceeds_optionalParameter.bind fun _ =>
    (composes_proceeds.expect _).bind fun _ => ?_
  exact (items_statementOf hs (proceeds_command hs) _).proceeds.settled.bind fun _ => .pure _

theorem items_prototype : Items n prototype s [.prototype] definitionFollow := by
  refine .of_bind (proceeds_expect hs (by decide)) fun _ =>
    (composes_proceeds.expect _).bind fun _ => proceeds_optionalParameter.bind fun _ => ?_
  exact (proceeds_expectTerminator hs _).settled.bind fun _ => .pure _

/-- Both sorts of definitions are items, told apart by their words.  Where neither word is at hand
nothing was blamed before, so a complaint may be made there. -/
theorem items_definition : Items n definition s [.define, .prototype] definitionFollow := by
  constructor
  · intro blamed ts hn hwaits
    have heq := definition_eq s ts
    split at heq
    · next hk =>
      exact .of_eq heq ((items_fullDefinition hs).proceeds hn fun _ => List.mem_singleton.mpr hk)
    · split at heq
      · next hk =>
        exact .of_eq heq ((items_prototype hs).proceeds hn fun _ => List.mem_singleton.mpr hk)
      · next hdefine hprototype =>
        have hfree : blamed = false := by
          cases blamed with
          | false => rfl
          | true => simpa [hdefine, hprototype] using hwaits rfl
        rw [hfree]
        exact .of_eq heq (goes_noViable _ ts)
  · intro ts a rest ds hn hin hrun
    rw [definition_eq] at hrun
    split at hrun
    · next hk => exact (items_fullDefinition hs).shorter hn (List.mem_singleton.mpr hk) hrun
    · split at hrun
      · next hk => exact (items_prototype hs).shorter hn (List.mem_singleton.mpr hk) hrun
      · next hdefine hprototype => simp [hdefine, hprototype] at hin

/-- Behind the definitions, the word that opens the main list may have been blamed. -/
theorem proceeds_definitions :
    Proceeds n (many [.define, .prototype] definition) s [] [.beginExecution] := by
  have hend : s.stop.kind ∉ [Kind.define, .prototype] := by
    rw [hs]
    decide
  refine Proceeds.settled ((items_definition hs).many hend ?_)
  decide

/-- The main part is ready for its opening word being blamed, and leaves nothing blamed behind. -/
theorem proceeds_mainPart : Proceeds n mainPart s [.beginExecution] [] :=
  (proceeds_expect hs (by decide)).bind fun _ =>
    (proceeds_statements hs (proceeds_command hs) .endExecution mainResync).bind fun _ =>
    (proceeds_expect hs (by decide)).bind fun _ => .pure _

/-- Reading a worded program blames no token twice. -/
theorem proceeds_program : Proceeds n program s [] [] :=
  (composes_proceeds.expect _).bind fun _ => (proceeds_definitions hs).bind fun _ =>
    (proceeds_mainPart hs).bind fun _ => (composes_proceeds.expect _).bind fun _ =>
    composes_proceeds.finish.bind fun _ => .pure _

end Worded

/-! ## §2. What is said of a source. -/

/-- Both diagnostics have a place, the first one on an earlier line or further left on the same. -/
def Diagnostic.Before (d e : Diagnostic) : Prop :=
  ∃ line column line' column', d.line = some line ∧ d.column = some column
    ∧ e.line = some line' ∧ e.column = some column'
    ∧ (line < line' ∨ line = line' ∧ column < column')

/-- The diagnostics are about different tokens, in the order in which these stand. -/
structure InSourceOrder (tokens : List Token) (ds : List Diagnostic) : Prop where
  once : List.SublistForall₂ Diagnostic.PointsAt ds tokens
  increasing : ds.Pairwise Diagnostic.Before

/-- Every diagnostic points at one of the tokens. -/
theorem exists_pointsAt {ds : List Diagnostic} {tokens : List Token}
    (h : List.SublistForall₂ Diagnostic.PointsAt ds tokens) {d : Diagnostic} (hd : d ∈ ds) :
    ∃ t ∈ tokens, d.PointsAt t := by
  induction h with
  | nil => cases hd
  | @cons e t _ _ hpoints _ ih =>
    rcases List.mem_cons.mp hd with rfl | hd
    · exact ⟨t, List.mem_cons_self, hpoints⟩
    · obtain ⟨u, hu, hdu⟩ := ih hd
      exact ⟨u, List.mem_cons_of_mem t hu, hdu⟩
  | cons_right _ ih =>
    obtain ⟨u, hu, hdu⟩ := ih hd
    exact ⟨u, List.mem_cons_of_mem _ hu, hdu⟩

/-- What points at tokens that stand one behind the other has their places. -/
theorem pairwise_before_of_pointsAt {ds : List Diagnostic} {tokens : List Token}
    (h : List.SublistForall₂ Diagnostic.PointsAt ds tokens)
    (htokens : tokens.Pairwise fun t u => t.line < u.line ∨ t.line = u.line ∧ t.column < u.column) :
    ds.Pairwise Diagnostic.Before := by
  induction h with
  | nil => exact .nil
  | @cons d t _ _ hd htail ih =>
    obtain ⟨hfirst, htokens⟩ := List.pairwise_cons.mp htokens
    refine List.pairwise_cons.mpr ⟨?_, ih htokens⟩
    intro e he
    obtain ⟨u, hu, heu⟩ := exists_pointsAt htail he
    exact ⟨t.line, t.column, u.line, u.column, hd.2.1, hd.2.2, heu.2.1, heu.2.2, hfirst u hu⟩
  | cons_right _ ih => exact ih (List.pairwise_cons.mp htokens).2

/-- A rule that proceeds on any tokens complains in the order of the source. -/
theorem inSourceOrder_of_proceeds {lexicon : Lexicon} (hlexicon : lexicon.EmitsNoEnd) {α : Type}
    {rule : Rule α} (hrule : ∀ n s, s.stop.kind = .eof → Proceeds n rule s [] [])
    (source : String) (label : Kind → String) (recovery sensorParens : Bool) :
    InSourceOrder (lexicon.tokenize source).tokens
      (rule.run label recovery sensorParens (lexicon.tokenize source).tokens).complaints := by
  rw [run_tokens hlexicon]
  have hgoes : Goes rule ⟨label, recovery, sensorParens, Lexicon.endOfText source.toList⟩ false
      (lexicon.bodyTokens source) [] :=
    hrule _ _ rfl (Nat.lt_succ_self _) (waits_false _ _)
  obtain ⟨left, horderly, -⟩ := hgoes
  have hplaces := lexicon.pairwise_place_tokens source
  rw [Lexicon.tokenize_tokens] at hplaces ⊢
  exact ⟨horderly.blames, pairwise_before_of_pointsAt horderly.blames hplaces⟩

/-- **No token is blamed twice, and complaints come in the order of the source**: in either
dialect, with repairs or without, and whether a program is read or not. -/
theorem program_complaints_inOrder (source : String) (label : Kind → String)
    (recovery sensorParens : Bool) :
    InSourceOrder (Braced.lexicon.tokenize source).tokens
        (Braced.program.run label recovery sensorParens
          (Braced.lexicon.tokenize source).tokens).complaints
      ∧ InSourceOrder (Worded.lexicon.tokenize source).tokens
        (Worded.program.run label recovery sensorParens
          (Worded.lexicon.tokenize source).tokens).complaints := by
  constructor
  · exact inSourceOrder_of_proceeds Braced.lexicon_emitsNoEnd
      (fun _ _ _ => Braced.composes_program composes_proceeds) source label recovery sensorParens
  · exact inSourceOrder_of_proceeds Worded.lexicon_emitsNoEnd
      (fun _ _ hs => Worded.proceeds_program hs) source label recovery sensorParens

end RobotLang
