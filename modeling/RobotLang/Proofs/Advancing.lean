/-
  RobotLang.Proofs.Advancing
  ──────────────────────────
  **A STATEMENT IN A LIST TAKES ITS FIRST TOKEN.**

  A list reads a statement only where a token is at hand that one can start
  with.  Every alternative takes that token before it does anything else, and
  nothing after it goes back, so fewer tokens are left, whether the statement
  ends or gives up:

      worded     an action, a name, `si`, `mientras`, `repetir`, `inicio`, `;`
      braced     an action, a name, `if`, `while`, `iterate`, a brace, `;`

  The same holds of definitions.  A statement of the worded dialect that no
  list asked for may take nothing at all; if it ends, it is then a lone `;`
  that a repair put in (`Worded.eq_empty_of_rest_eq`).
-/
import RobotLang.Proofs.Order

namespace RobotLang

open Rule

/-! ## §1. Rules that advance. -/

namespace Rule

variable {α β : Type} {s : Setting} {n : Nat} {ts : List Token}

/-- On fewer than `n` tokens the rule leaves fewer than it found, if one of `starts` is at hand. -/
def Advances (n : Nat) (starts : List Kind) (rule : Rule α) (s : Setting) : Prop :=
  ∀ ⦃ts⦄, ts.length < n → (front s ts).kind ∈ starts → (rule s ts).rest.length < ts.length

/-- What a sequence leaves is left by its first rule. -/
theorem rest_bind_suffix {first : Rule α} {next : α → Rule β} (hnext : ∀ a, Courses (next a) s) :
    ((first >>= next) s ts).rest <:+ (first s ts).rest := by
  rcases ho : first s ts with ⟨result, mid, ds⟩
  cases result with
  | none =>
    have hrest : ((first >>= next) s ts).rest = mid := congrArg Outcome.rest (bind_of_givenUp ho)
    exact hrest ▸ List.suffix_rfl
  | some a =>
    rw [bind_of_some ho]
    exact (hnext a mid).suffix

/-- A sequence advances when its first rule does. -/
theorem length_rest_bind_lt {first : Rule α} {next : α → Rule β}
    (hfirst : (first s ts).rest.length < ts.length) (hnext : ∀ a, Courses (next a) s) :
    ((first >>= next) s ts).rest.length < ts.length :=
  Nat.lt_of_le_of_lt (rest_bind_suffix hnext).length_le hfirst

section Taken

variable (hs : s.stop.kind = .eof)

include hs

/-- There is a token to pass unless the end of input is at hand. -/
theorem length_tail_lt (hk : (front s ts).kind ≠ .eof) : ts.tail.length < ts.length := by
  have hpos := List.length_pos_iff.mpr (ne_nil_of_front hs hk)
  rw [List.length_tail]
  omega

/-- The wanted token is taken if it is at hand. -/
theorem length_rest_expect_lt {kind : Kind} (hkind : kind ≠ .eof)
    (hk : (front s ts).kind = kind) : (expect kind s ts).rest.length < ts.length := by
  have heat : eat kind s ts = ⟨some (some (front s ts)), ts.tail, []⟩ := if_pos hk
  have htaken : expect kind s ts = ⟨some (front s ts), ts.tail, []⟩ := bind_of_quiet heat
  rw [htaken]
  exact length_tail_lt hs (hk ▸ hkind)

/-- A sequence that starts with a token at hand takes that token. -/
theorem length_rest_expect_bind_lt {kind : Kind} {next : Token → Rule β} (hkind : kind ≠ .eof)
    (hk : (front s ts).kind = kind) (hnext : ∀ t, Courses (next t) s) :
    ((expect kind >>= next) s ts).rest.length < ts.length :=
  length_rest_bind_lt (length_rest_expect_lt hs hkind hk) hnext

end Taken
end Rule

/-! ## §2. The worded dialect. -/

namespace Worded

variable {s : Setting} {n : Nat} {ts : List Token}

/-- Commands nested as deep as the bound allows take a course. -/
theorem courses_nestedUpTo (depth : Nat) : Courses (nestedUpTo commandStep commandFirst depth) s :=
  nestedUpTo_induction (P := (Courses · s)) (courses_noViable commandFirst)
    (fun _ hinner => composes_commandStep composesRepairs_courses hinner) depth

variable (hs : s.stop.kind = .eof)

include hs

/-- Each command takes the token that told what it is.  The token chooses the case, each case takes
it first, and nothing behind it goes back. -/
theorem advances_commandStep {inner : Rule Command} (hinner : Courses inner s) :
    Advances n commandFirst (commandStep inner) s := by
  intro ts _ hin
  have h := composesRepairs_courses (s := s)
  unfold commandStep
  rw [bind_of_quiet (show peek s ts = ⟨some (front s ts).kind, ts, []⟩ from rfl)]
  generalize hk : (front s ts).kind = kind at hin
  cases kind with
  | identifier =>
    refine length_rest_expect_bind_lt hs (by decide) hk fun _ => h.bind (h.eat _) fun found => ?_
    cases found with
    | some left => exact h.bind h.integer fun _ => h.bind (h.expect _) fun _ => h.pure _
    | none => exact h.pure _
  | if_ =>
    refine length_rest_expect_bind_lt hs (by decide) hk fun _ => h.bind h.term fun _ =>
      h.bind (h.expect _) fun _ => h.bind hinner fun _ => h.bind (h.eat _) fun found => ?_
    cases found with
    | some otherwise => exact h.bind hinner fun _ => h.pure _
    | none => exact h.pure _
  | while_ =>
    exact length_rest_expect_bind_lt hs (by decide) hk fun _ => h.bind h.term fun _ =>
      h.bind (h.expect _) fun _ => h.bind hinner fun _ => h.pure _
  | repeat_ =>
    exact length_rest_expect_bind_lt hs (by decide) hk fun _ => h.bind h.integer fun _ =>
      h.bind (h.expect _) fun _ => h.bind hinner fun _ => h.pure _
  | begin_ =>
    exact length_rest_expect_bind_lt hs (by decide) hk fun _ =>
      h.list_bind (composes_statementOf h hinner _) fun _ _ => h.pure _
  | move | turnLeft | pickBeeper | putBeeper | turnOff | return_ =>
    exact length_rest_bind_lt (length_tail_lt hs (by rw [hk]; decide)) fun _ => h.pure _
  -- no other kind starts a command
  | _ => simp [commandFirst, Builtin.kinds] at hin

/-- Commands nested as deep as there are tokens advance. -/
theorem advances_nestedUpTo (depth : Nat) :
    Advances depth commandFirst (nestedUpTo commandStep commandFirst depth) s := by
  cases depth with
  | zero => exact fun _ hn => absurd hn (Nat.not_lt_zero _)
  | succ depth => exact advances_commandStep hs (courses_nestedUpTo depth)

/-- A statement that starts with a command or a `;` takes its first token. -/
theorem advances_statementOf {command : Rule Command} (hcommand : Advances n commandFirst command s)
    (follow : List Kind) : Advances n statementFirst (statementOf command follow) s := by
  intro ts hn hin
  unfold statementOf
  rw [bind_of_quiet (isAtAny_eq commandFirst s ts)]
  by_cases hc : (front s ts).kind ∈ commandFirst
  · rw [if_pos (by simpa using hc)]
    exact length_rest_bind_lt (hcommand hn hc) fun _ =>
      (courses_expectTerminator follow).bind fun _ => .pure _
  · rw [if_neg (by simpa using hc)]
    have hk : (front s ts).kind = .semicolon :=
      List.mem_singleton.mp ((List.mem_append.mp hin).resolve_left hc)
    have heat : eat .semicolon s ts = ⟨some (some (front s ts)), ts.tail, []⟩ := if_pos hk
    have htaken : expectTerminator follow s ts = ⟨some (front s ts), ts.tail, []⟩ :=
      bind_of_quiet heat
    rw [bind_of_quiet htaken]
    exact length_tail_lt hs (by rw [hk]; decide)

/-- A statement that can start at the token at hand takes it. -/
theorem advances_statement (follow : List Kind) :
    Advances n statementFirst (statement follow) s :=
  advances_statementOf hs (fun ts _ => advances_nestedUpTo hs (ts.length + 1) (Nat.lt_succ_self _))
    follow

/-- A definition takes the word it starts with. -/
theorem advances_definition : Advances n [.define, .prototype] definition s := by
  intro ts _ hin
  have h := composesRepairs_courses (s := s)
  rw [definition_eq]
  split
  · next hk =>
    exact length_rest_expect_bind_lt hs (by decide) hk fun _ => h.bind (h.expect _) fun _ =>
      h.bind (composes_optionalParameter h) fun _ => h.bind (h.expect _) fun _ =>
      h.bind (composes_statement h _) fun _ => h.pure _
  · split
    · next hk =>
      exact length_rest_expect_bind_lt hs (by decide) hk fun _ => h.bind (h.expect _) fun _ =>
        h.bind (composes_optionalParameter h) fun _ => h.bind (h.expectTerminator _) fun _ =>
        h.pure _
    · next hdefine hprototype => simp [hdefine, hprototype] at hin

/-- A statement that ends and takes nothing is a `;` that was put in. -/
theorem eq_empty_of_rest_eq {follow : List Kind} {c : Statement} {ds : List Diagnostic}
    (h : Ends (statement follow) s ts c ts ds) :
    c = .empty ((front s ts).insertedBefore .semicolon (s.label .semicolon))
      ∧ s.recovery = true ∧ (front s ts).kind ∈ follow := by
  have hstart : (front s ts).kind ∉ statementFirst := fun hin => by
    have hlt := advances_statement hs follow (Nat.lt_succ_self _) hin
    rw [show statement follow s ts = ⟨some c, ts, ds⟩ from h] at hlt
    exact Nat.lt_irrefl _ hlt
  have hc : (front s ts).kind ∉ commandFirst := fun hin => hstart (List.mem_append_left _ hin)
  unfold Ends statement statementOf at h
  rw [bind_of_quiet (isAtAny_eq commandFirst s ts), if_neg (by simpa using hc)] at h
  obtain ⟨t, mid, ds₁, ds₂, ht, hpure, -⟩ := ends_bind.mp h
  obtain ⟨rfl, rfl, -⟩ := ends_pure.mp hpure
  -- found, put in, or found behind a token that was dropped: two of these take tokens
  rcases (ends_expectTerminator hs).mp ht with
    ⟨hts, -, -⟩ | ⟨hr, hin, -, rfl, -, -⟩ | ⟨stray, hts, -, -, -, -, -⟩
  · exact absurd (congrArg List.length hts) (by rw [List.length_cons]; omega)
  · exact ⟨rfl, hr, by simpa using hin⟩
  · exact absurd (congrArg List.length hts) (by rw [List.length_cons, List.length_cons]; omega)

/-- A body that is missing before the next definition. -/
example :
    let t : Token := ⟨.define, "define-nueva-instrucción", 1, 1, 1, 0, 23, false⟩
    Ends (statement definitionFollow) ⟨Kind.name, true, false, t.endAfter⟩ [t]
      (.empty (t.insertedBefore .semicolon "Semicolon")) [t] [.mismatch t ["Semicolon"]] := rfl

end Worded

/-! ## §3. The braced dialect. -/

namespace Braced

variable {s : Setting} {n : Nat} {ts : List Token}

theorem courses_nestedUpTo (depth : Nat) :
    Courses (nestedUpTo statementStep statementFirst depth) s :=
  nestedUpTo_induction (P := (Courses · s)) (courses_noViable statementFirst)
    (fun _ hinner => composes_statementStep composes_courses hinner) depth

variable (hs : s.stop.kind = .eof)

include hs

/-- Each statement takes the token that told what it is.  The token chooses the case, each case
takes it first, and nothing behind it goes back. -/
theorem advances_statementStep {inner : Rule Statement} (hinner : Courses inner s) :
    Advances n statementFirst (statementStep inner) s := by
  intro ts _ hin
  have h := composes_courses (s := s)
  unfold statementStep
  rw [bind_of_quiet (show peek s ts = ⟨some (front s ts).kind, ts, []⟩ from rfl)]
  generalize hk : (front s ts).kind = kind at hin
  cases kind with
  | if_ =>
    refine length_rest_expect_bind_lt hs (by decide) hk fun _ => h.bind (h.expect _) fun _ =>
      h.bind h.term fun _ => h.bind (h.expect _) fun _ => h.bind hinner fun _ =>
      h.bind (h.eat _) fun found => ?_
    cases found with
    | some otherwise => exact h.bind hinner fun _ => h.pure _
    | none => exact h.pure _
  | while_ =>
    exact length_rest_expect_bind_lt hs (by decide) hk fun _ => h.bind (h.expect _) fun _ =>
      h.bind h.term fun _ => h.bind (h.expect _) fun _ => h.bind hinner fun _ => h.pure _
  | repeat_ =>
    exact length_rest_expect_bind_lt hs (by decide) hk fun _ => h.bind (h.expect _) fun _ =>
      h.bind h.integer fun _ => h.bind (h.expect _) fun _ => h.bind hinner fun _ => h.pure _
  | leftBrace =>
    refine length_rest_bind_lt ?_ fun _ => h.pure _
    exact length_rest_expect_bind_lt hs (by decide) hk fun _ => h.bind (h.many hinner) fun _ =>
      h.bind (h.expect _) fun _ => h.pure _
  | identifier =>
    refine length_rest_expect_bind_lt hs (by decide) hk fun name => h.bind (h.expect _) fun left =>
      h.bind (h.isAt _) fun b => ?_
    -- with or without an argument, the call goes on in the same way
    have hrest : ∀ argument : Option Integer, Courses
        (expect .rightParen >>= fun right => expect .semicolon >>= fun stop =>
          pure (Code.call name left argument right stop)) s :=
      fun _ => h.bind (h.expect _) fun _ => h.bind (h.expect _) fun _ => h.pure _
    cases b with
    | true => exact h.bind (h.pure none) hrest
    | false => exact h.bind (h.map h.integer) hrest
  | semicolon =>
    exact length_rest_bind_lt (length_tail_lt hs (by rw [hk]; decide)) fun _ => h.pure _
  | move | turnLeft | pickBeeper | putBeeper | turnOff | return_ =>
    exact length_rest_bind_lt (length_tail_lt hs (by rw [hk]; decide)) fun _ =>
      h.bind (h.expect _) fun _ => h.bind (h.expect _) fun _ => h.bind (h.expect _) fun _ =>
      h.pure _
  -- no other kind starts a statement
  | _ => simp [statementFirst, Builtin.kinds] at hin

theorem advances_nestedUpTo (depth : Nat) :
    Advances depth statementFirst (nestedUpTo statementStep statementFirst depth) s := by
  cases depth with
  | zero => exact fun _ hn => absurd hn (Nat.not_lt_zero _)
  | succ depth => exact advances_statementStep hs (courses_nestedUpTo depth)

theorem advances_statement : Advances n statementFirst statement s :=
  fun ts _ => advances_nestedUpTo hs (ts.length + 1) (Nat.lt_succ_self _)

theorem advances_definition : Advances n [.define] definition s := by
  intro ts _ hin
  have h := composes_courses (s := s)
  exact length_rest_expect_bind_lt hs (by decide) (List.mem_singleton.mp hin) fun _ =>
    h.bind (h.expect _) fun _ => h.bind h.parameter fun _ => h.bind (composes_block h) fun _ =>
    h.pure _

end Braced
end RobotLang
