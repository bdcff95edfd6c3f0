/-
  RobotLang.Proofs.Rule.Resuming
  ──────────────────────────────
  **WHERE A LIST THAT STOPPED SHORT OF ITS CLOSER GOES ON.**

  A list that cannot go on looks ahead for the first token that is one of
  `first`, the `closer`, one of `resync` or the end of input:

      tokens   ⋯ stray ⋯ ⋯ ⋯ stop ⋯
                 ↑ pos        ↑ j, the first place where skipping stops

  At one of `first` it goes on from there, at the closer it ends there, and both
  times one complaint about the stray token is appended.  At anything else it
  ends where it was, and has said nothing.  It does not even look when repairs
  are off, or when its closer is at hand or right behind the token at hand
  (`perform_resume`).

  The three sets may overlap in any way: at the place where skipping stops
  `first` is asked first, then the closer.
-/
import Mathlib.Data.List.GetD
import RobotLang.Proofs.Rule.Session

namespace RobotLang

open Rule

/-! ## §1. Places in a list of tokens. -/

/-- The token at place `i`; behind the last one stands the end of input. -/
def tokenAt (tokens : List Token) (i : Nat) : Token :=
  (beforeEnd tokens).getD i (endToken tokens)

/-- A session that has come to place `i`. -/
def Session.standingAt (tokens : List Token) (i : Nat) (complaints : List Diagnostic) : Session :=
  ⟨(beforeEnd tokens).drop i, complaints⟩

/-- Skipping stops at tokens of that kind. -/
def StopsSkipping (first : List Kind) (closer : Kind) (resync : List Kind) (kind : Kind) : Prop :=
  kind ∈ first ∨ kind = closer ∨ kind ∈ resync ∨ kind = .eof

/-- The first place, from `pos` on, where skipping stops. -/
structure FirstStop (tokens : List Token) (first : List Kind) (closer : Kind) (resync : List Kind)
    (pos j : Nat) : Prop where
  from_pos : pos ≤ j
  stops : StopsSkipping first closer resync (tokenAt tokens j).kind
  skipped : ∀ i, pos ≤ i → i < j → ¬StopsSkipping first closer resync (tokenAt tokens i).kind

section Places

variable {tokens : List Token} {first resync : List Kind} {closer : Kind}

theorem kind_ne_eof_of_mem_beforeEnd {t : Token} (h : t ∈ beforeEnd tokens) : t.kind ≠ .eof := by
  have hall := List.all_eq_true.mp (List.all_takeWhile (p := fun t : Token => t.kind != .eof)) t h
  simpa using hall

theorem front_drop_beforeEnd {s : Setting} (hstop : s.stop = endToken tokens) (i : Nat) :
    front s ((beforeEnd tokens).drop i) = tokenAt tokens i := by
  unfold front tokenAt
  rw [hstop, List.headD_eq_head?_getD, List.head?_drop, List.getD_eq_getElem?_getD]

/-- Skipping from `pos` on stops at the first place where it can.  That is the first of the kinds
that are looked for, or the end of input if there is none. -/
theorem firstStop_skipTo (tokens : List Token) (first : List Kind) (closer : Kind)
    (resync : List Kind) (pos : Nat) :
    ∃ j, FirstStop tokens first closer resync pos j
      ∧ skipTo (closer :: first ++ resync) ((beforeEnd tokens).drop pos)
        = (beforeEnd tokens).drop j := by
  generalize hkinds : closer :: first ++ resync = kinds
  have hmem (kind : Kind) : kinds.contains kind = true ∨ kind = .eof ↔
      StopsSkipping first closer resync kind := by
    simp only [← hkinds, StopsSkipping, List.contains_eq_mem, List.cons_append, List.mem_cons,
      List.mem_append, decide_eq_true_eq, or_assoc]
    exact or_left_comm
  let ahead := (beforeEnd tokens).drop pos
  let n := ahead.findIdx fun t => kinds.contains t.kind
  have hskip : skipTo kinds ahead = (beforeEnd tokens).drop (pos + n) := by
    unfold skipTo
    rw [List.dropWhile_eq_drop_findIdx_not]
    simp only [Bool.not_not]
    exact List.drop_drop
  have hat (k : Nat) : tokenAt tokens (pos + k) = ahead.getD k (endToken tokens) := by
    simp [tokenAt, ahead, List.getD_eq_getElem?_getD, List.getElem?_drop]
  refine ⟨pos + n, ⟨Nat.le_add_right pos n, ?_, ?_⟩, hskip⟩
  -- it stops: at a kind that was looked for, or else at the end of input
  · rw [hat, ← hmem]
    by_cases hn : n < ahead.length
    · rw [List.getD_eq_getElem _ _ hn]
      exact .inl (List.findIdx_getElem (p := fun t : Token => kinds.contains t.kind) (w := hn))
    · rw [List.getD_eq_default _ _ (Nat.le_of_not_lt hn)]
      exact .inr (endToken_kind tokens)
  · intro i hi hlt
    -- and not before: what is skipped is none of these, nor is it the end
    obtain ⟨k, rfl⟩ := Nat.exists_eq_add_of_le hi
    have hk : k < n := by omega
    have hlength : k < ahead.length := Nat.lt_of_lt_of_le hk List.findIdx_le_length
    rw [hat, List.getD_eq_getElem _ _ hlength, ← hmem]
    have hnot := List.not_of_lt_findIdx hk
    have hend : ahead[k].kind ≠ .eof :=
      kind_ne_eof_of_mem_beforeEnd (List.mem_of_mem_drop (List.getElem_mem hlength))
    rintro (hin | heof)
    · exact absurd hin (Bool.eq_false_iff.mp hnot)
    · exact hend heof

end Places

/-! ## §2. Looking for a place to go on. -/

section Resume

variable {s : Setting} {ts : List Token} {first resync : List Kind} {closer : Kind}

/-- Without repairs, or near its closer, a list does not look for a place to go on. -/
theorem ends_resume_at_once
    (h : s.recovery = false ∨ (front s ts).kind = closer ∨ (front s ts.tail).kind = closer) :
    Ends (resume first closer resync) s ts false ts [] := by
  unfold Ends resume
  rw [if_pos]
  simpa [or_assoc] using h

/-- Where the skip stops decides: one of `first` is looked for before the closer. -/
theorem ends_resume_of_skip (hr : s.recovery = true) (hcloser : (front s ts).kind ≠ closer)
    (hnext : (front s ts.tail).kind ≠ closer) {ahead : List Token}
    (hahead : skipTo (closer :: first ++ resync) ts = ahead) :
    ((front s ahead).kind ∈ first → Ends (resume first closer resync) s ts true ahead
        [.mismatch (front s ts) [s.label closer]])
      ∧ ((front s ahead).kind ∉ first → (front s ahead).kind = closer →
        Ends (resume first closer resync) s ts false ahead
          [.mismatch (front s ts) [s.label closer]])
      ∧ ((front s ahead).kind ∉ first → (front s ahead).kind ≠ closer →
        Ends (resume first closer resync) s ts false ts []) := by
  unfold Ends resume
  rw [if_neg (by simp [hr, hcloser, hnext]), hahead]
  refine ⟨?_, ?_, ?_⟩
  · intro hfirst
    rw [if_pos (by simpa using hfirst)]
  · intro hfirst hat
    rw [if_neg (by simpa using hfirst), if_pos (by simpa using hat)]
  · intro hfirst hat
    rw [if_neg (by simpa using hfirst), if_neg (by simpa using hat)]

/-- What the rule does is what becomes of the session. -/
theorem perform_resume_of_ends {x : Session} {goes : Bool} {rest : List Token}
    {cs : List Diagnostic} (h : Ends (resume first closer resync) s x.rest goes rest cs) :
    x.answer s (.resume first closer resync) = some (.goesOn goes)
      ∧ x.perform s (.resume first closer resync) = ⟨rest, x.complaints ++ cs⟩ := by
  have hrule : Ends (Operation.resume first closer resync).rule s x.rest (.goesOn goes) rest cs :=
    ends_map.mpr ⟨goes, h, rfl⟩
  unfold Ends at hrule
  unfold Session.answer Session.perform
  rw [hrule]
  exact ⟨rfl, rfl⟩

end Resume

/-- **The exact effect of looking for a place to go on**, at any place of any tokens, with any
complaints so far, and for any three sets of kinds.  Tokens behind the first end of input are not
seen: no place is looked for there, and every place from it on has that end at hand. -/
theorem perform_resume (label : Kind → String) (recovery sensorParens : Bool)
    (tokens : List Token) (pos : Nat) (complaints : List Diagnostic) (first : List Kind)
    (closer : Kind) (resync : List Kind) :
    let s := Setting.forTokens label recovery sensorParens tokens
    let x := Session.standingAt tokens pos complaints
    let answer := x.answer s (.resume first closer resync)
    let y := x.perform s (.resume first closer resync)
    let complaint := Diagnostic.mismatch (tokenAt tokens pos) [label closer]
    let kind (i : Nat) := (tokenAt tokens i).kind
    (recovery = false → answer = some (.goesOn false) ∧ y = x)
      ∧ (recovery = true → kind pos = closer ∨ kind (pos + 1) = closer →
        answer = some (.goesOn false) ∧ y = x)
      ∧ (recovery = true → kind pos ≠ closer → kind (pos + 1) ≠ closer →
        ∃ j, FirstStop tokens first closer resync pos j
          ∧ (kind j ∈ first → answer = some (.goesOn true)
              ∧ y = .standingAt tokens j (complaints ++ [complaint]))
          ∧ (kind j ∉ first → kind j = closer → answer = some (.goesOn false)
              ∧ y = .standingAt tokens j (complaints ++ [complaint]))
          ∧ (kind j ∉ first → kind j ≠ closer → answer = some (.goesOn false) ∧ y = x)) := by
  intro s x answer y complaint kind
  have hfront (i : Nat) : front s ((beforeEnd tokens).drop i) = tokenAt tokens i :=
    front_drop_beforeEnd rfl i
  have htail : front s x.rest.tail = tokenAt tokens (pos + 1) := by
    rw [← hfront (pos + 1), ← List.tail_drop]
    rfl
  -- a list that ends where it was is as before
  have hstays (h : Ends (resume first closer resync) s x.rest false x.rest []) :
      answer = some (.goesOn false) ∧ y = x := by
    have hperform := perform_resume_of_ends h
    rwa [List.append_nil] at hperform
  refine ⟨fun hr => ?_, fun _ hnear => ?_, fun hr hcloser hnext => ?_⟩
  · exact hstays (ends_resume_at_once (.inl hr))
  · refine hstays (ends_resume_at_once (.inr ?_))
    rw [htail]
    exact hnear.imp_left fun h => (congrArg Token.kind (hfront pos)).trans h
  · obtain ⟨j, hstop, hskip⟩ := firstStop_skipTo tokens first closer resync pos
    have hkind : (front s ((beforeEnd tokens).drop j)).kind = kind j :=
      congrArg Token.kind (hfront j)
    have hstray : front s x.rest = tokenAt tokens pos := hfront pos
    have hfar : (front s x.rest).kind ≠ closer := hstray ▸ hcloser
    obtain ⟨hgoes, hcloses, hreturns⟩ := ends_resume_of_skip hr hfar (htail ▸ hnext) hskip
    rw [hkind, hstray] at hgoes hcloses
    rw [hkind] at hreturns
    exact ⟨j, hstop, fun hin => perform_resume_of_ends (hgoes hin),
      fun hout hat => perform_resume_of_ends (hcloses hout hat),
      fun hout hat => hstays (hreturns hout hat)⟩

end RobotLang
