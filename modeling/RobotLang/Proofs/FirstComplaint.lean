/-
  RobotLang.Proofs.FirstComplaint
  ───────────────────────────────
  **WHAT REPAIRS MAY NOT CHANGE ABOUT READING A PROGRAM.**

  Either grammar can be run with repairs or without.  Without them it stops at
  the first thing wrong.  With them it may go on and find more, but what it
  finds first is the same, and where there is nothing wrong it returns the same
  program (`program_sameFirstComplaint`).

  Both grammars are composed of rules that share their first complaint, so they
  share it too.
-/
import RobotLang.Proofs.Composition
import RobotLang.Proofs.Rule.FirstComplaint

namespace RobotLang

open Rule

/-- Two runs over a braced program share their first complaint. -/
theorem Braced.sharesFirst_program {s : Setting} : SharesFirst Braced.program s :=
  Braced.composes_program composes_sharesFirst

/-- Two runs over a worded program share their first complaint. -/
theorem Worded.sharesFirst_program {s : Setting} : SharesFirst Worded.program s :=
  Worded.composes_program composesRepairs_sharesFirst

/-- What a run without repairs and one with them have in common. -/
structure Outcome.SameFirstComplaint {α : Type} (strict repairing : Outcome α) : Prop where
  /-- Without repairs there is at most one complaint. -/
  atMostOne : strict.complaints.length ≤ 1
  /-- Without repairs there is a result exactly when there is no complaint. -/
  result_iff : strict.result.isSome ↔ strict.complaints = []
  /-- The two runs find something wrong in the same inputs. -/
  quiet_iff : repairing.complaints = [] ↔ strict.complaints = []
  /-- Where nothing is wrong they have the same result. -/
  sameResult : strict.complaints = [] → repairing.result = strict.result
  /-- Otherwise they start with the same complaint. -/
  sameFirst : strict.complaints ≠ [] → repairing.complaints.head? = strict.complaints.head?

theorem Outcome.CutOff.sameFirstComplaint {α : Type} {strict repairing : Outcome α}
    (h : strict.CutOff repairing) : strict.SameFirstComplaint repairing := by
  cases h with
  | quiet a rest =>
    exact ⟨Nat.zero_le 1, by simp, Iff.rfl, fun _ => rfl, fun hne => absurd rfl hne⟩
  | first rest hd =>
    refine ⟨Nat.le_refl 1, by simp, ?_, fun hnil => absurd hnil (List.cons_ne_nil _ _),
      fun _ => hd⟩
    constructor
    · intro hnil
      rw [hnil] at hd
      exact absurd hd (by simp)
    · intro hnil
      exact absurd hnil (List.cons_ne_nil _ _)

/-- In either dialect and on any tokens, reading a program without repairs makes
at most one complaint, and reading it with repairs makes the same complaint
first.  If there is none, both return the same program. -/
theorem program_sameFirstComplaint (label : Kind → String) (sensorParens : Bool)
    (tokens : List Token) :
    (Braced.program.run label false sensorParens tokens).SameFirstComplaint
        (Braced.program.run label true sensorParens tokens)
      ∧ (Worded.program.run label false sensorParens tokens).SameFirstComplaint
        (Worded.program.run label true sensorParens tokens) :=
  ⟨(Braced.sharesFirst_program (s := .forTokens label false sensorParens tokens)
      _).sameFirstComplaint,
    (Worded.sharesFirst_program (s := .forTokens label false sensorParens tokens)
      _).sameFirstComplaint⟩

end RobotLang
