/-
  RobotLang.Proofs.Unbounded.Expression
  ─────────────────────────────────────
  **NUMBERS AND CONDITIONS NEST AS DEEP AS THEY PLEASE.**

  The shared rules that nest or chain, without their bounds.  What is nested
  in a number or a condition stands behind a token:

      number      `succ (` or `pred (`
      condition   `(`, also behind operators and a `not`

  so the readings return, with what the rules say (`agrees_integer`,
  `agrees_term`).
-/
import RobotLang.Proofs.Unbounded.Agreement

namespace RobotLang.Unbounded

open Rule

/-! ## §1. Readings. -/

/-- A number. -/
def integer : (depth : Nat) → Unbounded Integer
  | 0 => never
  | depth + 1 => do
    match ← peek with
    | .identifier => return .name (← advance)
    | .integerLiteral => literal
    | .succ =>
      return .succ (← advance) (← expect .leftParen) (← integer depth) (← expect .rightParen)
    | .pred =>
      return .pred (← advance) (← expect .leftParen) (← integer depth) (← expect .rightParen)
    | _ => noViable integerFirst

mutual

/-- A condition. -/
def term : (depth : Nat) → Unbounded (Condition .term)
  | 0 => never
  | depth + 1 => do
    let first ← conjunction depth
    disjuncts (.conj first) depth

/-- Further conjunctions behind "or". -/
def disjuncts (a : Condition .term) : (depth : Nat) → Unbounded (Condition .term)
  | 0 => never
  | depth + 1 => do
    match ← eat .or_ with
    | none => return a
    | some token => disjuncts (.or a token (← conjunction depth)) depth

/-- Negations joined by "and". -/
def conjunction : (depth : Nat) → Unbounded (Condition .conjunction)
  | 0 => never
  | depth + 1 => do
    let first ← negation depth
    conjuncts (.lit first) depth

/-- Further negations behind "and". -/
def conjuncts (a : Condition .conjunction) : (depth : Nat) → Unbounded (Condition .conjunction)
  | 0 => never
  | depth + 1 => do
    match ← eat .and_ with
    | none => return a
    | some token => conjuncts (.and a token (← negation depth)) depth

/-- A clause that may be negated. -/
def negation : (depth : Nat) → Unbounded (Condition .literal)
  | 0 => never
  | depth + 1 => do
    match ← eat .not_ with
    | some operator => return .not operator (← clause depth)
    | none => return .plain (← clause depth)

/-- A clause. -/
def clause : (depth : Nat) → Unbounded (Condition .clause)
  | 0 => never
  | depth + 1 => do
    match ← peek with
    | .isZero =>
      return .isZero (← advance) (← expect .leftParen) (← integer depth) (← expect .rightParen)
    | .sensor sensor => sensorClause sensor
    | .leftParen => return .paren (← advance) (← term depth) (← expect .rightParen)
    | _ => noViable clauseFirst

end

/-! ## §2. They return what the rules say. -/

variable {x : Input} {n : Nat}

/-- What is nested in a number stands behind two tokens. -/
theorem agrees_integerStep {inner : Rule Integer} (hinner : AgreesBelow x n integer inner) :
    AgreesBelow x (n + 1) integer (integerStep inner) := by
  have hnested (make : Token → Token → Integer → Token → Integer) :
      AgreesBelow x (n + 1)
        (fun depth => do
          return make (← advance) (← expect .leftParen) (← integer depth) (← expect .rightParen))
        (do return make (← advance) (← expect .leftParen) (← inner) (← expect .rightParen)) :=
    .lift_bind courses_advance fun _ => .expect_bind (by decide) fun _ =>
      hinner.bind fun _ => .lift_bind (courses_expect _) fun _ => .pure _
  refine .of_succ (.peek_bind fun kind ts hts hn _ => ?_)
  cases kind with
  | identifier => exact AgreesBelow.lift_bind courses_advance (fun _ => .pure _) hts hn
  | integerLiteral => exact .lift .nil courses_literal
  | succ => exact hnested .succ hts hn
  | pred => exact hnested .pred hts hn
  | _ => exact .lift .nil (courses_noViable integerFirst)

/-- Numbers of any depth are read as the rule says, since each layer has fewer tokens. -/
theorem agrees_integer : AgreesBelow x n integer Rule.integer :=
  .nested fun _ => agrees_integerStep

section Conditions

variable {inner : Rule (Condition .term)} (hinner : AgreesBelow x n term inner)

include hinner

/-- A condition in parentheses stands behind the left one. -/
theorem agrees_clause : AgreesBelow x (n + 1) clause (Rule.clause inner) := by
  refine .of_succ (.peek_bind fun kind ts hts hn hk => ?_)
  cases kind with
  | isZero =>
    exact AgreesBelow.lift_bind courses_advance (fun _ => .lift_bind (courses_expect _) fun _ =>
      agrees_integer.bind fun _ => .lift_bind (courses_expect _) fun _ => .pure _) hts hn
  | sensor sensor => exact .lift .nil (composes_courses.sensorClause sensor)
  | leftParen =>
    exact .advance_bind hts hn (by rw [hk]; decide) fun _ => hinner.bind fun _ =>
      .lift_bind (courses_expect _) fun _ => .pure _
  | _ => exact .lift .nil (courses_noViable clauseFirst)

theorem agrees_negation : AgreesBelow x (n + 1) negation (Rule.negation inner) := by
  refine .of_succ (.lift_bind (courses_eat .not_) fun found => ?_)
  cases found with
  | some operator => exact (agrees_clause hinner).bind fun _ => .pure _
  | none => exact (agrees_clause hinner).bind fun _ => .pure _

/-- Each further clause stands behind its "and", so the chain comes to an end. -/
theorem agrees_conjunction : AgreesBelow x (n + 1) conjunction (Rule.conjunction inner) :=
  .of_succ ((agrees_negation hinner).bind fun _ =>
    .chain (fun _ _ => rfl) (by decide) (agrees_negation hinner) _)

/-- Each further conjunction stands behind its "or". -/
theorem agrees_termStep : AgreesBelow x (n + 1) term (termStep inner) :=
  .of_succ ((agrees_conjunction hinner).bind fun _ =>
    .chain (fun _ _ => rfl) (by decide) (agrees_conjunction hinner) _)

end Conditions

/-- Conditions of any depth are read as the rule says. -/
theorem agrees_term : AgreesBelow x n term Rule.term :=
  .nested fun _ => agrees_termStep

end RobotLang.Unbounded
