/-
  RobotLang.Rule.Expression
  ─────────────────────────
  **THE RULES BOTH DIALECTS SHARE.**

      parameter    :=  '(' name? ')'
      integer      :=  name | literal | ('succ' | 'pred') '(' integer ')'
      term         :=  conjunction ('or' conjunction)*
      conjunction  :=  negation ('and' negation)*
      negation     :=  'not'? clause
      clause       :=  'iszero' '(' integer ')' | sensor ('(' ')')? | '(' term ')'

  The parentheses after a sensor are only allowed where the setting says so.
  A literal is decimal digits, perhaps with a sign before them, and stands for a
  number of 64 bits.  One that does not is complained about after it was taken.
-/
import RobotLang.Expression
import RobotLang.Rule.Repair
import RobotLang.Text

namespace RobotLang.Rule

/-! ## §1. Numbers. -/

/-- The value of a run of decimal digits. -/
def decimalValue (digits : List Char) : Nat :=
  digits.foldl (fun value c => 10 * value + (c.toNat - '0'.toNat)) 0

/-- The text behind a sign, or all of it where there is none. -/
def unsigned : List Char → List Char
  | '-' :: digits | '+' :: digits => digits
  | digits => digits

/-- The number that a text of decimal digits stands for, with or without a sign. -/
def numeral? (text : List Char) : Option Int :=
  let digits := unsigned text
  if !digits.isEmpty && digits.all Text.isDigit then
    some (if text.head? = some '-' then -(decimalValue digits : Int) else decimalValue digits)
  else none

/-- The number that a literal stands for, if 64 bits can hold it. -/
def literalValue? (image : String) : Option Int64 :=
  (numeral? image.toList).bind fun value =>
    if -0x8000000000000000 ≤ value ∧ value < 0x8000000000000000 then some (Int64.ofInt value)
    else none

/-- The kinds that start a number. -/
def integerFirst : List Kind :=
  [.identifier, .integerLiteral, .succ, .pred]

/-- Takes a literal. -/
def literal : Rule Integer := do
  let token ← advance
  match literalValue? token.image with
  | some value => return .literal token value
  | none =>
    complain (.atToken .parseError token none)
    giveUp

/-- A number, given the rule for a number nested in it. -/
def integerStep (inner : Rule Integer) : Rule Integer := do
  match ← peek with
  | .identifier => return .name (← advance)
  | .integerLiteral => literal
  | .succ =>
    return .succ (← advance) (← expect .leftParen) (← inner) (← expect .rightParen)
  | .pred =>
    return .pred (← advance) (← expect .leftParen) (← inner) (← expect .rightParen)
  | _ => noViable integerFirst

/-- A number. -/
def integer : Rule Integer :=
  nested integerStep integerFirst

/-! ## §2. Conditions. -/

/-- The kinds that start a clause. -/
def clauseFirst : List Kind :=
  .isZero :: Kind.sensors ++ [.leftParen]

/-- A sensor's word and, where they are allowed, its parentheses. -/
def sensorClause (sensor : Sensor) : Rule (Condition .clause) := do
  let keyword ← advance
  if (← setting).sensorParens then
    match ← eat .leftParen with
    | some left => return .sensorCall sensor keyword left (← expect .rightParen)
    | none => return .sensor sensor keyword
  else
    return .sensor sensor keyword

/-- A clause, given the rule for a term in parentheses. -/
def clause (term : Rule (Condition .term)) : Rule (Condition .clause) := do
  match ← peek with
  | .isZero =>
    return .isZero (← advance) (← expect .leftParen) (← integer) (← expect .rightParen)
  | .sensor sensor => sensorClause sensor
  | .leftParen => return .paren (← advance) (← term) (← expect .rightParen)
  | _ => noViable clauseFirst

/-- A clause that may be negated. -/
def negation (term : Rule (Condition .term)) : Rule (Condition .literal) := do
  match ← eat .not_ with
  | some operator => return .not operator (← clause term)
  | none => return .plain (← clause term)

/-- Negations joined by "and". -/
def conjunction (term : Rule (Condition .term)) : Rule (Condition .conjunction) := do
  let first ← negation term
  chain .and_ (negation term) .and (.lit first)

/-- Conjunctions joined by "or", given the rule for a term in parentheses. -/
def termStep (term : Rule (Condition .term)) : Rule (Condition .term) := do
  let first ← conjunction term
  chain .or_ (conjunction term) .or (.conj first)

/-- A condition. -/
def term : Rule (Condition .term) :=
  nested termStep clauseFirst

/-! ## §3. Parameters. -/

/-- What stands in parentheses after the name of a new function. -/
def parameter : Rule Parameter := do
  return ⟨← expect .leftParen, ← eat .identifier, ← expect .rightParen⟩

end RobotLang.Rule
