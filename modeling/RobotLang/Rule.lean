/-
  RobotLang.Rule
  ──────────────
  **GRAMMAR RULES AS FUNCTIONS ON TOKENS.**

  A rule reads tokens from the front of a list.  It ends with a node or gives
  up, and in both cases it says what is left of the tokens and which
  complaints it has about those it read:

      Rule α  =  Setting → List Token → Outcome α

  The tokens never hold the end of input; that is part of the setting, and
  stands behind the last token for ever.  Rules in sequence read on from
  where the one before stopped, and their complaints add up in order, so no
  rule can go back or take a complaint back.  A rule that gives up has said
  why.
-/
import RobotLang.Diagnostic

namespace RobotLang

/-! ## §1. Rules and their outcomes. -/

/-- What a rule may depend on besides the tokens. -/
structure Setting where
  /-- How kinds are called in complaints. -/
  label : Kind → String
  /-- Whether missing and stray tokens are repaired. -/
  recovery : Bool
  /-- Whether a sensor may be followed by empty parentheses. -/
  sensorParens : Bool
  /-- The end of input. -/
  stop : Token

/-- How a rule ends. -/
structure Outcome (α : Type) where
  /-- What the rule read; `none` when it gave up. -/
  result : Option α
  /-- The tokens it left. -/
  rest : List Token
  /-- Its complaints, in order. -/
  complaints : List Diagnostic

/-- A grammar rule. -/
def Rule (α : Type) : Type :=
  Setting → List Token → Outcome α

namespace Rule

variable {α β : Type}

/-- Reads nothing. -/
def done (a : α) : Rule α := fun _ ts =>
  ⟨some a, ts, []⟩

/-- Reads on with `next` unless `first` gave up. -/
def andThen (first : Rule α) (next : α → Rule β) : Rule β := fun setting ts =>
  let o := first setting ts
  match o.result with
  | none => ⟨none, o.rest, o.complaints⟩
  | some a =>
    let o' := next a setting o.rest
    ⟨o'.result, o'.rest, o.complaints ++ o'.complaints⟩

instance : Monad Rule where
  pure := done
  bind := andThen

/-- Gives up. -/
def giveUp : Rule α := fun _ ts =>
  ⟨none, ts, []⟩

/-- Complains and goes on. -/
def complain (complaint : Diagnostic) : Rule Unit := fun _ ts =>
  ⟨some (), ts, [complaint]⟩

/-- The setting. -/
def setting : Rule Setting := fun setting ts =>
  ⟨some setting, ts, []⟩

/-! ## §2. Looking at tokens and taking them. -/

/-- The token at the front; behind the last one stands the end of input. -/
def front (setting : Setting) (ts : List Token) : Token :=
  ts.headD setting.stop

/-- The token at hand. -/
def current : Rule Token := fun setting ts =>
  ⟨some (front setting ts), ts, []⟩

/-- The kind of the token at hand. -/
def peek : Rule Kind := fun setting ts =>
  ⟨some (front setting ts).kind, ts, []⟩

/-- The kind of the token `n` places ahead. -/
def peekNth (n : Nat) : Rule Kind := fun setting ts =>
  ⟨some (front setting (ts.drop n)).kind, ts, []⟩

/-- Takes the token at hand.  The end of input is there to take again. -/
def advance : Rule Token := fun setting ts =>
  ⟨some (front setting ts), ts.tail, []⟩

/-- Takes the token at hand if it is of the wanted kind. -/
def eat (kind : Kind) : Rule (Option Token) := fun setting ts =>
  if (front setting ts).kind = kind then ⟨some (some (front setting ts)), ts.tail, []⟩
  else ⟨some none, ts, []⟩

/-- Whether the token at hand is of that kind. -/
def isAt (kind : Kind) : Rule Bool := do
  return (← peek) == kind

/-- Whether the token at hand is of one of those kinds. -/
def isAtAny (kinds : List Kind) : Rule Bool := do
  return kinds.contains (← peek)

/-- The sensor that the token at hand names. -/
def sensorAhead : Rule (Option Sensor) := do
  match ← peek with
  | .sensor s => return some s
  | _ => return none

/-- Complains that the token at hand is none of `kinds`. -/
def mismatch (kinds : List Kind) : Rule Unit := do
  complain (.mismatch (← current) (kinds.map (← setting).label))

/-- Gives up because nothing that could stand here starts with the token at
hand. -/
def noViable (kinds : List Kind) : Rule α := do
  mismatch kinds
  giveUp

/-- Gives up unless the input ends here. -/
def finish : Rule Unit := do
  unless ← isAt .eof do
    complain (.atToken .expectedEof (← current) (some []))
    giveUp

/-! ## §3. Repetition. -/

/-- Reads items for as long as one starts at hand, at most `bound` of them. -/
def manyUpTo (starts : List Kind) (item : Rule α) : (bound : Nat) → Rule (List α)
  | 0 => pure []
  | bound + 1 => do
    if ← isAtAny starts then
      let a ← item
      let as ← manyUpTo starts item bound
      return a :: as
    else
      return []

/-- Reads items for as long as one starts at hand.  An item takes at least one
token, so there are no more items than tokens. -/
def many (starts : List Kind) (item : Rule α) : Rule (List α) := fun setting ts =>
  manyUpTo starts item ts.length setting ts

/-- Joins further items to `a` for as long as the operator is at hand, at most
`bound` of them. -/
def chainUpTo (operator : Kind) (item : Rule β) (join : α → Token → β → α) :
    (bound : Nat) → α → Rule α
  | 0, a => pure a
  | bound + 1, a => do
    match ← eat operator with
    | none => return a
    | some token => chainUpTo operator item join bound (join a token (← item))

/-- Joins further items to `a` for as long as the operator is at hand.  Each of
them takes at least its operator. -/
def chain (operator : Kind) (item : Rule β) (join : α → Token → β → α) (a : α) : Rule α :=
  fun setting ts => chainUpTo operator item join ts.length a setting ts

/-- The rule that a grammar ties back to itself: `step` builds the rule from
the rule for what is nested in it, and `depth` bounds the nesting. -/
def nestedUpTo (step : Rule α → Rule α) (starts : List Kind) : (depth : Nat) → Rule α
  | 0 => noViable starts
  | depth + 1 => step (nestedUpTo step starts depth)

/-- The rule that a grammar ties back to itself.  Whatever is nested stands
behind at least one token, so it cannot nest deeper than there are tokens. -/
def nested (step : Rule α → Rule α) (starts : List Kind) : Rule α := fun setting ts =>
  nestedUpTo step starts (ts.length + 1) setting ts

end Rule

/-! ## §4. Running a rule. -/

/-- Tokens up to the first end of input. -/
def beforeEnd (tokens : List Token) : List Token :=
  tokens.takeWhile fun t => t.kind != .eof

/-- The end of input of a token list: its own, or else the place past its last
token. -/
def endToken (tokens : List Token) : Token :=
  match tokens.find? (fun t => t.kind == .eof) with
  | some stop => stop
  | none =>
    match tokens.getLast? with
    | some last => last.endAfter
    | none => .endOfInput 1 1 0

/-- The setting for reading `tokens`. -/
def Setting.forTokens (label : Kind → String) (recovery sensorParens : Bool)
    (tokens : List Token) : Setting :=
  ⟨label, recovery, sensorParens, endToken tokens⟩

/-- Reads a whole token list. -/
def Rule.run {α : Type} (rule : Rule α) (label : Kind → String) (recovery sensorParens : Bool)
    (tokens : List Token) : Outcome α :=
  rule (.forTokens label recovery sensorParens tokens) (beforeEnd tokens)

end RobotLang
