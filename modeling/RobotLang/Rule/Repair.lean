/-
  RobotLang.Rule.Repair
  ─────────────────────
  **WANTED TOKENS, AND WHAT IS DONE WHEN THEY ARE NOT THERE.**

  Without recovery a token that is not the wanted one is complained about and
  the rule gives up.  With recovery there are three repairs, and each of them
  leaves its complaint behind:

      a stray token in front of the wanted one is dropped,
      a missing `;` is put in where the token at hand may follow one,
      a list of statements skips ahead to where it can go on or close.
-/
import RobotLang.Rule

namespace RobotLang.Rule

/-- Drops the token at hand if the wanted one comes right after it; gives up
otherwise. -/
def dropBefore (kind : Kind) : Rule Token := fun setting ts =>
  match ts with
  | [] => ⟨none, [], []⟩
  | t :: ts =>
    if setting.recovery && (front setting ts).kind == kind then
      ⟨some (front setting ts), ts.tail, []⟩
    else ⟨none, t :: ts, []⟩

/-- Takes a token of the wanted kind. -/
def expect (kind : Kind) : Rule Token := do
  match ← eat kind with
  | some token => return token
  | none =>
    mismatch [kind]
    dropBefore kind

/-- Takes a `;`, or puts one in when the token at hand is one of `follow`. -/
def expectTerminator (follow : List Kind) : Rule Token := do
  match ← eat .semicolon with
  | some token => return token
  | none =>
    mismatch [.semicolon]
    let s ← setting
    if s.recovery && (← isAtAny follow) then
      return (← current).insertedBefore .semicolon (s.label .semicolon)
    else
      dropBefore .semicolon

/-- The tokens from the first one whose kind is among `kinds`. -/
def skipTo (kinds : List Kind) (ts : List Token) : List Token :=
  ts.dropWhile fun t => !kinds.contains t.kind

/-- Where a list that stopped short of its `closer` goes on: skips to the first
token that is one of `first`, the `closer` or one of `resync`.  At one of the
`first` the list goes on (`true`), at the `closer` it ends, and both times the
token it had stopped at is complained about.  In front of anything else the
skip is taken back.  Nothing is skipped when the `closer` is at hand, or when
dropping one token reaches it. -/
def resume (first : List Kind) (closer : Kind) (resync : List Kind) : Rule Bool :=
  fun setting ts =>
    if !setting.recovery || (front setting ts).kind == closer
        || (front setting ts.tail).kind == closer then
      ⟨some false, ts, []⟩
    else
      let ahead := skipTo (closer :: first ++ resync) ts
      let complaint := Diagnostic.mismatch (front setting ts) [setting.label closer]
      if first.contains (front setting ahead).kind then ⟨some true, ahead, [complaint]⟩
      else if (front setting ahead).kind == closer then ⟨some false, ahead, [complaint]⟩
      else ⟨some false, ts, []⟩

variable {α : Type}

/-- Reads items up to the `closer`, resuming after garbage, in at most `bound`
steps. -/
def listUpTo (first : List Kind) (closer : Kind) (resync : List Kind) (item : Rule α) :
    (bound : Nat) → Rule (List α)
  | 0 => pure []
  | bound + 1 => do
    if ← isAtAny first then
      let a ← item
      let as ← listUpTo first closer resync item bound
      return a :: as
    else if ← resume first closer resync then
      listUpTo first closer resync item bound
    else
      return []

/-- Reads items up to the `closer`, resuming after garbage.  Every item and
every skip takes at least one token. -/
def list (first : List Kind) (closer : Kind) (resync : List Kind) (item : Rule α) :
    Rule (List α) := fun setting ts =>
  listUpTo first closer resync item ts.length setting ts

end RobotLang.Rule
