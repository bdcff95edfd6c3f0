/-
  RobotLang.Proofs.Fragment.Uses
  ──────────────────────────────
  **WHAT THE CODE OF A CONSTRUCT ASKS OF THE REST OF THE PROGRAM.**

  A fragment has calls and parameters that are still names.  Each is a `Use`,
  with the line of the last `LINE` before it.  What is wrong with a program is
  wrong with one of its uses, so reports are lists made from these lists:

      call    variables of the argument, the call         on the line of the name
      cond    variables of the test, then the branches    on the line of the word
      while   variables of the test, then the body        on the line of the word
      times   variables of the count, then the body       on the line of the word

  Every construct states its line before it uses anything, so its uses do not
  depend on the line that it is reached with (`StatesLines`).
-/
import RobotLang.Link
import RobotLang.Proofs.Fragment.Flow

namespace RobotLang

/-! ## §1. Uses. -/

/-- A name that has to be resolved, and the line where it stands. -/
inductive Use where
  | call (name : String) (arity line : Nat)
  | param (name : String) (line : Nat)
  deriving DecidableEq, Repr

/-- What an instruction on that line asks for. -/
def Instr.use? (line : Nat) : Instr → Option Use
  | .op _ => none
  | .call name arity => some (.call name arity line)
  | .param name => some (.param name line)

/-- What a fragment that is reached with that line asks for, in order. -/
def Fragment.uses (line : Nat) : Fragment → List Use
  | [] => []
  | instr :: rest =>
    (instr.use? (lineAfter line instr)).toList ++ Fragment.uses (lineAfter line instr) rest

/-- The use is of that parameter. -/
def Use.isBound (param : Option String) : Use → Bool
  | .call _ _ _ => false
  | .param name _ => param == some name

/-- The line that the code for a token states. -/
def Token.statedLine (t : Token) : Nat :=
  lineAfter 1 (Fragment.lineOf t)

/-- It is the line of the token, if that fits the operand. -/
theorem Token.statedLine_eq {t : Token} (hlo : 1 ≤ t.line) (hhi : t.line ≤ 2 ^ 32) :
    t.statedLine = t.line := by
  have hsize : t.line - 1 < UInt32.size := by
    unfold UInt32.size
    omega
  show (UInt32.ofNat (t.line - 1)).toNat + 1 = t.line
  rw [UInt32.toNat_ofNat_of_lt' hsize]
  omega

/-- The variables of a number, from left to right. -/
def Integer.variables : Integer → List Token
  | .name t => [t]
  | .literal _ _ => []
  | .succ _ _ inner _ => inner.variables
  | .pred _ _ inner _ => inner.variables

/-- The variables of a condition, from left to right. -/
def Condition.variables {level : Level} : Condition level → List Token
  | .conj c => c.variables
  | .or left _ right => left.variables ++ right.variables
  | .lit c => c.variables
  | .and left _ right => left.variables ++ right.variables
  | .plain c => c.variables
  | .not _ c => c.variables
  | .isZero _ _ number _ => number.variables
  | .sensor _ _ => []
  | .sensorCall _ _ _ _ => []
  | .paren _ c _ => c.variables

/-- Variables that are used on that line. -/
def NameCase.uses (case : NameCase) (line : Nat) (names : List Token) : List Use :=
  names.map fun t => .param (case.name t) line

namespace Fragment

/-! ## §2. Parts of a fragment. -/

variable {line : Nat} {f g : Fragment} {case : NameCase}

@[simp] theorem uses_nil : uses line [] = [] := rfl

@[simp] theorem uses_cons_op (op : Opcode) :
    uses line (.op op :: f) = uses (lineAfter line (.op op)) f := rfl

@[simp] theorem uses_cons_call (name : String) (arity : Nat) :
    uses line (.call name arity :: f) = .call name arity line :: uses line f := rfl

@[simp] theorem uses_cons_param (name : String) :
    uses line (.param name :: f) = .param name line :: uses line f := rfl

@[simp] theorem uses_cons_lineOf (t : Token) :
    uses line (lineOf t :: f) = uses t.statedLine f := rfl

/-- The second part is reached with the last line that the first one states, or with the line the
first was reached with if it states none. -/
theorem uses_append : uses line (f ++ g) = uses line f ++ uses (f.foldl lineAfter line) g := by
  induction f generalizing line with
  | nil => rfl
  | cons instr f ih => rw [List.cons_append, uses, uses, ih, List.append_assoc]; rfl

/-- Opcodes have no names in them. -/
@[simp] theorem uses_ofOps (ops : List Opcode) : uses line (ofOps ops) = [] := by
  induction ops generalizing line with
  | nil => rfl
  | cons op ops ih => exact ih

@[simp] theorem foldl_lineAfter_ofSensor (sensor : Sensor) :
    (ofSensor sensor).foldl lineAfter line = line := by
  cases sensor <;> rfl

/-- Expressions do not state lines. -/
@[simp] theorem foldl_lineAfter_ofInteger (n : Integer) :
    (ofInteger case n).foldl lineAfter line = line := by
  induction n with
  | name t => rfl
  | literal t value => rfl
  | succ keyword left inner right ih => simp [ofInteger, lineAfter, ih]
  | pred keyword left inner right ih => simp [ofInteger, lineAfter, ih]

@[simp] theorem foldl_lineAfter_ofCondition {level : RobotLang.Level} (c : Condition level) :
    (ofCondition case c).foldl lineAfter line = line := by
  induction c with
  | conj c ih | lit c ih | plain c ih => exact ih
  | or left operator right ihl ihr | and left operator right ihl ihr =>
    simp [ofCondition, lineAfter, ihl, ihr]
  | not operator c ih => simp [ofCondition, lineAfter, ih]
  | isZero keyword left number right => simp [ofCondition, lineAfter]
  | sensor sensor keyword => exact foldl_lineAfter_ofSensor sensor
  | sensorCall sensor keyword left right => exact foldl_lineAfter_ofSensor sensor
  | paren left c right ih => exact ih

/-- A number uses its variables, from left to right and on the line around it. -/
theorem uses_ofInteger (n : Integer) :
    uses line (ofInteger case n) = case.uses line n.variables := by
  induction n with
  | name t => rfl
  | literal t value => rfl
  | succ keyword left inner right ih => simp [ofInteger, uses_append, Integer.variables, ih]
  | pred keyword left inner right ih => simp [ofInteger, uses_append, Integer.variables, ih]

/-- A condition uses its variables in the order in which its code works out the clauses. -/
theorem uses_ofCondition {level : RobotLang.Level} (c : Condition level) :
    uses line (ofCondition case c) = case.uses line c.variables := by
  induction c with
  | conj c ih | lit c ih | plain c ih => exact ih
  | or left operator right ihl ihr | and left operator right ihl ihr =>
    simp [ofCondition, uses_append, Condition.variables, ihl, ihr, NameCase.uses]
  | not operator c ih => simp [ofCondition, uses_append, Condition.variables, ih]
  | isZero keyword left number right =>
    simp [ofCondition, uses_append, Condition.variables, uses_ofInteger]
  | sensor sensor keyword => exact uses_ofOps _
  | sensorCall sensor keyword left right => exact uses_ofOps _
  | paren left c right ih => exact ih

/-! ## §3. Constructs. -/

/-- What the fragment asks for does not depend on the line that it is reached with. -/
def StatesLines (f : Fragment) : Prop :=
  ∀ line, uses line f = uses 1 f

/-- What states its own lines is used alike wherever it stands, so it may be counted from the first
line. -/
theorem uses_append_of_statesLines (hg : StatesLines g) :
    uses line (f ++ g) = uses line f ++ uses 1 g := by
  rw [uses_append, hg]

section Constructs

variable {yes body : Fragment} {no : Option Fragment}

/-- An action uses nothing. -/
@[simp] theorem uses_builtin (action : Builtin) (t : Token) :
    uses line (builtin action t) = [] :=
  uses_ofOps _

/-- A call uses the variables of its argument and then its function, all on the line of its name.
The arity tells whether there is an argument. -/
theorem uses_call (name : String) (t : Token) (argument : Option Integer) :
    uses line (call name t (argument.map (ofInteger case)))
      = case.uses t.statedLine ((argument.map Integer.variables).getD [])
        ++ [.call name (if argument.isSome then 2 else 1) t.statedLine] := by
  cases argument with
  | none => rfl
  | some n => simp [call, uses_append, uses_ofInteger]

/-- The test is on the line of the word; the branches state lines of their own. -/
theorem uses_cond (t : Token) (test : Condition .term) (hyes : StatesLines yes)
    (hno : ∀ f ∈ no, StatesLines f) :
    uses line (cond t (ofCondition case test) yes no)
      = case.uses t.statedLine test.variables ++ uses 1 yes ++ uses 1 (no.getD []) := by
  cases no with
  | none => simp [cond, uses_append, uses_ofCondition, hyes _]
  | some no =>
    have hno : StatesLines no := hno no rfl
    simp [cond, uses_append, uses_ofCondition, hyes _, hno _]

/-- The test is on the line of the word; the body states lines of its own. -/
theorem uses_whileDo (t : Token) (test : Condition .term) (hbody : StatesLines body) :
    uses line (whileDo t (ofCondition case test) body)
      = case.uses t.statedLine test.variables ++ uses 1 body := by
  simp [whileDo, uses_append, uses_ofCondition, hbody _]

/-- The count is on the line of the word; the body states lines of its own. -/
theorem uses_times (t : Token) (count : Integer) (hbody : StatesLines body) :
    uses line (times t (ofInteger case count) body)
      = case.uses t.statedLine count.variables ++ uses 1 body := by
  simp [times, uses_append, uses_ofInteger, hbody _]

end Constructs

/-- Every statement states its line before it uses anything. -/
theorem statementwise_statesLines : Statementwise StatesLines where
  nil _ := rfl
  append hf hg line := by
    rw [uses_append_of_statesLines hg, uses_append_of_statesLines hg, hf]
  builtin action t _ := by rw [uses_builtin, uses_builtin]
  call case name t argument _ := by rw [uses_call, uses_call]
  cond case t test _ _ hyes hno _ := by rw [uses_cond t test hyes hno, uses_cond t test hyes hno]
  whileDo case t test _ hbody _ := by rw [uses_whileDo t test hbody, uses_whileDo t test hbody]
  times case t count _ hbody _ := by rw [uses_times t count hbody, uses_times t count hbody]

/-! ## §4. Functions and the entry. -/

/-- A parameter is used in all but name. -/
theorem uses_map_bindParam (param : Option String) :
    uses line (f.map (bindParam param)) = (uses line f).filter (!·.isBound param) := by
  induction f generalizing line with
  | nil => rfl
  | cons instr f ih =>
    cases instr with
    | op op => simp [bindParam, ih]
    | call name arity => simp [bindParam, ih, Use.isBound]
    | param name =>
      rw [List.map_cons, uses_cons_param, List.filter_cons]
      by_cases h : param = some name
      · rw [bindParam, if_pos h, uses_cons_op, ih, if_neg (by simp [Use.isBound, h])]
        rfl
      · rw [bindParam, if_neg h, uses_cons_param, ih, if_pos (by simp [Use.isBound, h])]

/-- A function uses what its body does, its parameter apart. -/
theorem uses_function (name : Token) (param : Option Token) (hf : StatesLines f) :
    uses line ((Declaration.function case name param f).body.getD [])
      = (uses 1 f).filter (!·.isBound (param.map case.name)) := by
  simp [Declaration.function, uses_append, uses_map_bindParam, hf _]

/-- A function states the line of its name before anything else. -/
theorem statesLines_function (name : Token) (param : Option Token) (hf : StatesLines f) :
    StatesLines ((Declaration.function case name param f).body.getD []) := by
  intro line
  rw [uses_function name param hf, uses_function name param hf]

/-- The entry uses what the main part does: halting uses nothing. -/
theorem uses_entry (closing : Token) (hf : StatesLines f) :
    uses line (entry f closing) = uses 1 f := by
  simp [entry, uses_append, hf _]

end Fragment
end RobotLang
