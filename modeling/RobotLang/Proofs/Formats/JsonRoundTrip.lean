/-
  RobotLang.Proofs.Formats.JsonRoundTrip
  ──────────────────────────────────────
  **THE JSON FORM OF A PROGRAM IS THE ONLY ONE.**

  A program is read back from the value it is written as.  A name may be
  given as an object too, and apart from that nothing else is read: a value
  without objects in it gives a program only if it is what the program is
  written as.

      toExecutable v = p   ↔   v = ofExecutable p        v without objects

  `IsProgram` says what such values look like: arrays of a mnemonic's name
  and one value for each type of its signature, integers in the range of the
  type and names of faults as strings.
-/
import Mathlib.Algebra.Order.Ring.Int
import Mathlib.Data.List.Forall2
import RobotLang.Proofs.Formats.Operands
import RobotLang.Wire

namespace RobotLang

/-- There is no object in the value. -/
inductive Json.ObjectFree : Json → Prop where
  | null : ObjectFree .null
  | bool (b : Bool) : ObjectFree (.bool b)
  | int (n : Int) : ObjectFree (.int n)
  | real (text : String) : ObjectFree (.real text)
  | str (s : String) : ObjectFree (.str s)
  | arr (elements : List Json) (h : ∀ v ∈ elements, ObjectFree v) : ObjectFree (.arr elements)

namespace Wire

/-! ## §1. Operands. -/

theorem map_eq_ok_iff {α β : Type} {e : Except Error α} {f : α → β} {b : β} :
    e.map f = .ok b ↔ ∃ a, e = .ok a ∧ f a = b := by
  cases e <;> simp [Except.map]

theorem readInt_eq_ok_iff {lo hi n : Int} {v : Json} :
    readInt lo hi v = .ok n ↔ v = .int n ∧ lo ≤ n ∧ n ≤ hi := by
  cases v with
  | int k =>
    unfold readInt
    by_cases hk : lo ≤ k ∧ k ≤ hi
    · simp only [if_pos hk, Except.ok.injEq, Json.int.injEq]
      constructor
      · intro h
        exact ⟨h, h ▸ hk⟩
      · intro h
        exact h.1
    · simp only [if_neg hk, reduceCtorEq, Json.int.injEq, false_iff, not_and]
      intro h
      subst h
      omega
  | _ => simp [readInt]

/-- An integer type is read from the integers of its range, each of which is one of its values. -/
theorem map_readInt_eq_ok_iff {β : Type} {lo hi : Int} {ofInt : Int → β} (toInt : β → Int)
    (hto : ∀ n, lo ≤ n → n ≤ hi → toInt (ofInt n) = n) (hof : ∀ b, ofInt (toInt b) = b)
    (hrange : ∀ b, lo ≤ toInt b ∧ toInt b ≤ hi) {v : Json} {b : β} :
    (readInt lo hi v).map ofInt = .ok b ↔ v = .int (toInt b) := by
  rw [map_eq_ok_iff]
  constructor
  · intro ⟨n, hn, hb⟩
    obtain ⟨hv, hlow, hhigh⟩ := readInt_eq_ok_iff.mp hn
    rw [hv, ← hb, hto n hlow hhigh]
  · intro hv
    exact ⟨toInt b, readInt_eq_ok_iff.mpr ⟨hv, hrange b⟩, hof b⟩

theorem readString_eq_ok_iff {v : Json} {s : String} : readString v = .ok s ↔ v = .str s := by
  cases v <;> simp [readString]

/-- A name that is no object is a string. -/
theorem readName_eq_ok_iff {v : Json} (hv : v.ObjectFree) {f : Fault} :
    readName Fault.ofName? v = .ok f ↔ v = .str f.name := by
  cases hv with
  | str s =>
    constructor
    · intro h
      have hfound : Fault.ofName? s = some f := by
        simp only [readName] at h
        split at h <;> simp_all
      rw [Fault.name_of_ofName? hfound]
    · intro h
      rw [h]
      simp [readName]
  | _ => simp [readName]

/-- An operand is read from what it is written as, and from no other value without objects.  Within
its bounds, a type of integers is in bijection with the numbers that stand for it. -/
theorem readOperand_eq_ok_iff {t : OperandType} {a : t.Value} {v : Json} (hv : v.ObjectFree) :
    readOperand t v = .ok a ↔ v = ofOperand (t.operand a) := by
  -- the four types of integers differ in bounds and conversions only
  cases t with
  | natural =>
    refine map_readInt_eq_ok_iff (fun n : UInt32 => (n.toNat : Int)) ?_ ?_ ?_
    · intro n hlow hhigh
      have hsmall : n.toNat < UInt32.size := show n.toNat < 4294967296 by omega
      rw [UInt32.toNat_ofNat_of_lt' hsmall]
      omega
    · intro n
      simp
    · intro n
      have := UInt32.toNat_lt n
      omega
  | target =>
    refine map_readInt_eq_ok_iff (fun n : UInt64 => (n.toNat : Int)) ?_ ?_ ?_
    · intro n hlow hhigh
      have hsmall : n.toNat < UInt64.size := show n.toNat < 18446744073709551616 by omega
      rw [UInt64.toNat_ofNat_of_lt' hsmall]
      omega
    · intro n
      simp
    · intro n
      have := UInt64.toNat_lt n
      omega
  | offset =>
    refine map_readInt_eq_ok_iff Int32.toInt ?_ Int32.ofInt_toInt ?_
    · intro n hlow hhigh
      exact Int32.toInt_ofInt_of_le hlow (by omega)
    · intro k
      have := Int32.le_toInt k
      have := Int32.toInt_lt k
      omega
  | number =>
    refine map_readInt_eq_ok_iff Int64.toInt ?_ Int64.ofInt_toInt ?_
    · intro n hlow hhigh
      exact Int64.toInt_ofInt_of_le hlow (by omega)
    · intro k
      have := Int64.le_toInt k
      have := Int64.toInt_lt k
      omega
  | text => exact readString_eq_ok_iff
  | fault => exact readName_eq_ok_iff hv

theorem objectFree_ofOperand (operand : Operand) : (ofOperand operand).ObjectFree := by
  cases operand with
  | natural | offset | number | target => exact .int _
  | text | fault => exact .str _

/-! ## §2. Opcodes. -/

/-- What reads one element and goes on ends with what it makes of that element and the others. -/
theorem next_bind_eq_ok {α β : Type} {read : Json → Except Error α} {f : α → Elements β}
    {elements rest : List Json} {b : β} (h : (next read >>= f) elements = .ok (b, rest)) :
    ∃ v more a, elements = v :: more ∧ read v = .ok a ∧ f a more = .ok (b, rest) := by
  cases elements with
  | nil => cases h
  | cons v more =>
    change ((read v).map fun a => (a, more)) >>= (fun p => f p.1 p.2) = .ok (b, rest) at h
    cases hread : read v with
    | error e =>
      rw [hread] at h
      cases h
    | ok a =>
      rw [hread] at h
      exact ⟨v, more, a, rfl, hread, h⟩

theorem next_bind_cons {α β : Type} {read : Json → Except Error α} {f : α → Elements β} {v : Json}
    {a : α} (h : read v = .ok a) (more : List Json) : (next read >>= f) (v :: more) = f a more := by
  show ((read v).map fun a => (a, more)) >>= (fun p => f p.1 p.2) = f a more
  rw [h]
  rfl

/-- The operands of an opcode are read from what they are written as. -/
theorem readOpcode_operands (op : Opcode) (rest : List Json) :
    op.mnemonic.readOpcode (fun t => next (readOperand t)) (op.operands.map ofOperand ++ rest) =
      .ok (op, rest) := by
  refine op.readOpcode_induction (fun t => next (readOperand t))
    (R := fun x operands a => ∀ rest, x (operands.map ofOperand ++ rest) = .ok (a, rest))
    ?_ ?_ ?_ rest
  · intro α a rest
    rfl
  · intro α β x f front more a b hx hf rest
    show (x ((front ++ more).map ofOperand ++ rest) >>= fun p => f p.1 p.2) = .ok (b, rest)
    rw [List.map_append, List.append_assoc, hx]
    exact hf rest
  · intro t a _ rest
    have h := (readOperand_eq_ok_iff (objectFree_ofOperand (t.operand a))).mpr rfl
    show (readOperand t (ofOperand (t.operand a))).map (fun a => (a, rest)) = .ok (a, rest)
    rw [h]
    rfl

/-- Whatever a mnemonic's operands are read from is what they are written as.  A mnemonic has no
operand, one, or two; those without any read nothing. -/
theorem eq_of_readOpcode {mnemonic : Mnemonic} {elements rest : List Json} {op : Opcode}
    (hfree : ∀ v ∈ elements, v.ObjectFree)
    (h : mnemonic.readOpcode (fun t => next (readOperand t)) elements = .ok (op, rest)) :
    op.mnemonic = mnemonic ∧ elements = op.operands.map ofOperand ++ rest := by
  cases mnemonic with
  | line | param | load | jmp | jz | ez =>
    obtain ⟨v, more, a, rfl, hv, h⟩ := next_bind_eq_ok h
    rw [(readOperand_eq_ok_iff (hfree v (.head _))).mp hv]
    cases h
    exact ⟨rfl, rfl⟩
  | call =>
    obtain ⟨v, more, target, rfl, hv, h⟩ := next_bind_eq_ok h
    obtain ⟨w, more, name, rfl, hw, h⟩ := next_bind_eq_ok h
    rw [(readOperand_eq_ok_iff (hfree v (.head _))).mp hv,
      (readOperand_eq_ok_iff (hfree w (.tail _ (.head _)))).mp hw]
    cases h
    exact ⟨rfl, rfl⟩
  | _ =>
    cases h
    exact ⟨rfl, rfl⟩

theorem readAll_eq_ok_iff {α : Type} {read : Elements α} {elements : List Json} {a : α} :
    readAll read elements = .ok a ↔ read elements = .ok (a, []) := by
  unfold readAll
  split <;> simp_all

/-- An opcode is read from its mnemonic if the operands are read from all that follows. -/
theorem toOpcode_of_readOpcode {mnemonic : Mnemonic} {operands : List Json} {op : Opcode}
    (h : mnemonic.readOpcode (fun t => next (readOperand t)) operands = .ok (op, [])) :
    toOpcode (.arr (.str mnemonic.name :: operands)) = .ok op := by
  apply readAll_eq_ok_iff.mpr
  unfold opcodeElements
  rw [next_bind_cons (readString_eq_ok_iff.mpr rfl), Mnemonic.ofName?_name]
  exact h

/-- An opcode is read from what it is written as, and from no other value without objects.  The name
in front decides which operands are wanted, and nothing may be left over. -/
theorem toOpcode_eq_ok_iff {v : Json} (hv : v.ObjectFree) {op : Opcode} :
    toOpcode v = .ok op ↔ v = ofOpcode op := by
  constructor
  · intro h
    cases hv with
    | arr elements hfree =>
      have h := readAll_eq_ok_iff.mp h
      obtain ⟨v, more, name, rfl, hname, h⟩ := next_bind_eq_ok h
      -- the name decides which operands are wanted
      cases hfound : Mnemonic.ofName? name with
      | none =>
        rw [hfound] at h
        cases h
      | some mnemonic =>
        rw [hfound] at h
        obtain ⟨hmnemonic, hmore⟩ := eq_of_readOpcode (fun v hv => hfree v (.tail _ hv)) h
        have hspelled : op.name = name := by
          unfold Opcode.name
          rw [hmnemonic, Mnemonic.name_of_ofName? hfound]
        rw [readString_eq_ok_iff.mp hname, hmore, List.append_nil, ← hspelled]
        rfl
    | _ => cases h
  · intro h
    rw [h]
    have hoperands := readOpcode_operands op []
    rw [List.append_nil] at hoperands
    exact toOpcode_of_readOpcode hoperands

theorem objectFree_ofOpcode (op : Opcode) : (ofOpcode op).ObjectFree := by
  apply Json.ObjectFree.arr
  intro v hv
  simp only [List.mem_cons, List.mem_map] at hv
  obtain rfl | ⟨operand, _, rfl⟩ := hv
  · exact .str _
  · exact objectFree_ofOperand operand

/-! ## §3. Programs. -/

/-- A list is read element by element. -/
theorem mapM_eq_ok_iff {α : Type} {read : Json → Except Error α} {elements : List Json}
    {values : List α} :
    elements.mapM read = .ok values ↔ List.Forall₂ (fun v a => read v = .ok a) elements values := by
  induction elements generalizing values with
  | nil =>
    rw [List.mapM_nil, List.forall₂_nil_left_iff]
    show Except.ok [] = Except.ok values ↔ _
    rw [Except.ok.injEq, eq_comm]
  | cons v more ih =>
    rw [List.mapM_cons, List.forall₂_cons_left_iff]
    cases hv : read v with
    | error e => simp [bind, Except.bind]
    | ok a =>
      simp only [bind, Except.bind, Except.ok.injEq]
      cases hmore : more.mapM read with
      | error e => simp [← ih, hmore]
      | ok as => simp [← ih, hmore, pure, Except.pure, eq_comm]

/-- A program is read from what it is written as, and from no other value without objects. -/
theorem toExecutable_eq_ok_iff {v : Json} (hv : v.ObjectFree) {ops : Executable} :
    toExecutable v = .ok ops ↔ v = ofExecutable ops := by
  cases hv with
  | arr elements hfree =>
    show elements.mapM toOpcode = .ok ops ↔ Json.arr elements = .arr (ops.map ofOpcode)
    rw [mapM_eq_ok_iff, Json.arr.injEq]
    constructor
    · intro h
      have hwritten : List.Forall₂ (fun v op => v = ofOpcode op) elements ops :=
        ((List.forall₂_and_left _ _).mpr ⟨hfree, h⟩).imp
          fun _ _ h => (toOpcode_eq_ok_iff h.1).mp h.2
      rwa [← List.forall₂_map_right_iff, List.forall₂_eq_eq_eq] at hwritten
    · intro h
      rw [h, List.forall₂_map_left_iff, List.forall₂_same]
      intro op _
      exact (toOpcode_eq_ok_iff (objectFree_ofOpcode op)).mpr rfl
  | _ => simp [toExecutable, readList, ofExecutable]

theorem objectFree_ofExecutable (ops : Executable) : (ofExecutable ops).ObjectFree := by
  apply Json.ObjectFree.arr
  intro v hv
  obtain ⟨op, _, rfl⟩ := List.mem_map.mp hv
  exact objectFree_ofOpcode op

/-! ## §4. What programs look like. -/

/-- The value is one of that type. -/
def Fits : OperandType → Json → Prop
  | .natural, .int n => 0 ≤ n ∧ n < 2 ^ 32
  | .offset, .int n => -2 ^ 31 ≤ n ∧ n < 2 ^ 31
  | .number, .int n => -2 ^ 63 ≤ n ∧ n < 2 ^ 63
  | .target, .int n => 0 ≤ n ∧ n < 2 ^ 64
  | .text, .str _ => True
  | .fault, .str s => s ∈ Fault.all.map Fault.name
  | _, _ => False

/-- An array of a mnemonic and exactly its operands. -/
def IsOpcode (v : Json) : Prop :=
  ∃ (mnemonic : Mnemonic) (operands : List Json),
    v = .arr (.str mnemonic.name :: operands) ∧ List.Forall₂ Fits mnemonic.signature operands

/-- An array of opcodes. -/
def IsProgram (v : Json) : Prop :=
  ∃ elements, v = .arr elements ∧ ∀ e ∈ elements, IsOpcode e

theorem exists_readOperand {t : OperandType} {v : Json} (h : Fits t v) :
    ∃ a, readOperand t v = .ok a := by
  unfold Fits at h
  split at h
  case h_1 n | h_2 n | h_3 n | h_4 n =>
    exact ⟨_, map_eq_ok_iff.mpr ⟨n, readInt_eq_ok_iff.mpr ⟨rfl, by omega⟩, rfl⟩⟩
  case h_5 s => exact ⟨s, rfl⟩
  case h_6 s =>
    obtain ⟨fault, _, rfl⟩ := List.mem_map.mp h
    exact ⟨fault, (readName_eq_ok_iff (.str _)).mpr rfl⟩
  case h_7 => exact h.elim

theorem fits_ofOperand (t : OperandType) (a : t.Value) : Fits t (ofOperand (t.operand a)) := by
  cases t with
  | natural => exact ⟨by omega, Int.ofNat_lt.mpr (UInt32.toNat_lt a)⟩
  | target => exact ⟨by omega, Int.ofNat_lt.mpr (UInt64.toNat_lt a)⟩
  | offset => exact ⟨Int32.le_toInt a, Int32.toInt_lt a⟩
  | number => exact ⟨Int64.le_toInt a, Int64.toInt_lt a⟩
  | text => trivial
  | fault => exact List.mem_map_of_mem (Fault.mem_all a)

theorem isOpcode_ofOpcode (op : Opcode) : IsOpcode (ofOpcode op) := by
  refine ⟨op.mnemonic, op.operands.map ofOperand, rfl, ?_⟩
  cases op with
  | line n | param n => exact .cons (fits_ofOperand .natural n) .nil
  | load v => exact .cons (fits_ofOperand .number v) .nil
  | jmp k | jz k => exact .cons (fits_ofOperand .offset k) .nil
  | ez f => exact .cons (fits_ofOperand .fault f) .nil
  | call target name =>
    exact .cons (fits_ofOperand .target target) (.cons (fits_ofOperand .text name) .nil)
  | _ => exact .nil

/-- Operands that fit the signature are all read. -/
theorem exists_readOpcode {mnemonic : Mnemonic} {operands : List Json}
    (h : List.Forall₂ Fits mnemonic.signature operands) :
    ∃ op, mnemonic.readOpcode (fun t => next (readOperand t)) operands = .ok (op, []) := by
  cases mnemonic with
  | line | param | load | jmp | jz | ez =>
    obtain ⟨v, more, hv, hmore, rfl⟩ := List.forall₂_cons_left_iff.mp h
    obtain rfl := List.forall₂_nil_left_iff.mp hmore
    obtain ⟨a, ha⟩ := exists_readOperand hv
    exact ⟨_, next_bind_cons ha []⟩
  | call =>
    obtain ⟨v, more, hv, hmore, rfl⟩ := List.forall₂_cons_left_iff.mp h
    obtain ⟨w, none, hw, hnone, rfl⟩ := List.forall₂_cons_left_iff.mp hmore
    obtain rfl := List.forall₂_nil_left_iff.mp hnone
    obtain ⟨target, htarget⟩ := exists_readOperand hv
    obtain ⟨name, hname⟩ := exists_readOperand hw
    exact ⟨_, (next_bind_cons htarget [w]).trans (next_bind_cons hname [])⟩
  | _ =>
    obtain rfl := List.forall₂_nil_left_iff.mp h
    exact ⟨_, rfl⟩

/-- What looks like a program is read as one. -/
theorem exists_toExecutable {v : Json} (h : IsProgram v) : ∃ ops, toExecutable v = .ok ops := by
  obtain ⟨elements, rfl, hall⟩ := h
  show ∃ ops, elements.mapM toOpcode = .ok ops
  simp only [mapM_eq_ok_iff]
  induction elements with
  | nil => exact ⟨[], .nil⟩
  | cons e more ih =>
    obtain ⟨mnemonic, operands, rfl, hoperands⟩ := hall e (.head _)
    obtain ⟨op, hop⟩ := exists_readOpcode hoperands
    obtain ⟨ops, hops⟩ := ih fun e he => hall e (.tail _ he)
    exact ⟨op :: ops, .cons (toOpcode_of_readOpcode hop) hops⟩

theorem isProgram_ofExecutable (ops : Executable) : IsProgram (ofExecutable ops) := by
  refine ⟨ops.map ofOpcode, rfl, ?_⟩
  intro e he
  obtain ⟨op, _, rfl⟩ := List.mem_map.mp he
  exact isOpcode_ofOpcode op

/-- A program is read back from its JSON form; of the values without objects nothing else is read
as it, and those that are read as some program are the ones that look like one. -/
theorem toExecutable_exact (ops : Executable) :
    toExecutable (ofExecutable ops) = .ok ops ∧
      ∀ v : Json, v.ObjectFree →
        (toExecutable v = .ok ops ↔ v = ofExecutable ops) ∧
          ((∃ read, toExecutable v = .ok read) ↔ IsProgram v) := by
  constructor
  · exact (toExecutable_eq_ok_iff (objectFree_ofExecutable ops)).mpr rfl
  · intro v hv
    refine ⟨toExecutable_eq_ok_iff hv, ?_, exists_toExecutable⟩
    intro ⟨read, hread⟩
    rw [(toExecutable_eq_ok_iff hv).mp hread]
    exact isProgram_ofExecutable read

/-- A call and a stop for a fault are read from their arrays, and `HALT` with an operand is not. -/
theorem toExecutable_exact_call :
    toExecutable (.arr [.arr [.str "CALL", .int 3, .str "f"], .arr [.str "EZ", .str "WALL"]]) =
        .ok [.call 3 "f", .ez .wall] ∧
      toExecutable (.arr [.arr [.str "HALT", .int 1]]) ≠ .ok [.halt] := by
  have hcall := toExecutable_exact [.call 3 "f", .ez .wall]
  have hhalt := (toExecutable_exact [.halt]).2 (.arr [.arr [.str "HALT", .int 1]])
    (.arr _ (by simpa using .arr _ (by simpa using ⟨.str _, .int _⟩)))
  refine ⟨hcall.1, ?_⟩
  intro h
  cases hhalt.1.mp h

end Wire
end RobotLang
