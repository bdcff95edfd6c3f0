/-
  RobotLang.Proofs.Listing.Lines
  ──────────────────────────────
  **WHAT THE LINES OF A LISTING SAY.**

  A listing has two kinds of blocks, and this module writes both out as a reader
  sees them:

      ════════════════════════════════════════
       foo                                          a name
       5 instructions                               a count, in decimal
      ════════════════════════════════════════

            ┌──────────────────────────────────     where a jump leads to
      0007 ► JZ          +1 ↓ (→ 0009)              index, instruction, target
      0008   EZ          BAGUNDERFLOW

  Numbers are given by their digits in base ten (`numeral`), and the text of an
  instruction by a table with one row for each opcode (`instruction`), operands
  from the thirteenth column on.  The table takes nothing from how a listing is
  made; that the listing prints it is shown row by row (`opText_eq`).

  Main results:
    * `toString_eq_numeral`, `indexText_eq`: numbers are printed by their digits
    * `opText_eq`: every instruction is printed as its row says
    * `header_eq`, `targetMark_eq`: so are the lines around instructions
-/
import Mathlib.Data.Nat.Digits.Lemmas
import RobotLang.Listing

namespace RobotLang.Listing

/-! ## §1. Numbers. -/

/-- The number by its digits in base ten, units last, with zeros in front of them where there are
fewer than `width`. -/
def numeral (width n : Nat) : String :=
  String.ofList ((Nat.digitsAppend 10 width n).reverse.map Nat.digitChar)

/-- The digits that core prints are those of the number, most significant first.  By induction on
the number: both sides take the last digit off. -/
theorem toDigits_of_pos {n : Nat} (hn : 0 < n) :
    Nat.toDigits 10 n = (Nat.digits 10 n).reverse.map Nat.digitChar := by
  induction n using Nat.strongRecOn with
  | ind n ih =>
    rw [Nat.toDigits_eq_if (by decide)]
    split
    · next hlt =>
      rw [Nat.digits_of_lt 10 n hn.ne' hlt]
      rfl
    · next hge =>
      have hpos : 0 < n / 10 := Nat.div_pos (Nat.le_of_not_lt hge) (by decide)
      rw [ih (n / 10) (Nat.div_lt_self hn (by decide)) hpos, Nat.digits_def' (by decide) hn]
      simp

/-- A number that is filled up to a width is what core prints behind zeros.  Zero has no digits of
its own, and is all filling. -/
theorem numeral_eq {width : Nat} (hwidth : 0 < width) (n : Nat) :
    numeral width n = Text.alignRight width '0' (toString n) := by
  have hlist : (toString n).toList = Nat.toDigits 10 n := by
    rw [Nat.toString_eq_repr, Nat.toList_repr]
  have hlength : (toString n).length = (Nat.toDigits 10 n).length := by
    rw [← String.length_toList, hlist]
  apply String.toList_inj.mp
  unfold numeral Text.alignRight Text.repeatChar Nat.digitsAppend
  rw [String.toList_append, String.toList_ofList, String.toList_ofList, hlist, hlength]
  rcases Nat.eq_zero_or_pos n with rfl | hn
  · rw [Nat.digits_zero, List.nil_append, List.reverse_replicate, List.map_replicate]
    show List.replicate width '0' = List.replicate (width - 1) '0' ++ ['0']
    rw [← List.replicate_succ', Nat.sub_add_cancel hwidth]
  · rw [toDigits_of_pos hn, List.reverse_append, List.map_append, List.reverse_replicate,
      List.map_replicate, List.length_map, List.length_reverse]
    rfl

theorem toString_eq_numeral (n : Nat) : toString n = numeral 1 n := by
  have hpos : 1 - (toString n).length = 0 := by
    have := Nat.length_toDigits_pos (b := 10) (n := n)
    rw [← String.length_toList, Nat.toString_eq_repr, Nat.toList_repr]
    omega
  rw [numeral_eq (by decide), Text.alignRight, hpos]
  exact String.empty_append.symm

/-- Numbers below zero are printed behind a `-`. -/
theorem toString_int_eq_numeral (k : Int) :
    toString k = (if k < 0 then "-" else "") ++ numeral 1 k.natAbs := by
  cases k with
  | ofNat n =>
    have hnonneg : ¬Int.ofNat n < 0 := Int.not_lt.mpr (Int.natCast_nonneg n)
    rw [if_neg hnonneg, String.empty_append, ← toString_eq_numeral]
    rfl
  | negSucc n =>
    rw [if_pos (Int.negSucc_lt_zero n), ← toString_eq_numeral]
    rfl

/-- An index takes four digits, and more only if it has more. -/
theorem indexText_eq (i : Nat) : indexText i = numeral 4 i :=
  (numeral_eq (by decide) i).symm

/-! ## §2. Instructions. -/

/-- What stands behind the mnemonic of a jump at index `i`: how far it goes, which way, and the
index it leads to, which is the start for all that would be before it. -/
def jumpOperand (i : Nat) (offset : Int32) : String :=
  (if offset.toInt < 0 then "-" else "+") ++ numeral 1 offset.toInt.natAbs
    ++ (if offset.toInt < 0 then " ↑" else " ↓")
    ++ " (→ " ++ numeral 4 (i + 1 + offset.toInt).toNat ++ ")"

/-- How the instruction at index `i` reads. -/
def instruction (i : Nat) : Opcode → String
  | .line n => "LINE        " ++ numeral 1 n.toNat
  | .halt => "HALT"
  | .forward => "FORWARD"
  | .left => "LEFT"
  | .pickBuzzer => "PICKBUZZER"
  | .leaveBuzzer => "LEAVEBUZZER"
  | .call target name =>
    "CALL        " ++ "\"" ++ name ++ "\" (→ " ++ numeral 4 target.toNat ++ ")"
  | .ret => "RET"
  | .param n => "PARAM       " ++ numeral 1 n.toNat
  | .load v => "LOAD        " ++ (if v.toInt < 0 then "-" else "") ++ numeral 1 v.toInt.natAbs
  | .dup => "DUP"
  | .pop => "POP"
  | .inc => "INC"
  | .dec => "DEC"
  | .eq => "EQ"
  | .and => "AND"
  | .or => "OR"
  | .not => "NOT"
  | .jmp offset => "JMP         " ++ jumpOperand i offset
  | .jz offset => "JZ          " ++ jumpOperand i offset
  | .ez .wall => "EZ          " ++ "WALL"
  | .ez .worldUnderflow => "EZ          " ++ "WORLDUNDERFLOW"
  | .ez .bagUnderflow => "EZ          " ++ "BAGUNDERFLOW"
  | .worldWalls => "WORLDWALLS"
  | .orientation => "ORIENTATION"
  | .mask => "MASK"
  | .rotl => "ROTL"
  | .rotr => "ROTR"
  | .worldBuzzers => "WORLDBUZZERS"
  | .bagBuzzers => "BAGBUZZERS"

/-- The column of the mnemonic is twelve characters wide, which is more than any mnemonic with
operands has. -/
theorem columns_eq {op : Opcode} (mnemonic : String) {front : String} (hop : op.name = mnemonic)
    (hfront : Text.alignLeft 12 mnemonic = front) (operands : String) :
    columns op operands = front ++ operands := by
  rw [columns, hop, hfront]

/-- The jumps differ in their mnemonic only, and what stands behind it says the same of both. -/
theorem jumpText_eq {op : Opcode} (mnemonic : String) {front : String} (hop : op.name = mnemonic)
    (hfront : Text.alignLeft 12 mnemonic = front) (i : Nat) (offset : Int32) :
    jumpText op i offset = front ++ jumpOperand i offset := by
  unfold jumpText jumpOperand Text.signed jumpTarget
  rw [columns_eq mnemonic hop hfront, indexText_eq, toString_eq_numeral]
  split <;> rfl

/-- Every instruction is printed as its row of the table says.  Where there are operands they stand
behind the twelve columns of the mnemonic. -/
theorem opText_eq (op : Opcode) (i : Nat) : opText op i = instruction i op := by
  cases op with
  | jmp offset => exact jumpText_eq "JMP" rfl (by decide) i offset
  | jz offset => exact jumpText_eq "JZ" rfl (by decide) i offset
  | call target name =>
    calc opText (.call target name) i
        = columns (.call target name)
            ("\"" ++ name ++ "\" (→ " ++ indexText target.toNat ++ ")") := rfl
      _ = "CALL        " ++ ("\"" ++ name ++ "\" (→ " ++ indexText target.toNat ++ ")") :=
          columns_eq "CALL" rfl (by decide) _
      _ = "CALL        " ++ "\"" ++ name ++ "\" (→ " ++ numeral 4 target.toNat ++ ")" := by
          rw [indexText_eq]
          simp only [String.append_assoc]
      _ = instruction i (.call target name) := rfl
  | line n =>
    calc opText (.line n) i
        = columns (.line n) (toString n.toNat) := rfl
      _ = "LINE        " ++ toString n.toNat := columns_eq "LINE" rfl (by decide) _
      _ = instruction i (.line n) := congrArg _ (toString_eq_numeral _)
  | param n =>
    calc opText (.param n) i
        = columns (.param n) (toString n.toNat) := rfl
      _ = "PARAM       " ++ toString n.toNat := columns_eq "PARAM" rfl (by decide) _
      _ = instruction i (.param n) := congrArg _ (toString_eq_numeral _)
  | load v =>
    calc opText (.load v) i
        = columns (.load v) (toString v.toInt) := rfl
      _ = "LOAD        " ++ toString v.toInt := columns_eq "LOAD" rfl (by decide) _
      _ = instruction i (.load v) := by
          rw [toString_int_eq_numeral]
          exact String.append_assoc.symm
  | ez fault =>
    have hcolumns : columns (.ez fault) fault.name = "EZ          " ++ fault.name :=
      columns_eq "EZ" rfl (by decide) _
    cases fault with
    | _ => exact hcolumns
  | _ => rfl

/-- A jump over one instruction, and one back to before the start. -/
example : opText (.jz 1) 7 = "JZ          +1 ↓ (→ 0009)"
    ∧ opText (.jmp (-9)) 2 = "JMP         -9 ↑ (→ 0000)" := by
  decide

/-! ## §3. Lines around instructions. -/

/-- The line above and below the name of a section: forty signs. -/
def rulerLine : String :=
  "════════════════════════════════════════"

/-- The line above an instruction that a jump leads to. -/
def targetLine : String :=
  "      ┌──────────────────────────────────"

/-- A section opens with its name and its size between two rulers. -/
theorem header_eq (name : String) (size : Nat) :
    header name size
      = [rulerLine, " " ++ name, " " ++ numeral 1 size ++ " instructions", rulerLine] := by
  have hruler : ruler = rulerLine := by decide
  rw [header, hruler, toString_eq_numeral]

theorem targetMark_eq : targetMark = targetLine := by
  decide

end RobotLang.Listing
