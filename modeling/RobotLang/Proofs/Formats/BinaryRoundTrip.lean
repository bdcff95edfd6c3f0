/-
  RobotLang.Proofs.Formats.BinaryRoundTrip
  ────────────────────────────────────────
  **PROGRAMS SURVIVE THEIR BYTES.**

  `Takes read bytes a` says that a reader takes exactly `bytes` for `a`: it
  gives `a` back and leaves whatever follows, and on a front part of `bytes`
  it runs into the end.  It passes through sequences, so it holds of numbers,
  texts, operands, opcodes and programs in turn, each from the one before.

      toExecutable (ofExecutable p ++ rest) = p
      toExecutable (a strict front part of ofExecutable p) ends early
-/
import Mathlib.Algebra.Order.Ring.Int
import Mathlib.Tactic.Common
import RobotLang.Binary
import RobotLang.Proofs.Formats.Operands

namespace RobotLang.Binary

/-! ## §1. Taking exactly some bytes. -/

/-- The reader takes exactly these bytes for that value, and no part of them is enough. -/
structure Takes {α : Type} (read : Reader α) (bytes : Bytes) (a : α) : Prop where
  whole : ∀ rest, read (bytes ++ rest) = .ok (a, rest)
  cut : ∀ front more, bytes = front ++ more → more ≠ [] → read front = .error .unexpectedEnd

section

variable {α β : Type} {first : Reader α}

theorem Takes.pure (a : α) : Takes (pure a) [] a where
  whole _ := rfl
  cut _ _ h hmore := absurd (List.nil_eq_append_iff.mp h).2 hmore

/-- Two readers in a row take what the first and then what the second takes.  Bytes that are cut
short are cut inside the first part, where the first reader fails, or behind it, where the second
does. -/
theorem Takes.bind {front more : Bytes} {a : α} {b : β} (hfirst : Takes first front a)
    (next : α → Reader β) (hnext : Takes (next a) more b) :
    Takes (first >>= next) (front ++ more) b where
  whole rest := by
    show (first (front ++ more ++ rest) >>= fun p => next p.1 p.2) = .ok (b, rest)
    rw [List.append_assoc, hfirst.whole]
    exact hnext.whole rest
  cut start missing h hmissing := by
    show (first start >>= fun p => next p.1 p.2) = .error .unexpectedEnd
    -- a cut inside the second part leaves the first one whole
    have hsecond : ∀ mid, start = front ++ mid → more = mid ++ missing →
        (first start >>= fun p => next p.1 p.2) = .error .unexpectedEnd := by
      intro mid hstart hmore
      rw [hstart, hfirst.whole]
      exact hnext.cut mid missing hmore hmissing
    obtain ⟨mid, hstart, hmore⟩ | ⟨mid, hfront, hmore⟩ := List.append_eq_append_iff.mp h
    · exact hsecond mid hstart hmore
    · by_cases hmid : mid = []
      · subst hmid
        apply hsecond []
        · rw [hfront]
          simp
        · rw [hmore]
          simp
      · rw [hfirst.cut start mid hfront hmid]
        rfl

/-- What is made of the value afterwards takes no bytes. -/
theorem Takes.andThen {bytes : Bytes} {a : α} {b : β} (hfirst : Takes first bytes a)
    (next : α → Reader β) (hnext : next a = Pure.pure b) : Takes (first >>= next) bytes b := by
  have h := hfirst.bind next (hnext ▸ Takes.pure b)
  rwa [List.append_nil] at h

theorem Takes.map {bytes : Bytes} {a : α} (hfirst : Takes first bytes a) (f : α → β) :
    Takes (first >>= fun a => Pure.pure (f a)) bytes (f a) :=
  hfirst.andThen _ rfl

end

/-! ## §2. Numbers. -/

/-- A byte is read back as its value. -/
theorem takes_byte (b : UInt8) : Takes byte [b] b.toNat where
  whole _ := rfl
  cut front more h hmore := by
    -- the only front part that is not all of it is empty
    cases front with
    | nil => rfl
    | cons _ front =>
      simp only [List.cons_append, List.cons.injEq, List.nil_eq_append_iff] at h
      exact absurd h.2.2 hmore

/-- A number of seven bits takes one byte. -/
theorem takes_readNatural_of_lt {top bytes n : Nat} (hn : n < 128) (hlast : bytes = 0 → n ≤ top) :
    Takes (readNatural top (bytes + 1)) (naturalBytes (bytes + 1) n) n := by
  have hbyte : (UInt8.ofNat n).toNat = n :=
    UInt8.toNat_ofNat_of_lt' (show n < 256 by omega)
  unfold readNatural naturalBytes
  rw [if_pos hn]
  apply (takes_byte (UInt8.ofNat n)).bind
  rw [hbyte, if_pos hn, if_neg (by omega)]
  exact Takes.pure n

/-- A number below the bound of its width is read back, by induction on the bytes it may take.  Each
byte but the last has the lowest seven bits, with the high bit set. -/
theorem takes_readNatural {top : Nat} (htop : top < 128) (bytes n : Nat)
    (hn : n < 128 ^ bytes * (top + 1)) :
    Takes (readNatural top (bytes + 1)) (naturalBytes (bytes + 1) n) n := by
  induction bytes generalizing n with
  | zero => exact takes_readNatural_of_lt (by omega) (by omega)
  | succ bytes ih =>
    by_cases hsmall : n < 128
    · exact takes_readNatural_of_lt hsmall (by omega)
    · -- the low seven bits with the high bit set, then the rest of the number
      have hbyte : (UInt8.ofNat (n % 128 + 128)).toNat = n % 128 + 128 :=
        UInt8.toNat_ofNat_of_lt' (show n % 128 + 128 < 256 by omega)
      have hrest : n / 128 < 128 ^ bytes * (top + 1) := by
        rw [Nat.div_lt_iff_lt_mul (by omega), Nat.mul_right_comm, ← Nat.pow_succ]
        exact hn
      have hvalue : n % 128 + 128 - 128 + 128 * (n / 128) = n := by omega
      unfold readNatural naturalBytes
      rw [if_neg hsmall]
      apply (takes_byte (UInt8.ofNat (n % 128 + 128))).bind
      rw [hbyte, if_neg (by omega)]
      have h := (ih (n / 128) hrest).map fun high => n % 128 + 128 - 128 + 128 * high
      rwa [hvalue] at h

/-- A number of 32 bits is read back, in as few bytes as it takes. -/
theorem takes_word {n : Nat} (hn : n < 2 ^ 32) : Takes (readNat word) (ofNat word n) n :=
  takes_readNatural (by decide) 4 n hn

theorem takes_long {n : Nat} (hn : n < 2 ^ 64) : Takes (readNat long) (ofNat long n) n :=
  takes_readNatural (by decide) 9 n hn

/-- Signs are folded away and unfolded again. -/
theorem unzigzag_zigzag (n : Int) : unzigzag (zigzag n) = n := by
  unfold unzigzag zigzag
  split <;> split <;> omega

/-- Folding a sign away takes one more bit. -/
theorem zigzag_lt {n : Int} (bound : Nat) (hlow : -(bound : Int) ≤ n) (hhigh : n < bound) :
    zigzag n < 2 * bound := by
  unfold zigzag
  split <;> omega

/-! ## §3. Texts and operands. -/

/-- As many bytes as are asked for are taken, and no more. -/
theorem takes_take (bytes : Bytes) : Takes (take bytes.length) bytes bytes where
  whole rest := by
    unfold take
    simp
  cut front more h hmore := by
    have hlength : ¬ bytes.length ≤ front.length := by
      have := List.length_pos_iff.mpr hmore
      rw [h, List.length_append]
      omega
    unfold take
    rw [if_neg hlength]

/-- A name is valid as the bytes it is written in. -/
theorem fromUTF8?_utf8 (s : String) : String.fromUTF8? ⟨(utf8 s).toArray⟩ = some s := by
  show String.fromUTF8? s.toUTF8 = some s
  unfold String.fromUTF8?
  rw [String.toUTF8_eq_toByteArray, dif_pos s.isValidUTF8]
  rfl

/-- A name is read back from its length and its bytes. -/
theorem takes_readText {s : String} (hs : (utf8 s).length < 2 ^ 64) :
    Takes readText (ofText s) s := by
  unfold readText ofText
  apply (takes_long hs).bind
  apply (takes_take (utf8 s)).andThen
  rw [fromUTF8?_utf8]

/-- An operand is read back; a name has to have a length of 64 bits.  Signed numbers are written as
unsigned ones, in zigzag, and these fit in as many bits. -/
theorem takes_readOperand (t : OperandType) (a : t.Value)
    (hname : ∀ s, t.operand a = .text s → (utf8 s).length < 2 ^ 64) :
    Takes (readOperand t) (ofOperand (t.operand a)) a := by
  cases t with
  | natural =>
    have h := (takes_word (UInt32.toNat_lt a)).map UInt32.ofNat
    rwa [UInt32.ofNat_toNat] at h
  | target =>
    have h := (takes_long (UInt64.toNat_lt a)).map UInt64.ofNat
    rwa [UInt64.ofNat_toNat] at h
  | offset =>
    have hsmall := zigzag_lt (2 ^ 31) (Int32.le_toInt a) (Int32.toInt_lt a)
    have h := (takes_word hsmall).map fun n => Int32.ofInt (unzigzag n)
    rwa [unzigzag_zigzag, Int32.ofInt_toInt] at h
  | number =>
    have hsmall := zigzag_lt (2 ^ 63) (Int64.le_toInt a) (Int64.toInt_lt a)
    have h := (takes_long hsmall).map fun n => Int64.ofInt (unzigzag n)
    rwa [unzigzag_zigzag, Int64.ofInt_toInt] at h
  | text => exact takes_readText (hname a rfl)
  | fault =>
    apply (takes_word (UInt32.toNat_lt a.index)).andThen
    rw [UInt32.ofNat_toNat, Fault.ofIndex?_index]

/-! ## §4. Opcodes and programs. -/

/-- Lengths have 64 bits, as they have wherever a program is held in memory. -/
structure Sized (ops : Executable) : Prop where
  opcodes : ops.length < 2 ^ 64
  names : ∀ op ∈ ops, ∀ s, .text s ∈ op.operands → (utf8 s).length < 2 ^ 64

/-- Every announced part is counted down while it is read. -/
theorem takes_part {α : Type} {read : Reader α} {bytes : Bytes} {a : α} (h : Takes read bytes a)
    (left : Nat) : Takes (part read (left + 1)) bytes (a, left) :=
  h.map fun a => (a, left)

/-- The parts that the first reader leaves are those of the second. -/
theorem takes_parts_bind {α β : Type} {x : Parts α} {f : α → Parts β} {front more : Bytes}
    {a : α} {b : β} {announced left rest : Nat} (hx : Takes (x announced) front (a, left))
    (hf : Takes (f a left) more (b, rest)) :
    Takes ((x >>= f) announced) (front ++ more) (b, rest) :=
  hx.bind (fun p => f p.1 p.2) hf

/-- The operands of an opcode are read in order, one part for each. -/
theorem takes_operands (op : Opcode)
    (hnames : ∀ s, .text s ∈ op.operands → (utf8 s).length < 2 ^ 64) (left : Nat) :
    Takes (op.mnemonic.readOpcode (fun t => part (readOperand t)) (left + op.operands.length))
      (op.operands.flatMap ofOperand) (op, left) := by
  refine op.readOpcode_induction (fun t => part (readOperand t))
    (R := fun x operands a => ∀ left, Takes (x (left + operands.length))
      (operands.flatMap ofOperand) (a, left)) ?_ ?_ ?_ left
  · intro α a left
    exact Takes.pure (a, left)
  · intro α β x f front more a b hx hf left
    rw [List.length_append, Nat.add_comm front.length, ← Nat.add_assoc, List.flatMap_append]
    exact takes_parts_bind (hx (left + more.length)) (hf left)
  · intro t a hmem left
    have h := takes_readOperand t a fun s hs => hnames s (hs ▸ hmem)
    simpa using takes_part h left

/-- The mnemonic and the operands use up the announced parts. -/
theorem takes_opcodeParts (op : Opcode)
    (hnames : ∀ s, .text s ∈ op.operands → (utf8 s).length < 2 ^ 64) :
    Takes (opcodeParts (1 + op.operands.length))
      (ofText op.name ++ op.operands.flatMap ofOperand) (op, 0) := by
  have hname : (utf8 op.mnemonic.name).length < 2 ^ 64 := by
    cases op.mnemonic <;> decide
  have hparts := takes_operands op hnames 0
  rw [Nat.zero_add] at hparts
  rw [Nat.add_comm]
  unfold opcodeParts
  refine takes_parts_bind (takes_part (takes_readText hname) op.operands.length) ?_
  rw [Mnemonic.ofName?_name]
  exact hparts

/-- An opcode is read back from the number of its parts, its mnemonic and its operands. -/
theorem takes_readOpcode (op : Opcode)
    (hnames : ∀ s, .text s ∈ op.operands → (utf8 s).length < 2 ^ 64) :
    Takes readOpcode (ofOpcode op) op := by
  have hcount : 1 + op.operands.length < 2 ^ 64 := by
    cases op <;> simp [Opcode.operands]
  unfold readOpcode ofOpcode
  rw [List.append_assoc, ← op.length_operands]
  apply (takes_long hcount).bind
  exact (takes_opcodeParts op hnames).map Prod.fst

/-- Opcodes one after the other are read back; by induction on the program. -/
theorem takes_readOpcodes (ops : Executable)
    (hnames : ∀ op ∈ ops, ∀ s, .text s ∈ op.operands → (utf8 s).length < 2 ^ 64) :
    Takes (readOpcodes ops.length) (ops.flatMap ofOpcode) ops := by
  induction ops with
  | nil => exact Takes.pure []
  | cons op ops ih =>
    have hop := takes_readOpcode op (hnames op (.head _))
    have hops := ih fun op hop => hnames op (.tail _ hop)
    exact hop.bind _ (hops.map fun ops => op :: ops)

theorem takes_ofExecutable {ops : Executable} (h : Sized ops) :
    Takes (readNat long >>= readOpcodes) (ofExecutable ops) ops :=
  (takes_long h.opcodes).bind readOpcodes (takes_readOpcodes ops h.names)

/-- A program is read back from its bytes, whatever follows them, and no strict front part of them
is enough. -/
theorem toExecutable_ofExecutable (ops : Executable) (h : Sized ops) :
    (∀ rest, toExecutable (ofExecutable ops ++ rest) = .ok ops) ∧
      ∀ front, front <+: ofExecutable ops → front ≠ ofExecutable ops →
        toExecutable front = .error .unexpectedEnd := by
  have htakes := takes_ofExecutable h
  constructor
  · intro rest
    show ((readNat long >>= readOpcodes) (ofExecutable ops ++ rest)).map Prod.fst = .ok ops
    rw [htakes.whole]
    rfl
  · intro front hfront hne
    show ((readNat long >>= readOpcodes) front).map Prod.fst = .error .unexpectedEnd
    obtain ⟨more, hmore⟩ := hfront
    have hmissing : more ≠ [] := by
      intro hnil
      rw [hnil, List.append_nil] at hmore
      exact hne hmore
    rw [htakes.cut front more hmore.symm hmissing]
    rfl

/-- A call and a jump back, with the bytes of another program behind or the last byte missing. -/
theorem toExecutable_ofExecutable_call :
    toExecutable (ofExecutable [.call 2 "año", .halt, .jmp (-2)] ++ [1, 1, 3]) =
        .ok [.call 2 "año", .halt, .jmp (-2)] ∧
      toExecutable (ofExecutable [.call 2 "año", .halt, .jmp (-2)]).dropLast =
        .error .unexpectedEnd := by
  have hsized : Sized [.call 2 "año", .halt, .jmp (-2)] := by
    constructor
    · decide
    · intro op hop s hs
      simp only [List.mem_cons, List.not_mem_nil, or_false] at hop
      obtain rfl | rfl | rfl := hop <;> simp_all [Opcode.operands]
      decide
  have h := toExecutable_ofExecutable _ hsized
  exact ⟨h.1 _, h.2 _ (List.dropLast_prefix _) (by decide)⟩

end RobotLang.Binary
