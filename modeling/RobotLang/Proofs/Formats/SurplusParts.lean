/-
  RobotLang.Proofs.Formats.SurplusParts
  ─────────────────────────────────────
  **PARTS THAT AN OPCODE ANNOUNCES AND NOBODY READS.**

  In both written forms an opcode says how many parts it has: as the length of
  its array in JSON, as a number in front of it in bytes.  JSON takes an opcode
  only if these are its mnemonic and its operands.  The reader of bytes only asks
  for enough of them:

      2 4 H A L T 1          two parts announced, `HALT` has one
      ─────────── ↑          the next opcode starts here

  `Announces` tells, for bytes that are read as opcodes, what each of these
  announces: never fewer parts than it has, and perhaps more
  (`not_announced_exactly`).  `strictly` is the reader that turns unread parts
  away as JSON does.  On bytes that are read as a program it gives the same
  program exactly if there are no surplus parts, and otherwise refuses an opcode
  (`announced_exactly_iff_strictly`).
-/
import RobotLang.Proofs.Formats.JsonRoundTrip
import RobotLang.Proofs.Formats.BinaryRoundTrip

namespace RobotLang

/-! ## §1. Arrays in JSON. -/

namespace Wire

/-- The operands take one element each. -/
theorem length_of_readOpcode {mnemonic : Mnemonic} {elements rest : List Json} {op : Opcode}
    (h : mnemonic.readOpcode (fun t => next (readOperand t)) elements = .ok (op, rest)) :
    elements.length = op.operands.length + rest.length := by
  cases mnemonic with
  | line | param | load | jmp | jz | ez =>
    obtain ⟨v, more, a, rfl, -, hend⟩ := next_bind_eq_ok h
    cases hend
    exact Nat.add_comm rest.length 1
  | call =>
    obtain ⟨v, more, target, rfl, -, hname⟩ := next_bind_eq_ok h
    obtain ⟨w, more, name, rfl, -, hend⟩ := next_bind_eq_ok hname
    cases hend
    exact Nat.add_comm rest.length 2
  | _ =>
    cases h
    exact (Nat.zero_add _).symm

/-- An array is read as an opcode only if it has no more elements than that has parts. -/
theorem length_of_toOpcode {elements : List Json} {op : Opcode}
    (h : toOpcode (.arr elements) = .ok op) : elements.length = 1 + op.operands.length := by
  have h := readAll_eq_ok_iff.mp h
  obtain ⟨v, more, name, rfl, -, h⟩ := next_bind_eq_ok h
  cases hfound : Mnemonic.ofName? name with
  | none =>
    rw [hfound] at h
    cases h
  | some mnemonic =>
    rw [hfound] at h
    have hlength := length_of_readOpcode h
    rw [List.length_cons, hlength]
    exact Nat.add_comm _ _

end Wire

namespace Binary

/-! ## §2. Parts in bytes. -/

section

variable {α β : Type} {bytes rest : Bytes}

/-- Two readers in a row end as the second one does from where the first one stopped. -/
theorem bind_eq_ok_iff {first : Reader α} {next : α → Reader β} {b : β} :
    (first >>= next) bytes = .ok (b, rest)
      ↔ ∃ a mid, first bytes = .ok (a, mid) ∧ next a mid = .ok (b, rest) := by
  show (first bytes >>= fun p => next p.1 p.2) = .ok (b, rest) ↔ _
  cases first bytes with
  | error e => simp [bind, Except.bind]
  | ok p =>
    obtain ⟨a, mid⟩ := p
    simp [bind, Except.bind]

/-- Reading one part and going on counts that part. -/
theorem part_bind_eq_ok {read : Reader α} {f : α → Parts β} {announced left : Nat} {b : β}
    (h : (part read >>= f) announced bytes = .ok ((b, left), rest)) :
    ∃ a fewer mid, announced = fewer + 1 ∧ f a fewer mid = .ok ((b, left), rest) := by
  cases announced with
  | zero => cases h
  | succ fewer =>
    change (part read (fewer + 1) >>= fun p => f p.1 p.2) bytes = _ at h
    obtain ⟨⟨a, fewer'⟩, mid, hpart, hf⟩ := bind_eq_ok_iff.mp h
    obtain ⟨a', mid', -, hpure⟩ := bind_eq_ok_iff.mp hpart
    cases hpure
    exact ⟨a, fewer, mid, rfl, hf⟩

end

/-- The operands take one part each. -/
theorem announced_of_readOpcode {mnemonic : Mnemonic} {bytes rest : Bytes} {op : Opcode}
    {announced left : Nat} (h : mnemonic.readOpcode (fun t => part (readOperand t)) announced bytes
      = .ok ((op, left), rest)) : announced = op.operands.length + left := by
  cases mnemonic with
  | line | param | load | jmp | jz | ez =>
    obtain ⟨a, fewer, mid, rfl, hend⟩ := part_bind_eq_ok h
    cases hend
    exact Nat.add_comm left 1
  | call =>
    obtain ⟨target, fewer, mid, rfl, hname⟩ := part_bind_eq_ok h
    obtain ⟨name, fewer, mid, rfl, hend⟩ := part_bind_eq_ok hname
    cases hend
    exact Nat.add_comm left 2
  | _ =>
    cases h
    exact (Nat.zero_add _).symm

/-- What is announced are the parts that are read and those that are left. -/
theorem announced_of_opcodeParts {bytes rest : Bytes} {op : Opcode} {announced left : Nat}
    (h : opcodeParts announced bytes = .ok ((op, left), rest)) :
    announced = 1 + op.operands.length + left := by
  obtain ⟨name, fewer, mid, rfl, hoperands⟩ := part_bind_eq_ok h
  cases hfound : Mnemonic.ofName? name with
  | none =>
    rw [hfound] at hoperands
    cases hoperands
  | some mnemonic =>
    rw [hfound] at hoperands
    have := announced_of_readOpcode hoperands
    omega

/-! ## §3. What the opcodes of a program announce. -/

/-- From the front, the bytes are read as these opcodes, each with the number of parts that it
announces. -/
inductive Announces : Bytes → List (Nat × Opcode) → Bytes → Prop where
  | nil (bytes : Bytes) : Announces bytes [] bytes
  | cons {bytes parts mid rest : Bytes} {announced left : Nat} {op : Opcode}
      {more : List (Nat × Opcode)} :
      readNat long bytes = .ok (announced, parts) →
      opcodeParts announced parts = .ok ((op, left), mid) → Announces mid more rest →
      Announces bytes ((announced, op) :: more) rest

/-- The bytes are a program whose opcodes announce that many parts. -/
def ProgramAnnounces (bytes : Bytes) (opcodes : List (Nat × Opcode)) : Prop :=
  ∃ body rest, readNat long bytes = .ok (opcodes.length, body) ∧ Announces body opcodes rest

/-- Every opcode announces its parts and no others. -/
def Exact (opcodes : List (Nat × Opcode)) : Prop :=
  ∀ p ∈ opcodes, p.1 = 1 + p.2.operands.length

instance (opcodes : List (Nat × Opcode)) : Decidable (Exact opcodes) :=
  inferInstanceAs (Decidable (∀ p ∈ opcodes, p.1 = 1 + p.2.operands.length))

theorem exact_cons {announced : Nat} {op : Opcode} {more : List (Nat × Opcode)} :
    Exact ((announced, op) :: more) ↔ announced = 1 + op.operands.length ∧ Exact more :=
  List.forall_mem_cons

theorem readOpcode_eq_ok_iff {bytes rest : Bytes} {op : Opcode} :
    readOpcode bytes = .ok (op, rest) ↔ ∃ announced parts left,
      readNat long bytes = .ok (announced, parts)
        ∧ opcodeParts announced parts = .ok ((op, left), rest) := by
  unfold readOpcode
  rw [bind_eq_ok_iff]
  constructor
  · rintro ⟨announced, parts, hcount, h⟩
    obtain ⟨⟨op', left⟩, mid, hparts, hpure⟩ := bind_eq_ok_iff.mp h
    cases hpure
    exact ⟨announced, parts, left, hcount, hparts⟩
  · rintro ⟨announced, parts, left, hcount, hparts⟩
    exact ⟨announced, parts, hcount, bind_eq_ok_iff.mpr ⟨(op, left), rest, hparts, rfl⟩⟩

/-- Opcodes are read where bytes announce them, by induction on how many are wanted.  The reader
forgets how many parts were announced, so these are said to exist. -/
theorem readOpcodes_eq_ok_iff {count : Nat} {bytes rest : Bytes} {ops : Executable} :
    readOpcodes count bytes = .ok (ops, rest) ↔ ∃ opcodes,
      Announces bytes opcodes rest ∧ opcodes.length = count ∧ opcodes.map Prod.snd = ops := by
  induction count generalizing bytes ops with
  | zero =>
    constructor
    · intro h
      cases h
      exact ⟨[], .nil rest, rfl, rfl⟩
    · rintro ⟨opcodes, hannounces, hlength, rfl⟩
      obtain rfl := List.length_eq_zero_iff.mp hlength
      cases hannounces
      rfl
  | succ count ih =>
    unfold readOpcodes
    rw [bind_eq_ok_iff]
    constructor
    · rintro ⟨op, mid, hop, h⟩
      obtain ⟨ops', mid', hops, hpure⟩ := bind_eq_ok_iff.mp h
      cases hpure
      obtain ⟨announced, parts, left, hcount, hparts⟩ := readOpcode_eq_ok_iff.mp hop
      obtain ⟨more, hmore, rfl, rfl⟩ := ih.mp hops
      exact ⟨(announced, op) :: more, .cons hcount hparts hmore, rfl, rfl⟩
    · rintro ⟨opcodes, hannounces, hlength, rfl⟩
      cases hannounces with
      | nil => cases hlength
      | @cons _ parts mid _ announced left op more hcount hparts hmore =>
        have hop := readOpcode_eq_ok_iff.mpr ⟨announced, parts, left, hcount, hparts⟩
        have hops := ih.mpr ⟨more, hmore, Nat.succ.inj hlength, rfl⟩
        exact ⟨op, mid, hop, bind_eq_ok_iff.mpr ⟨_, rest, hops, rfl⟩⟩

theorem map_fst_eq_ok_iff {α : Type} {read : Reader α} {bytes : Bytes} {a : α} :
    (read bytes).map Prod.fst = .ok a ↔ ∃ rest, read bytes = .ok (a, rest) := by
  cases read bytes with
  | error e => simp [Except.map]
  | ok p =>
    obtain ⟨b, rest⟩ := p
    simp [Except.map]

/-- Bytes are read as a program if they announce its opcodes. -/
theorem toExecutable_eq_ok_iff {bytes : Bytes} {ops : Executable} :
    toExecutable bytes = .ok ops
      ↔ ∃ opcodes, ProgramAnnounces bytes opcodes ∧ opcodes.map Prod.snd = ops := by
  show ((readNat long >>= readOpcodes) bytes).map Prod.fst = .ok ops ↔ _
  rw [map_fst_eq_ok_iff]
  constructor
  · rintro ⟨rest, h⟩
    obtain ⟨count, body, hcount, hops⟩ := bind_eq_ok_iff.mp h
    obtain ⟨opcodes, hannounces, rfl, rfl⟩ := readOpcodes_eq_ok_iff.mp hops
    exact ⟨opcodes, ⟨body, rest, hcount, hannounces⟩, rfl⟩
  · rintro ⟨opcodes, ⟨body, rest, hcount, hannounces⟩, rfl⟩
    exact ⟨rest, bind_eq_ok_iff.mpr ⟨opcodes.length, body, hcount,
      readOpcodes_eq_ok_iff.mpr ⟨opcodes, hannounces, rfl, rfl⟩⟩⟩

/-- No opcode announces fewer parts than it has. -/
theorem le_announced {bytes rest : Bytes} {opcodes : List (Nat × Opcode)}
    (h : Announces bytes opcodes rest) : ∀ p ∈ opcodes, 1 + p.2.operands.length ≤ p.1 := by
  induction h with
  | nil => simp
  | @cons _ _ _ _ announced left op more _ hparts _ ih =>
    refine List.forall_mem_cons.mpr ⟨?_, ih⟩
    show 1 + op.operands.length ≤ announced
    have := announced_of_opcodeParts hparts
    omega

/-! ## §4. Reading strictly. -/

/-- An opcode of which no part is left. -/
def strictOpcode : Reader Opcode := do
  let (op, left) ← opcodeParts (← readNat long)
  if left = 0 then return op else throw .badOpcode

/-- That many opcodes, none of which has a part left. -/
def strictOpcodes : Nat → Reader Executable
  | 0 => return []
  | n + 1 => return (← strictOpcode) :: (← strictOpcodes n)

/-- A program without surplus parts. -/
def strictly (bytes : Bytes) : Except Error Executable :=
  ((do strictOpcodes (← readNat long)) : Reader Executable).run bytes |>.map (·.1)

/-- The opcode is refused for the parts that it leaves. -/
theorem strictOpcode_eq {bytes parts mid : Bytes} {announced left : Nat} {op : Opcode}
    (hcount : readNat long bytes = .ok (announced, parts))
    (hparts : opcodeParts announced parts = .ok ((op, left), mid)) :
    strictOpcode bytes = if left = 0 then .ok (op, mid) else .error .badOpcode := by
  show (readNat long bytes >>= fun p => opcodeParts p.1 p.2 >>= fun q =>
    (if q.1.2 = 0 then pure q.1.1 else throw .badOpcode : Reader Opcode) q.2) = _
  rw [hcount]
  show (opcodeParts announced parts >>= fun q =>
    (if q.1.2 = 0 then pure q.1.1 else throw .badOpcode : Reader Opcode) q.2) = _
  rw [hparts]
  show (if left = 0 then pure op else throw .badOpcode : Reader Opcode) mid = _
  split <;> rfl

/-- Strict reading ends with the opcodes that are announced, or at the first one that announces a
part it does not have. -/
theorem strictOpcodes_of_announces {bytes rest : Bytes} {opcodes : List (Nat × Opcode)}
    (h : Announces bytes opcodes rest) :
    strictOpcodes opcodes.length bytes
      = if Exact opcodes then .ok (opcodes.map Prod.snd, rest) else .error .badOpcode := by
  induction h with
  | nil bytes => rfl
  | @cons bytes parts mid rest announced left op more hcount hparts _ ih =>
    have hparted := announced_of_opcodeParts hparts
    show (strictOpcode bytes >>= fun p => strictOpcodes more.length p.2 >>= fun q =>
      pure (p.1 :: q.1, q.2)) = _
    rw [strictOpcode_eq hcount hparts]
    -- an opcode is exact if it leaves no part; only then are the others read
    by_cases hleft : left = 0
    · rw [if_pos hleft]
      show (strictOpcodes more.length mid >>= fun q => pure (op :: q.1, q.2)) = _
      rw [ih]
      by_cases hexact : Exact more
      · rw [if_pos hexact, if_pos (exact_cons.mpr ⟨by omega, hexact⟩)]
        rfl
      · rw [if_neg hexact, if_neg fun h => hexact (exact_cons.mp h).2]
        rfl
    · have hsurplus : ¬Exact ((announced, op) :: more) := by
        intro hexact
        have := (exact_cons.mp hexact).1
        omega
      rw [if_neg hleft, if_neg hsurplus]
      rfl

theorem strictly_of_announces {bytes : Bytes} {opcodes : List (Nat × Opcode)}
    (h : ProgramAnnounces bytes opcodes) :
    strictly bytes = if Exact opcodes then .ok (opcodes.map Prod.snd) else .error .badOpcode := by
  obtain ⟨body, rest, hcount, hannounces⟩ := h
  show (readNat long bytes >>= fun p => strictOpcodes p.1 p.2).map Prod.fst = _
  rw [hcount]
  show (strictOpcodes opcodes.length body).map Prod.fst = _
  rw [strictOpcodes_of_announces hannounces]
  split <;> rfl

end Binary

/-! ## §5. The two forms side by side. -/

open Binary

/-- **Surplus parts are turned away in JSON and passed over in bytes.**  Bytes that are read as a
program announce at least the parts of every opcode; they announce no others exactly if a reader
that turns unread parts away takes them for the same program, and if they do announce others, that
reader refuses an opcode.  An array is read as an opcode only if its elements are the parts of that
opcode. -/
theorem announced_exactly_iff_strictly (bytes : Bytes) (ops : Executable)
    (h : toExecutable bytes = .ok ops) :
    (∃ opcodes, ProgramAnnounces bytes opcodes ∧ opcodes.map Prod.snd = ops
        ∧ (∀ p ∈ opcodes, 1 + p.2.operands.length ≤ p.1)
        ∧ (Exact opcodes ↔ strictly bytes = .ok ops)
        ∧ (¬Exact opcodes ↔ strictly bytes = .error .badOpcode))
      ∧ ∀ (elements : List Json) (op : Opcode), Wire.toOpcode (.arr elements) = .ok op →
        elements.length = 1 + op.operands.length := by
  refine ⟨?_, fun elements op h => Wire.length_of_toOpcode h⟩
  obtain ⟨opcodes, hannounces, rfl⟩ := toExecutable_eq_ok_iff.mp h
  have hstrictly := strictly_of_announces hannounces
  refine ⟨opcodes, hannounces, rfl, ?_, ?_, ?_⟩
  · obtain ⟨body, rest, -, hbody⟩ := hannounces
    exact le_announced hbody
  · rw [hstrictly]
    split <;> simp_all
  · rw [hstrictly]
    split <;> simp_all

/-- `HALT` and a part that nobody reads. -/
def haltAndMore : Binary.Bytes :=
  [1, 2, 4, 72, 65, 76, 84, 1]

/-- The part is passed over, and a strict reader refuses the opcode for it. -/
theorem haltAndMore_announces_more :
    toExecutable haltAndMore = .ok [.halt] ∧ strictly haltAndMore = .error .badOpcode
      ∧ ∃ opcodes, ProgramAnnounces haltAndMore opcodes ∧ opcodes.map Prod.snd = [.halt]
        ∧ ¬Exact opcodes := by
  have hread : toExecutable haltAndMore = .ok [.halt] := rfl
  have hstrictly : strictly haltAndMore = .error .badOpcode := rfl
  obtain ⟨⟨opcodes, hannounces, hops, -, -, hsurplus⟩, -⟩ :=
    announced_exactly_iff_strictly haltAndMore [.halt] hread
  exact ⟨hread, hstrictly, opcodes, hannounces, hops, hsurplus.mpr hstrictly⟩

/-- `HALT` is read although it announces two parts, and from JSON it is not. -/
theorem not_announced_exactly :
    ¬(∀ (bytes : Bytes) (ops : Executable) (opcodes : List (Nat × Opcode)),
        toExecutable bytes = .ok ops → ProgramAnnounces bytes opcodes →
        ∀ p ∈ opcodes, p.1 = 1 + p.2.operands.length) := by
  intro h
  have hannounces : ProgramAnnounces haltAndMore [(2, .halt)] :=
    ⟨_, [1], rfl, .cons rfl rfl (.nil [1])⟩
  have hread : toExecutable haltAndMore = .ok [.halt] := rfl
  exact absurd (h _ _ _ hread hannounces (2, .halt) (.head _)) (by decide)

end RobotLang
