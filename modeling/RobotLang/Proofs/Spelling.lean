/-
  RobotLang.Proofs.Spelling
  ─────────────────────────
  **TREES WHOSE TOKENS ARE WHAT THEIR PLACES ASK FOR.**

  A tree can hold any tokens.  It is spelled when every token is of the kind
  that its place in the grammar asks for and every literal has the value of
  its digits in base ten.  The rules of a grammar make spelled trees only, and a
  spelled tree is a derivation of the kinds of its tokens.
-/
import RobotLang.Rule.Expression
import Mathlib.Data.Nat.Digits.Defs

namespace RobotLang

/-! ## §1. Literals. -/

/-- The text is decimal digits, at least one of them. -/
def IsDigits (image : String) : Prop :=
  image ≠ "" ∧ image.toList.all Text.isDigit = true

instance (image : String) : Decidable (IsDigits image) :=
  inferInstanceAs (Decidable (_ ∧ _))

/-- The text is decimal digits, with or without a sign. -/
def IsNumeral (image : String) : Prop :=
  Rule.unsigned image.toList ≠ [] ∧ (Rule.unsigned image.toList).all Text.isDigit = true

/-- The number that a text's digits stand for in base ten, units last, with the
sign before them. -/
def decimal (image : String) : Int :=
  let magnitude : Nat := Nat.ofDigits 10
    ((Rule.unsigned image.toList).reverse.map fun c => c.toNat - '0'.toNat)
  if image.toList.head? = some '-' then -(magnitude : Int) else magnitude

/-- The text stands for the number. -/
def StandsFor (image : String) (n : Int) : Prop :=
  IsNumeral image ∧ n = decimal image

/-- The text stands for a number that 64 bits can hold. -/
structure Holdable (image : String) : Prop where
  numeral : IsNumeral image
  min_le : -2 ^ 63 ≤ decimal image
  le_max : decimal image ≤ 2 ^ 63 - 1

/-- Reading digit by digit computes the number in base ten. -/
theorem decimalValue_eq (digits : List Char) :
    Rule.decimalValue digits
      = Nat.ofDigits 10 (digits.reverse.map fun c => c.toNat - '0'.toNat) := by
  unfold Rule.decimalValue
  rw [Nat.ofDigits_eq_foldr, List.foldr_map, List.foldr_reverse]
  simp [Nat.add_comm]

theorem numeral?_eq_some_iff {image : String} {n : Int} :
    Rule.numeral? image.toList = some n ↔ StandsFor image n := by
  have hnumeral : (!(Rule.unsigned image.toList).isEmpty
      && (Rule.unsigned image.toList).all Text.isDigit) = true ↔ IsNumeral image := by
    simp [IsNumeral]
  simp only [Rule.numeral?, decimalValue_eq]
  split
  · next h => simp [StandsFor, decimal, hnumeral.mp h, eq_comm]
  · next h => simp [StandsFor, mt hnumeral.mpr h]

/-- A literal that is read has the value of its digits, and every literal whose
value can be held is read. -/
theorem literalValue?_eq_some_iff {image : String} {value : Int64} :
    Rule.literalValue? image = some value ↔ StandsFor image value.toInt := by
  unfold Rule.literalValue?
  rw [Option.bind_eq_some_iff]
  simp only [numeral?_eq_some_iff]
  have hmin := value.le_toInt
  have hmax := value.toInt_lt
  constructor
  · rintro ⟨n, hn, h⟩
    split at h
    · next hfits =>
      obtain rfl := Option.some.inj h
      rwa [Int64.toInt_ofInt_of_le (by omega) (by omega)]
    · cases h
  · intro h
    exact ⟨value.toInt, h, by rw [if_pos (by omega), Int64.ofInt_toInt]⟩

/-- A text can be held if it stands for a number of 64 bits. -/
theorem holdable_iff {image : String} :
    Holdable image ↔ ∃ value : Int64, StandsFor image value.toInt := by
  constructor
  · rintro ⟨hnumeral, hmin, hmax⟩
    exact ⟨.ofInt (decimal image), hnumeral, Int64.toInt_ofInt_of_le hmin (by omega)⟩
  · rintro ⟨value, hnumeral, h⟩
    have hmin := value.le_toInt
    have hmax := value.toInt_lt
    exact ⟨hnumeral, by omega, by omega⟩

/-- Digits without a sign stand for a number that is not negative, and can be held
if it is not too large. -/
theorem holdable_iff_of_isDigits {image : String} (h : IsDigits image) :
    Holdable image ↔ decimal image ≤ 2 ^ 63 - 1 := by
  obtain ⟨hne, hdigits⟩ := h
  have hlist : image.toList ≠ [] := by simpa using hne
  obtain ⟨c, cs, hcs⟩ := List.exists_cons_of_ne_nil hlist
  have hc : Text.isDigit c = true := List.all_eq_true.mp hdigits c (by simp [hcs])
  have hminus : c ≠ '-' := by rintro rfl; exact absurd hc (by decide)
  have hplus : c ≠ '+' := by rintro rfl; exact absurd hc (by decide)
  have hunsigned : Rule.unsigned image.toList = image.toList := by
    rw [hcs]
    unfold Rule.unsigned
    split <;> simp_all
  have hhead : image.toList.head? ≠ some '-' := by simpa [hcs] using hminus
  have hnonneg : 0 ≤ decimal image := by
    simp only [decimal, if_neg hhead]
    omega
  constructor
  · exact Holdable.le_max
  · intro hmax
    exact ⟨by rw [IsNumeral, hunsigned]; exact ⟨hlist, hdigits⟩, by omega, hmax⟩

/-! ## §2. Spelled trees. -/

/-- The number is spelled by its tokens. -/
def Integer.Spelled : Integer → Prop
  | .name token => token.kind = .identifier
  | .literal token value =>
    token.kind = .integerLiteral ∧ StandsFor token.image value.toInt
  | .succ keyword left inner right =>
    keyword.kind = .succ ∧ left.kind = .leftParen ∧ inner.Spelled ∧ right.kind = .rightParen
  | .pred keyword left inner right =>
    keyword.kind = .pred ∧ left.kind = .leftParen ∧ inner.Spelled ∧ right.kind = .rightParen

/-- The condition is spelled by its tokens; `parens` says whether a sensor may
have parentheses. -/
def Condition.Spelled (parens : Bool) {level : Level} : Condition level → Prop
  | .conj c => c.Spelled parens
  | .or left operator right =>
    left.Spelled parens ∧ operator.kind = .or_ ∧ right.Spelled parens
  | .lit c => c.Spelled parens
  | .and left operator right =>
    left.Spelled parens ∧ operator.kind = .and_ ∧ right.Spelled parens
  | .plain c => c.Spelled parens
  | .not operator c => operator.kind = .not_ ∧ c.Spelled parens
  | .isZero keyword left number right =>
    keyword.kind = .isZero ∧ left.kind = .leftParen ∧ number.Spelled ∧ right.kind = .rightParen
  | .sensor x keyword => keyword.kind = .sensor x
  | .sensorCall x keyword left right =>
    parens = true ∧ keyword.kind = .sensor x ∧ left.kind = .leftParen
      ∧ right.kind = .rightParen
  | .paren left c right =>
    left.kind = .leftParen ∧ c.Spelled parens ∧ right.kind = .rightParen

/-- The parameter is spelled by its tokens. -/
def Parameter.Spelled (p : Parameter) : Prop :=
  p.left.kind = .leftParen ∧ (∀ name ∈ p.name, name.kind = .identifier)
    ∧ p.right.kind = .rightParen

/-! ## §3. The tokens of expressions. -/

/-- The kinds that numbers and conditions are written with, literals apart. -/
def expressionKinds : List Kind :=
  [.identifier, .succ, .pred, .isZero, .not_, .and_, .or_, .leftParen, .rightParen]
    ++ Kind.sensors

theorem sensor_mem_expressionKinds (x : Sensor) : .sensor x ∈ expressionKinds :=
  List.mem_append_right _ (List.mem_map_of_mem x.mem_all)

section Tokens

variable {P : Token → Prop} (hword : ∀ t : Token, t.kind ∈ expressionKinds → P t)
  (hliteral : ∀ (t : Token) (value : Int64), t.kind = .integerLiteral →
    StandsFor t.image value.toInt → P t)

include hword hliteral

/-- What holds of words and of literals with their values holds of every token
of a number. -/
theorem Integer.forall_mem_tokens {n : Integer} (hn : n.Spelled) :
    ∀ t ∈ n.children.tokens, P t := by
  have hkind {t : Token} {kind : Kind} (ht : t.kind = kind) (hk : kind ∈ expressionKinds) : P t :=
    hword t (ht ▸ hk)
  induction n with
  | name token =>
    have ht : P token := hkind hn (by decide)
    simpa [Integer.children] using ht
  | literal token value =>
    have ht : P token := hliteral token value hn.1 hn.2
    simpa [Integer.children] using ht
  | succ keyword left inner right ih | pred keyword left inner right ih =>
    obtain ⟨hk, hl, hi, hr⟩ := hn
    have hinner := ih hi
    have hkeyword : P keyword := hkind hk (by decide)
    have hleft : P left := hkind hl (by decide)
    have hright : P right := hkind hr (by decide)
    simp_all [Integer.children, or_imp]

/-- What holds of words and of literals with their values holds of every token
of a condition. -/
theorem Condition.forall_mem_tokens {parens : Bool} {level : Level} {c : Condition level}
    (hc : c.Spelled parens) : ∀ t ∈ c.children.tokens, P t := by
  -- literals stand only in numbers; here every token is a word
  have hkind {t : Token} {kind : Kind} (ht : t.kind = kind) (hk : kind ∈ expressionKinds) : P t :=
    hword t (ht ▸ hk)
  induction c with
  | conj c ih | lit c ih | plain c ih => simpa [Condition.children] using ih hc
  | or left operator right ihleft ihright | and left operator right ihleft ihright =>
    obtain ⟨hl, ho, hr⟩ := hc
    have hop : P operator := hkind ho (by decide)
    have hleft := ihleft hl
    have hright := ihright hr
    simp_all [Condition.children, or_imp]
  | not operator c ih =>
    have hop : P operator := hkind hc.1 (by decide)
    have hclause := ih hc.2
    simp_all [Condition.children]
  | isZero keyword left n right =>
    obtain ⟨hk, hl, hn, hr⟩ := hc
    have hkeyword : P keyword := hkind hk (by decide)
    have hleft : P left := hkind hl (by decide)
    have hnumber := Integer.forall_mem_tokens hword hliteral hn
    have hright : P right := hkind hr (by decide)
    simp_all [Condition.children, or_imp]
  | sensor x keyword =>
    have hkeyword : P keyword := hkind hc (sensor_mem_expressionKinds x)
    simpa [Condition.children, Condition.sensorWord] using hkeyword
  | sensorCall x keyword left right =>
    obtain ⟨_, hk, hl, hr⟩ := hc
    have hkeyword : P keyword := hkind hk (sensor_mem_expressionKinds x)
    have hleft : P left := hkind hl (by decide)
    have hright : P right := hkind hr (by decide)
    simp_all [Condition.children, Condition.sensorWord]
  | paren left c right ih =>
    obtain ⟨hl, hc, hr⟩ := hc
    have hleft : P left := hkind hl (by decide)
    have hterm := ih hc
    have hright : P right := hkind hr (by decide)
    simp_all [Condition.children, or_imp]

end Tokens

end RobotLang
