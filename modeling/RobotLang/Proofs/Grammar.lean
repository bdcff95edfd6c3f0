/-
  RobotLang.Proofs.Grammar
  ────────────────────────
  **GRAMMARS IN EXTENDED FORM AND WHAT THEY DERIVE.**

  A grammar gives every symbol a phrase: words, symbols, sequences,
  alternatives, options and repetitions.  `Derives g p ks` says that the kinds
  `ks` are a way to write `p`.  Nothing here knows how a list is read.

  `Phrase.Matches` is the other view of a phrase, on tokens instead of kinds
  and with a meaning given for each symbol.  A meaning that takes in whatever
  its symbol's phrase matches takes in everything derived:

      (∀ r ts, (g r).Matches meaning good ts → meaning r ts)
        →  Derives g p (ts.map kind)  →  p.Matches meaning good ts
-/
import RobotLang.Token

namespace RobotLang

/-! ## §1. Phrases. -/

/-- The right side of a grammar rule, over the symbols `R`. -/
inductive Phrase (R : Type) where
  /-- One token, of one of the kinds. -/
  | word (kinds : List Kind)
  /-- Whatever the symbol stands for. -/
  | symbol (name : R)
  | nothing
  | seq (first second : Phrase R)
  | alt (first second : Phrase R)
  /-- The phrase, or nothing. -/
  | opt (phrase : Phrase R)
  /-- The phrase any number of times. -/
  | star (phrase : Phrase R)

namespace Phrase

variable {R : Type}

/-- One token of that kind. -/
def token (kind : Kind) : Phrase R :=
  .word [kind]

/-- One phrase after the other. -/
def inOrder : List (Phrase R) → Phrase R
  | [] => .nothing
  | p :: ps => .seq p (inOrder ps)

/-- One of the phrases, of which there is at least one. -/
def oneOf (p : Phrase R) : List (Phrase R) → Phrase R
  | [] => p
  | q :: qs => .alt p (oneOf q qs)

/-- The kinds of the words of a phrase. -/
def kinds : Phrase R → List Kind
  | .word kinds => kinds
  | .symbol _ | .nothing => []
  | .seq p q | .alt p q => p.kinds ++ q.kinds
  | .opt p | .star p => p.kinds

end Phrase

/-- The kinds are a way to write the phrase, by the rules `g`. -/
inductive Derives {R : Type} (g : R → Phrase R) : Phrase R → List Kind → Prop
  | word {kind : Kind} {kinds : List Kind} : kind ∈ kinds → Derives g (.word kinds) [kind]
  | symbol {name : R} {ks : List Kind} : Derives g (g name) ks → Derives g (.symbol name) ks
  | nothing : Derives g .nothing []
  | seq {p q : Phrase R} {ks ls : List Kind} :
      Derives g p ks → Derives g q ls → Derives g (.seq p q) (ks ++ ls)
  | altLeft {p q : Phrase R} {ks : List Kind} : Derives g p ks → Derives g (.alt p q) ks
  | altRight {p q : Phrase R} {ks : List Kind} : Derives g q ks → Derives g (.alt p q) ks
  | optNone {p : Phrase R} : Derives g (.opt p) []
  | optSome {p : Phrase R} {ks : List Kind} : Derives g p ks → Derives g (.opt p) ks
  | starNil {p : Phrase R} : Derives g (.star p) []
  | starCons {p : Phrase R} {ks ls : List Kind} :
      Derives g p ks → Derives g (.star p) ls → Derives g (.star p) (ks ++ ls)

namespace Derives

variable {R : Type} {g : R → Phrase R}

theorem token (kind : Kind) : Derives g (.token kind) [kind] :=
  .word (by simp)

/-- A symbol stands for what its rule says. -/
theorem ofRule {name : R} {p : Phrase R} {ks : List Kind} (hg : g name = p)
    (h : Derives g p ks) : Derives g (.symbol name) ks :=
  .symbol (hg ▸ h)

theorem oneOf {p q : Phrase R} {qs : List (Phrase R)} {ks : List Kind} (hq : q ∈ p :: qs)
    (h : Derives g q ks) : Derives g (.oneOf p qs) ks := by
  induction qs generalizing p with
  | nil =>
    obtain rfl := List.mem_singleton.mp hq
    exact h
  | cons p' qs ih =>
    rcases List.mem_cons.mp hq with rfl | hq
    · exact .altLeft h
    · exact .altRight (ih hq)

/-- A repetition goes on at its end. -/
theorem starSnoc {p : Phrase R} {ks ls : List Kind} (h : Derives g (.star p) ks)
    (hl : Derives g p ls) : Derives g (.star p) (ks ++ ls) := by
  generalize hq : Phrase.star p = q at h
  induction h with
  | starNil =>
    cases hq
    simpa using Derives.starCons hl .starNil
  | starCons hk _ _ ih =>
    cases hq
    rw [List.append_assoc]
    exact .starCons hk (ih rfl)
  | word | symbol | nothing | seq | altLeft | altRight | optNone | optSome => cases hq

/-- A symbol that stands for an item and any number of further ones goes on
with one more. -/
theorem snoc {name : R} {p q : Phrase R} {ks ls : List Kind} (hg : g name = .seq p (.star q))
    (h : Derives g (.symbol name) ks) (hl : Derives g q ls) :
    Derives g (.symbol name) (ks ++ ls) := by
  cases h with
  | symbol h =>
    rw [hg] at h
    cases h with
    | seq hp hq =>
      rw [List.append_assoc]
      exact .ofRule hg (.seq hp (hq.starSnoc hl))

/-- Only words of the rules and of the phrase itself are ever written. -/
theorem forall_mem {P : Kind → Prop} (hg : ∀ name, ∀ kind ∈ (g name).kinds, P kind)
    {p : Phrase R} {ks : List Kind} (h : Derives g p ks) (hp : ∀ kind ∈ p.kinds, P kind) :
    ∀ kind ∈ ks, P kind := by
  induction h with
  | word hmem => exact List.forall_mem_singleton.mpr (hp _ hmem)
  | symbol _ ih => exact ih (hg _)
  | nothing | optNone | starNil => simp
  | seq _ _ ihp ihq =>
    obtain ⟨hp, hq⟩ := List.forall_mem_append.mp hp
    exact List.forall_mem_append.mpr ⟨ihp hp, ihq hq⟩
  | altLeft _ ih => exact ih (List.forall_mem_append.mp hp).1
  | altRight _ ih => exact ih (List.forall_mem_append.mp hp).2
  | optSome _ ih => exact ih hp
  | starCons _ _ ihp ihstar => exact List.forall_mem_append.mpr ⟨ihp hp, ihstar hp⟩

/-- Lists of items are repetitions of what one item derives. -/
theorem starFlatMap {α : Type} {p : Phrase R} {as : List α} {f : α → List Kind}
    (h : ∀ a ∈ as, Derives g p (f a)) : Derives g (.star p) (as.flatMap f) := by
  induction as with
  | nil => exact .starNil
  | cons a as ih =>
    rw [List.forall_mem_cons] at h
    exact .starCons h.1 (ih h.2)

end Derives

/-! ## §2. Phrases on tokens. -/

/-- The tokens are a way to write the phrase, if `meaning` says what each
symbol stands for; every token has to be `good`. -/
def Phrase.Matches {R : Type} (meaning : R → List Token → Prop) (good : Token → Prop) :
    Phrase R → List Token → Prop
  | .word kinds, ts => ∃ t, ts = [t] ∧ t.kind ∈ kinds ∧ good t
  | .symbol name, ts => meaning name ts
  | .nothing, ts => ts = []
  | .seq p q, ts => ∃ us vs, ts = us ++ vs ∧ p.Matches meaning good us ∧ q.Matches meaning good vs
  | .alt p q, ts => p.Matches meaning good ts ∨ q.Matches meaning good ts
  | .opt p, ts => ts = [] ∨ p.Matches meaning good ts
  | .star p, ts =>
    ∃ parts : List (List Token), ts = parts.flatten ∧ ∀ part ∈ parts, p.Matches meaning good part

namespace Phrase

variable {R : Type} {meaning : R → List Token → Prop} {good : Token → Prop} {ts : List Token}

@[simp] theorem matches_word {kinds : List Kind} :
    (word kinds).Matches meaning good ts ↔ ∃ t, ts = [t] ∧ t.kind ∈ kinds ∧ good t := Iff.rfl

@[simp] theorem matches_token {kind : Kind} :
    (token kind).Matches meaning good ts ↔ ∃ t, ts = [t] ∧ t.kind = kind ∧ good t := by
  simp [token]

@[simp] theorem matches_star {p : Phrase R} :
    p.star.Matches meaning good ts
      ↔ ∃ parts : List (List Token), ts = parts.flatten
          ∧ ∀ part ∈ parts, p.Matches meaning good part := Iff.rfl

theorem matches_inOrder_cons {p : Phrase R} {ps : List (Phrase R)} :
    (inOrder (p :: ps)).Matches meaning good ts
      ↔ ∃ us vs, ts = us ++ vs ∧ p.Matches meaning good us
          ∧ (inOrder ps).Matches meaning good vs := Iff.rfl

/-- A sequence that starts with a word takes one token for it. -/
@[simp] theorem matches_inOrder_token {kind : Kind} {ps : List (Phrase R)} :
    (inOrder (token kind :: ps)).Matches meaning good ts
      ↔ ∃ t us, ts = t :: us ∧ t.kind = kind ∧ good t ∧ (inOrder ps).Matches meaning good us := by
  rw [matches_inOrder_cons]
  constructor
  · rintro ⟨us, vs, rfl, hword, hrest⟩
    obtain ⟨t, rfl, ht, hg⟩ := matches_token.mp hword
    exact ⟨t, vs, rfl, ht, hg, hrest⟩
  · rintro ⟨t, us, rfl, ht, hg, hrest⟩
    exact ⟨[t], us, rfl, matches_token.mpr ⟨t, rfl, ht, hg⟩, hrest⟩

@[simp] theorem matches_oneOf {p : Phrase R} {qs : List (Phrase R)} :
    (oneOf p qs).Matches meaning good ts ↔ ∃ q ∈ p :: qs, q.Matches meaning good ts := by
  induction qs generalizing p with
  | nil => simp [oneOf]
  | cons q qs ih =>
    show p.Matches meaning good ts ∨ (oneOf q qs).Matches meaning good ts ↔ _
    rw [ih]
    simp

/-- A repetition of a symbol that stands for trees is a list of trees. -/
theorem exists_list_of_star {α : Type} {name : R} (valid : α → Prop) (tokens : α → List Token)
    (h : (star (.symbol name)).Matches meaning good ts)
    (hm : ∀ ts, meaning name ts → ∃ a, valid a ∧ tokens a = ts) :
    ∃ as : List α, (∀ a ∈ as, valid a) ∧ as.flatMap tokens = ts := by
  obtain ⟨parts, rfl, hparts⟩ := matches_star.mp h
  clear h
  induction parts with
  | nil => exact ⟨[], by simp, rfl⟩
  | cons part parts ih =>
    rw [List.forall_mem_cons] at hparts
    obtain ⟨a, ha, rfl⟩ := hm part hparts.1
    obtain ⟨as, has, htokens⟩ := ih hparts.2
    exact ⟨a :: as, List.forall_mem_cons.mpr ⟨ha, has⟩, by simp [htokens]⟩

/-- Fewer demands on the tokens are met as well. -/
theorem Matches.mono {good' : Token → Prop} (hgood : ∀ t, good t → good' t) {p : Phrase R}
    (h : p.Matches meaning good ts) : p.Matches meaning good' ts := by
  induction p generalizing ts with
  | word kinds =>
    obtain ⟨t, rfl, ht, hg⟩ := h
    exact ⟨t, rfl, ht, hgood t hg⟩
  | symbol name => exact h
  | nothing => exact h
  | seq p q ihp ihq =>
    obtain ⟨us, vs, rfl, hp, hq⟩ := h
    exact ⟨us, vs, rfl, ihp hp, ihq hq⟩
  | alt p q ihp ihq => exact h.imp ihp ihq
  | opt p ih => exact h.imp id ih
  | star p ih =>
    obtain ⟨parts, rfl, hparts⟩ := h
    exact ⟨parts, rfl, fun part hmem => ih (hparts part hmem)⟩

end Phrase

/-- A meaning that takes in what the rules match takes in what they derive.  By induction on the
derivation, so that a language has to be looked at rule by rule only. -/
theorem Derives.toMatches {R : Type} {g : R → Phrase R} {meaning : R → List Token → Prop}
    {good : Token → Prop} (hg : ∀ name ts, (g name).Matches meaning good ts → meaning name ts)
    {p : Phrase R} {ks : List Kind} (h : Derives g p ks) :
    ∀ {ts : List Token}, ts.map (·.kind) = ks → (∀ t ∈ ts, good t) →
      p.Matches meaning good ts := by
  induction h with
  | word hk =>
    intro ts hks hgood
    obtain ⟨t, rfl, rfl⟩ := List.map_eq_singleton_iff.mp hks
    exact ⟨t, rfl, hk, hgood t (by simp)⟩
  | symbol _ ih =>
    intro ts hks hgood
    -- the one step that looks at the rules
    exact hg _ ts (ih hks hgood)
  | nothing =>
    intro ts hks _
    exact List.map_eq_nil_iff.mp hks
  | seq _ _ ih₁ ih₂ =>
    intro ts hks hgood
    obtain ⟨us, vs, rfl, hus, hvs⟩ := List.map_eq_append_iff.mp hks
    exact ⟨us, vs, rfl, ih₁ hus fun t ht => hgood t (by simp [ht]),
      ih₂ hvs fun t ht => hgood t (by simp [ht])⟩
  | altLeft _ ih =>
    intro ts hks hgood
    exact .inl (ih hks hgood)
  | altRight _ ih =>
    intro ts hks hgood
    exact .inr (ih hks hgood)
  | optNone =>
    intro ts hks _
    exact .inl (List.map_eq_nil_iff.mp hks)
  | optSome _ ih =>
    intro ts hks hgood
    exact .inr (ih hks hgood)
  | starNil =>
    intro ts hks _
    exact ⟨[], List.map_eq_nil_iff.mp hks, by simp⟩
  | starCons _ _ ih₁ ih₂ =>
    intro ts hks hgood
    obtain ⟨us, vs, rfl, hus, hvs⟩ := List.map_eq_append_iff.mp hks
    obtain ⟨parts, rfl, hparts⟩ := ih₂ hvs fun t ht => hgood t (by simp [ht])
    refine ⟨us :: parts, rfl, ?_⟩
    rw [List.forall_mem_cons]
    exact ⟨ih₁ hus fun t ht => hgood t (by simp [ht]), hparts⟩

end RobotLang
