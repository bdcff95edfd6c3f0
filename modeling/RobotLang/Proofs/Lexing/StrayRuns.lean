/-
  RobotLang.Proofs.Lexing.StrayRuns
  ─────────────────────────────────
  **WHAT IS REPORTED ARE THE LONGEST RUNS OF STRAY CHARACTERS.**

  A table is asked at some places of a text and not at others: first at the
  start, and then behind whatever it took, or one character on if it took
  nothing (`Visits`).  The places at which it takes nothing are the strays.
  Whatever the table, its diagnostics are the longest runs of strays, one for
  each and in order, and everything between two of them was taken by an entry:

      … taken …  [a, b)  … taken …  [a', b')  … taken …

  The list of such runs is described once for any set of places (`Groups`).
  That description follows the lexemes, which lie one behind the other; what
  it means for a single run is a matter of numbers only (`Groups.mem_iff`).
-/
import RobotLang.Proofs.Underlining

namespace RobotLang

/-! ## §1. Runs of places. -/

/-- All places from `a` up to `b` are in the set, and the places around them are not. -/
structure LongestRun (S : Nat → Prop) (a b : Nat) : Prop where
  nonempty : a < b
  inside : ∀ i, a ≤ i → i < b → S i
  behind : ¬S b
  before : ∀ i, i + 1 = a → ¬S i

/-- The runs lie one behind the other from a place on, and hold what the set holds from there on. -/
def Groups (S : Nat → Prop) : Nat → List (Nat × Nat) → Prop
  | place, [] => ∀ i, place ≤ i → ¬S i
  | place, (a, b) :: runs => place ≤ a ∧ (∀ i, place ≤ i → i < a → ¬S i)
      ∧ a < b ∧ (∀ i, a ≤ i → i < b → S i) ∧ ¬S b ∧ Groups S b runs

namespace Groups

variable {S T : Nat → Prop} {place : Nat} {runs : List (Nat × Nat)}

/-- Only what stands from the place on matters. -/
theorem congr (hST : ∀ i, place ≤ i → (S i ↔ T i)) (h : Groups S place runs) :
    Groups T place runs := by
  induction runs generalizing place with
  | nil => exact fun i hi hT => h i hi ((hST i hi).mpr hT)
  | cons run runs ih =>
    obtain ⟨a, b⟩ := run
    obtain ⟨hplace, hgap, hab, hinside, hbehind, hrest⟩ := h
    refine ⟨hplace, ?_, hab, ?_, ?_, ih (fun i hi => hST i (by omega)) hrest⟩
    · exact fun i hi hia hT => hgap i hi hia ((hST i hi).mpr hT)
    · exact fun i hi hib => (hST i (by omega)).mp (hinside i hi hib)
    · exact fun hT => hbehind ((hST b (by omega)).mpr hT)

/-- Places that are not in the set can be put in front. -/
theorem widen {first : Nat} (hfirst : first ≤ place) (hnone : ∀ i, first ≤ i → i < place → ¬S i)
    (h : Groups S place runs) : Groups S first runs := by
  have hsplit : ∀ i, first ≤ i → (i < place ∨ place ≤ i) := fun i _ => by omega
  cases runs with
  | nil => exact fun i hi => (hsplit i hi).elim (hnone i hi) (h i)
  | cons run runs =>
    obtain ⟨hplace, hgap, hrest⟩ := h
    refine ⟨by omega, fun i hi hia => ?_, hrest⟩
    exact (hsplit i hi).elim (hnone i hi) fun hle => hgap i hle hia

/-- The runs are the longest ones, and all of them.  By induction on the list: a longest run starts
neither in the gap before the first one nor inside of it, so it is the first one or stands behind
it. -/
theorem mem_iff (h : Groups S place runs) (hplace : place = 0 ∨ ¬S place) {a b : Nat} :
    (a, b) ∈ runs ↔ place ≤ a ∧ LongestRun S a b := by
  induction runs generalizing place with
  | nil =>
    simp only [List.not_mem_nil, false_iff, not_and]
    exact fun hle hrun => h a hle (hrun.inside a (Nat.le_refl a) hrun.nonempty)
  | cons run runs ih =>
    obtain ⟨a₀, b₀⟩ := run
    obtain ⟨hle₀, hgap, hab, hinside, hbehind, hrest⟩ := h
    have hlast : S (b₀ - 1) := hinside _ (by omega) (by omega)
    rw [List.mem_cons, ih hrest (.inr hbehind), Prod.mk.injEq]
    constructor
    · rintro (⟨rfl, rfl⟩ | ⟨hle, hrun⟩)
      · refine ⟨hle₀, hab, hinside, hbehind, fun i hi hS => ?_⟩
        -- what stands before the first run is in front of all of them, or in the gap
        rcases hplace with rfl | hplace
        · exact hgap i (Nat.zero_le i) (by omega) hS
        · have hne : place ≠ a := by
            rintro rfl
            exact hplace (hinside place (Nat.le_refl _) hab)
          exact hgap i (by omega) (by omega) hS
      · exact ⟨by omega, hrun⟩
    · rintro ⟨hle, hrun⟩
      have hS := hrun.inside a (Nat.le_refl a) hrun.nonempty
      by_cases hfirst : a = a₀
      · -- a run that starts where the first one does ends where it does
        subst hfirst
        refine .inl ⟨rfl, ?_⟩
        rcases Nat.lt_trichotomy b b₀ with hlt | heq | hgt
        · exact absurd (hinside b (Nat.le_of_lt hrun.nonempty) hlt) hrun.behind
        · exact heq
        · exact absurd (hrun.inside b₀ (Nat.le_of_lt hab) hgt) hbehind
      · refine .inr ⟨?_, hrun⟩
        -- it starts neither in the gap nor inside the first run
        have hnotgap : ¬a < a₀ := fun hlt => hgap a hle hlt hS
        have hnotinside : ¬a < b₀ := by
          intro hlt
          exact hrun.before (a - 1) (by omega) (hinside (a - 1) (by omega) (by omega))
        omega

/-- Between two runs that follow each other there is at least one place, and none of the set. -/
theorem isChain (h : Groups S place runs) : runs.IsChain fun run run' =>
    run.2 < run'.1 ∧ S run'.1 ∧ ∀ i, run.2 ≤ i → i < run'.1 → ¬S i := by
  induction runs generalizing place with
  | nil => exact .nil
  | cons run runs ih =>
    obtain ⟨a, b⟩ := run
    obtain ⟨-, -, -, -, hbehind, hrest⟩ := h
    cases runs with
    | nil => exact .singleton _
    | cons run' runs =>
      obtain ⟨a', b'⟩ := run'
      obtain ⟨hle, hgap, hab, hinside, -⟩ := id hrest
      have hfirst : S a' := hinside a' (Nat.le_refl a') hab
      have hne : b ≠ a' := by
        rintro rfl
        exact hbehind hfirst
      exact .cons_cons ⟨Nat.lt_of_le_of_ne hle hne, hfirst, hgap⟩ (ih hrest)

end Groups

/-! ## §2. The runs of strays among the lexemes. -/

namespace Lexeme

/-- Where a run of strays lies in the text. -/
def runSpan (run : Position × List Char) : Nat × Nat :=
  (run.1.offset, run.1.offset + run.2.length)

/-- The character at `i` stands in a stray. -/
def StrayIn (ls : List Lexeme) (i : Nat) : Prop :=
  ∃ l ∈ ls, l.isStray ∧ l.start.offset ≤ i ∧ i < l.start.offset + l.text.length

theorem strayIn_cons {l : Lexeme} {ls : List Lexeme} {i : Nat} : StrayIn (l :: ls) i
    ↔ (l.isStray ∧ l.start.offset ≤ i ∧ i < l.start.offset + l.text.length) ∨ StrayIn ls i := by
  simp [StrayIn]

/-- Within a run, the next one is found behind it. -/
theorem strayRuns_true (ls : List Lexeme) :
    strayRuns true ls = strayRuns false (ls.dropWhile isStray) := by
  induction ls with
  | nil => rfl
  | cons l ls ih =>
    rw [strayRuns, List.dropWhile_cons]
    split
    · exact ih
    · next hl => rw [strayRuns, if_neg hl]

/-- Consecutive strays cover every place from the first to the last. -/
theorem strayIn_of_run {p : Position} {run : List Lexeme} (h : Consecutive p run)
    (hstrays : ∀ l ∈ run, l.isStray) {i : Nat} :
    StrayIn run i ↔ p.offset ≤ i ∧ i < p.offset + (run.flatMap text).length := by
  constructor
  · rintro ⟨l, hl, -, hlow, hhigh⟩
    have hwithin := h.within hl
    omega
  · rintro ⟨hlow, hhigh⟩
    obtain ⟨l, hl, hat⟩ := h.exists_mem_at hlow hhigh
    exact ⟨l, hl, hstrays l hl, hat⟩

/-- Behind a run stands a lexeme that is no stray, so the next stray is further on. -/
theorem lt_of_strayIn_dropWhile {p : Position} {ls : List Lexeme}
    (h : Consecutive p (ls.dropWhile isStray)) {i : Nat}
    (hi : StrayIn (ls.dropWhile isStray) i) : p.offset < i := by
  have hhead := List.head?_dropWhile_not isStray ls
  cases hrest : ls.dropWhile isStray with
  | nil => simp [hrest, StrayIn] at hi
  | cons l rest =>
    rw [hrest] at h hi hhead
    have hl : l.isStray = false := by simpa using hhead
    rcases strayIn_cons.mp hi with ⟨hstray, -⟩ | ⟨m, hm, -, hlow, -⟩
    · rw [hl] at hstray
      exact absurd hstray (by simp)
    · have hpos := List.length_pos_iff.mpr h.2.1
      have hwithin := (h.2.2.within hm).1
      rw [Position.advance_offset] at hwithin
      omega

/-- A run of strays in front of lexemes whose strays are grouped already.  These become one run,
since the next stray behind it is further off. -/
theorem groups_run {p : Position} {run rest : List Lexeme} {spans : List (Nat × Nat)}
    (hrun : Consecutive p run) (hne : run.flatMap text ≠ []) (hstrays : ∀ l ∈ run, l.isStray)
    (hfar : ∀ i, StrayIn rest i → (p.advance (run.flatMap text)).offset < i)
    (hrest : Groups (StrayIn rest) (p.advance (run.flatMap text)).offset spans) :
    Groups (StrayIn (run ++ rest)) p.offset
      (runSpan (p, run.flatMap text) :: spans) := by
  have hin := fun i => strayIn_of_run (i := i) hrun hstrays
  have hpos := List.length_pos_iff.mpr hne
  generalize run.flatMap text = chars at *
  rw [Position.advance_offset] at hfar hrest
  -- strays are those of the run, which are all of its characters, and those behind it
  have hboth : ∀ i, StrayIn (run ++ rest) i
      ↔ (p.offset ≤ i ∧ i < p.offset + chars.length) ∨ StrayIn rest i := by
    intro i
    rw [← hin]
    simp [StrayIn, or_and_right, exists_or]
  refine ⟨Nat.le_refl _, fun i hlow hhigh => absurd hhigh (Nat.not_lt.mpr hlow), ?_, ?_, ?_,
    hrest.congr ?_⟩
  · exact Nat.lt_add_of_pos_right hpos
  · exact fun i hlow hhigh => (hboth i).mpr (.inl ⟨hlow, hhigh⟩)
  · rw [hboth]
    -- the character behind the run is no stray: the next ones are further off
    rintro (⟨-, hlt⟩ | hi)
    · exact absurd hlt (Nat.lt_irrefl _)
    · exact absurd (hfar _ hi) (Nat.lt_irrefl _)
  · intro i hi
    rw [hboth]
    refine ⟨.inr, fun h => h.resolve_left fun hlt => ?_⟩
    have hlow : p.offset + chars.length ≤ i := hi
    omega

/-- The runs of strays among lexemes are the runs of the characters in them.  A run of lexemes is
passed over as a whole, so this is by induction on how many of them are left. -/
theorem groups_strayRuns {p : Position} {ls : List Lexeme} (h : Consecutive p ls) :
    Groups (StrayIn ls) p.offset ((strayRuns false ls).map runSpan) := by
  -- on the number of lexemes: a run is passed over as a whole
  induction hn : ls.length using Nat.strongRecOn generalizing p ls with
  | _ n ih =>
    cases ls with
    | nil =>
      intro i _ hi
      simp [StrayIn] at hi
    | cons l ls =>
      obtain ⟨hstart, hne, htail⟩ := id h
      by_cases hl : l.isStray = true
      · have hsplit : (l :: ls.takeWhile isStray) ++ ls.dropWhile isStray = l :: ls := by
          rw [List.cons_append, List.takeWhile_append_dropWhile]
        rw [← hsplit] at h
        obtain ⟨hrun, hrest⟩ := consecutive_append.mp h
        have hfewer : (ls.dropWhile isStray).length < n := by
          have := (List.dropWhile_sublist (l := ls) isStray).length_le
          rw [← hn, List.length_cons]
          omega
        have hgroups := groups_run hrun
          (by simp [hne]) (List.forall_mem_cons.mpr ⟨hl, List.all_eq_true.mp List.all_takeWhile⟩)
          (fun i => lt_of_strayIn_dropWhile hrest) (ih _ hfewer hrest rfl)
        rw [hsplit] at hgroups
        rw [strayRuns, if_pos hl, if_neg (by simp), strayRuns_true, List.takeWhile_cons_of_pos hl,
          List.map_cons, hstart]
        exact hgroups
      · -- what an entry took is no stray, so the next run is further on
        have hgroups := ih ls.length (by simp [← hn]) htail rfl
        rw [Position.advance_offset] at hgroups
        have hsame : ∀ i, StrayIn ls i ↔ StrayIn (l :: ls) i := by
          intro i
          simp [strayIn_cons, hl]
        rw [strayRuns, if_neg hl]
        refine Groups.widen (Nat.le_add_right _ l.text.length) ?_
          (hgroups.congr fun i _ => hsame i)
        rintro i hlow hhigh hi
        obtain ⟨m, hm, -, hmlow, -⟩ := (hsame i).mpr hi
        have hwithin := (htail.within hm).1
        rw [Position.advance_offset] at hwithin
        omega

end Lexeme

/-! ## §3. The places at which the table is asked. -/

namespace Lexicon

variable {lexicon : Lexicon} {cs : List Char} {i : Nat}

/-- The places of a text at which an entry is looked for: the start, what follows the text that an
entry takes, and what follows a character that none takes. -/
inductive Visits (lexicon : Lexicon) (cs : List Char) : Nat → Prop where
  | start : Visits lexicon cs 0
  | taken {i n : Nat} {action : Action} : Visits lexicon cs i →
      lexicon.next (cs.drop i) = some (action, n) → Visits lexicon cs (i + n)
  | stray {i : Nat} : Visits lexicon cs i → i < cs.length → lexicon.next (cs.drop i) = none →
      Visits lexicon cs (i + 1)

/-- An entry is looked for at that character, and there is none. -/
structure StrayAt (lexicon : Lexicon) (cs : List Char) (i : Nat) : Prop where
  inside : i < cs.length
  visited : lexicon.Visits cs i
  unmatched : lexicon.next (cs.drop i) = none

/-- The character is one of those that an entry takes. -/
def TakenAt (lexicon : Lexicon) (cs : List Char) (i : Nat) : Prop :=
  ∃ place action n, lexicon.Visits cs place ∧ lexicon.next (cs.drop place) = some (action, n)
    ∧ place ≤ i ∧ i < place + n

/-- The place that counting the characters leads to. -/
theorem offset_advance_take (h : i ≤ cs.length) :
    (Position.start.advance (cs.take i)).offset = i := by
  rw [Position.advance_offset, List.length_take, Nat.min_eq_left h]
  exact Nat.zero_add i

/-- The place behind a piece of text. -/
theorem advance_take_add (n : Nat) :
    (Position.start.advance (cs.take i)).advance ((cs.drop i).take n)
      = Position.start.advance (cs.take (i + n)) := by
  rw [← Position.advance_append, ← List.take_add]

/-- One step of the cut at a character that no entry takes. -/
theorem cutFrom_of_unmatched (hi : i < cs.length) (h : lexicon.next (cs.drop i) = none)
    (p : Position) : lexicon.cutFrom 0 p (cs.drop i)
      = ⟨none, (cs.drop i).take 1, p⟩
        :: lexicon.cutFrom 0 (p.advance ((cs.drop i).take 1)) (cs.drop (i + 1)) := by
  rw [List.drop_eq_getElem_cons hi] at h ⊢
  rw [cutFrom, h]
  rfl

/-- From a place that is visited on, the cut is that of the rest of the text. -/
theorem Visits.cut_eq (h : lexicon.Visits cs i) : i ≤ cs.length ∧ ∃ before, lexicon.cut cs
    = before ++ lexicon.cutFrom 0 (Position.start.advance (cs.take i)) (cs.drop i) := by
  induction h with
  | start => exact ⟨Nat.zero_le _, [], rfl⟩
  | @taken i n action _ hnext ih =>
    obtain ⟨hi, before, hcut⟩ := ih
    have hle := (next_pos hnext).2
    rw [List.length_drop] at hle
    rw [cutFrom_of_next hnext, advance_take_add, List.drop_drop] at hcut
    exact ⟨by omega, before ++ [_], by rw [hcut, List.append_assoc]; rfl⟩
  | @stray i _ hi hnext ih =>
    obtain ⟨-, before, hcut⟩ := ih
    rw [cutFrom_of_unmatched hi hnext, advance_take_add] at hcut
    exact ⟨hi, before ++ [_], by rw [hcut, List.append_assoc]; rfl⟩

/-- A lexeme starts at a place that is visited, and is what the table says there.  By induction on
how much of the text is left, lexeme by lexeme. -/
theorem Visits.of_mem_cutFrom (h : lexicon.Visits cs i) {l : Lexeme}
    (hl : l ∈ lexicon.cutFrom 0 (Position.start.advance (cs.take i)) (cs.drop i)) :
    lexicon.Visits cs l.start.offset
      ∧ lexicon.next (cs.drop l.start.offset)
        = l.action.map fun action => (action, l.text.length) := by
  -- on how much of the text is left
  induction hn : cs.length - i using Nat.strongRecOn generalizing i with
  | _ n ih =>
    have hoffset := offset_advance_take h.cut_eq.1
    by_cases hi : i < cs.length
    · cases hnext : lexicon.next (cs.drop i) with
      | none =>
        rw [cutFrom_of_unmatched hi hnext, advance_take_add] at hl
        rcases List.mem_cons.mp hl with rfl | hl
        · show lexicon.Visits cs (Position.start.advance _).offset
            ∧ lexicon.next (cs.drop (Position.start.advance _).offset) = none
          rw [hoffset]
          exact ⟨h, hnext⟩
        · exact ih _ (by omega) (.stray h hi hnext) hl rfl
      | some taken =>
        obtain ⟨action, m⟩ := taken
        obtain ⟨hpos, hle⟩ := next_pos hnext
        rw [cutFrom_of_next hnext, advance_take_add, List.drop_drop] at hl
        rcases List.mem_cons.mp hl with rfl | hl
        · show lexicon.Visits cs (Position.start.advance _).offset
            ∧ lexicon.next (cs.drop (Position.start.advance _).offset)
              = some (action, ((cs.drop i).take m).length)
          rw [hoffset, List.length_take, Nat.min_eq_left hle]
          exact ⟨h, hnext⟩
        · exact ih _ (by omega) (.taken h hnext) hl rfl
    · rw [List.drop_eq_nil_of_le (by omega)] at hl
      simp [cutFrom] at hl

/-- The strays of the cut are the places at which no entry is found.  A stray lexeme is a single
character, and starts at a place that the lexer visits. -/
theorem strayIn_cut_iff : Lexeme.StrayIn (lexicon.cut cs) i ↔ lexicon.StrayAt cs i := by
  constructor
  · rintro ⟨l, hl, hstray, hlow, hhigh⟩
    obtain ⟨c, rest, htext, -⟩ := exists_char_of_stray hl hstray
    obtain ⟨hvisits, hnext⟩ := Visits.of_mem_cutFrom .start hl
    have hwithin := ((lexicon.consecutive_cut cs).within hl).2
    rw [flatMap_text_cut] at hwithin
    -- a stray is a single character
    have hone : l.text.length = 1 := by rw [htext]; rfl
    obtain rfl : l.start.offset = i := by omega
    refine ⟨?_, hvisits, ?_⟩
    · have hstart : Position.start.offset = 0 := rfl
      omega
    · have haction : l.action = none := Option.isNone_iff_eq_none.mp hstray
      rw [hnext, haction]
      rfl
  · rintro ⟨hi, hvisits, hnext⟩
    obtain ⟨hle, before, hcut⟩ := hvisits.cut_eq
    rw [cutFrom_of_unmatched hi hnext] at hcut
    refine ⟨⟨none, (cs.drop i).take 1, Position.start.advance (cs.take i)⟩, by simp [hcut], rfl, ?_⟩
    show (Position.start.advance _).offset ≤ i
      ∧ i < (Position.start.advance _).offset + ((cs.drop i).take 1).length
    rw [offset_advance_take hle, List.length_take, List.length_drop]
    omega

/-- A character that is no stray is taken by an entry. -/
theorem takenAt_of_not_strayAt (hi : i < cs.length) (h : ¬lexicon.StrayAt cs i) :
    lexicon.TakenAt cs i := by
  have hcut := lexicon.consecutive_cut cs
  have htext := lexicon.flatMap_text_cut cs
  obtain ⟨l, hl, hlow, hhigh⟩ :=
    hcut.exists_mem_at (Nat.zero_le i) (by rw [htext]; simpa [Position.start] using hi)
  obtain ⟨hvisits, hnext⟩ := Visits.of_mem_cutFrom .start hl
  cases haction : l.action with
  | none =>
    have hstray : l.isStray = true := by simp [Lexeme.isStray, haction]
    exact absurd (strayIn_cut_iff.mp ⟨l, hl, hstray, hlow, hhigh⟩) h
  | some action =>
    rw [haction] at hnext
    exact ⟨l.start.offset, action, l.text.length, hvisits, hnext, hlow, hhigh⟩

/-! ## §4. The diagnostics of a text. -/

/-- The diagnostic about a stretch of the text. -/
def reportOf (cs : List Char) (span : Nat × Nat) : Diagnostic :=
  .unrecognised (String.ofList (stretch cs span.1 span.2)) (lineAt cs span.1) (columnAt cs span.1)

/-- The diagnostics are the longest runs of strays, in the order of the text, and everything
between two of them was taken by an entry. -/
def ReportsRuns (lexicon : Lexicon) (cs : List Char) (errors : List Diagnostic) : Prop :=
  ∃ runs : List (Nat × Nat), errors = runs.map (reportOf cs)
    ∧ (∀ a b, (a, b) ∈ runs ↔ LongestRun (lexicon.StrayAt cs) a b)
    ∧ runs.IsChain fun run run' => run.2 < run'.1
        ∧ ∀ i, run.2 ≤ i → i < run'.1 → lexicon.TakenAt cs i

/-- A run is reported with its characters, and with the place of the first one. -/
theorem reportOf_runSpan {run : Position × List Char}
    (hrun : run ∈ Lexeme.strayRuns false (lexicon.cut cs)) :
    reportOf cs (Lexeme.runSpan run)
      = .unrecognised (String.ofList run.2) run.1.line run.1.column := by
  obtain ⟨before, first, more, after, hcut, rfl, -⟩ := Lexeme.exists_run_of_mem_strayRuns hrun
  obtain ⟨front, back, hcs, hconsecutive⟩ := exists_split_of_cut_eq hcut
  have hstart := hconsecutive.1
  generalize (first :: more).flatMap Lexeme.text = text at hcs
  have hplace := Position.start_advance_eq front (text ++ back)
  have hstretch := stretch_append front text back
  rw [← List.append_assoc] at hplace
  rw [← hcs] at hplace hstretch
  rw [hplace] at hstart
  simp only [reportOf, Lexeme.runSpan, hstart, hstretch]

/-- Whatever the table and whatever the source, the errors are the reports of the longest runs. -/
theorem reportsRuns_tokenize (lexicon : Lexicon) (source : String) :
    lexicon.ReportsRuns source.toList (lexicon.tokenize source).errors := by
  have hgroups : Groups (lexicon.StrayAt source.toList) 0
      ((Lexeme.strayRuns false (lexicon.cut source.toList)).map Lexeme.runSpan) :=
    (Lexeme.groups_strayRuns (lexicon.consecutive_cut source.toList)).congr
      fun _ _ => strayIn_cut_iff
  refine ⟨(Lexeme.strayRuns false (lexicon.cut source.toList)).map Lexeme.runSpan, ?_, ?_, ?_⟩
  · rw [List.map_map]
    exact List.map_congr_left fun run hrun => (reportOf_runSpan hrun).symm
  · intro a b
    rw [hgroups.mem_iff (.inl rfl)]
    simp
  · refine hgroups.isChain.imp fun run run' hgap => ?_
    obtain ⟨hlt, hfirst, hnone⟩ := hgap
    refine ⟨hlt, fun i hlow hhigh => takenAt_of_not_strayAt ?_ (hnone i hlow hhigh)⟩
    exact Nat.lt_trans hhigh hfirst.inside

/-- A table that skips blanks reports none of them.  At a blank the table has an entry, so no stray
is one. -/
theorem not_isBlank_of_mem_errors (hskips : lexicon.SkipsBlanks) {source : String} {d : Diagnostic}
    (hd : d ∈ (lexicon.tokenize source).errors) :
    ∃ text, d.text = some text ∧ ∀ c ∈ text.toList, Text.isBlank c = false := by
  obtain ⟨run, hrun, rfl⟩ := List.mem_map.mp hd
  obtain ⟨before, first, more, after, hcut, rfl, hstrays⟩ :=
    Lexeme.exists_run_of_mem_strayRuns hrun
  refine ⟨String.ofList ((first :: more).flatMap Lexeme.text), rfl, ?_⟩
  intro c hc
  rw [String.toList_ofList] at hc
  obtain ⟨l, hl, hc⟩ := List.mem_flatMap.mp hc
  have hmem : l ∈ lexicon.cut source.toList := by
    rw [hcut]
    exact List.mem_append_left _ (List.mem_append_right _ hl)
  obtain ⟨d, rest, htext, hnone⟩ := exists_char_of_stray hmem (hstrays l hl)
  rw [htext, List.mem_singleton] at hc
  subst hc
  rw [Bool.eq_false_iff]
  intro hblank
  rw [next_blank hskips hblank] at hnone
  simp at hnone

end Lexicon

/-- **What is reported are the longest runs of strays.**  Whatever the table, there is one
diagnostic for each of them, in the order of the text, with its characters and the place of the
first one, and every character between two of them was taken by an entry.  In the braced dialect no
diagnostic has a blank in its text, and in the worded dialect there is none. -/
theorem errors_are_longest_runs :
    (∀ (lexicon : Lexicon) (source : String),
      lexicon.ReportsRuns source.toList (lexicon.tokenize source).errors)
    ∧ (∀ source : String, ∀ d ∈ (Braced.lexicon.tokenize source).errors,
      ∃ text, d.text = some text ∧ ∀ c ∈ text.toList, Text.isBlank c = false)
    ∧ ∀ source : String, (Worded.lexicon.tokenize source).errors = [] :=
  ⟨Lexicon.reportsRuns_tokenize,
    fun _ _ => Lexicon.not_isBlank_of_mem_errors Braced.lexicon_separates.skipsBlanks,
    Lexicon.errors_eq_nil Worded.lexicon_takesEverything⟩

/-- Strays around a name, and the opening of a comment that is never closed at the end. -/
def strays : String :=
  "#$ a% /*"

/-- The two signs side by side are one run, the others one each.  The opening of the comment is
reported as it is, since nothing closes it, and it has no blank in it. -/
theorem strays_reported :
    (Braced.lexicon.tokenize strays).errors
        = [.unrecognised "#$" 1 1, .unrecognised "%" 1 5, .unrecognised "/*" 1 7]
      ∧ Braced.lexicon.ReportsRuns strays.toList
        [.unrecognised "#$" 1 1, .unrecognised "%" 1 5, .unrecognised "/*" 1 7]
      ∧ ∀ c ∈ "/*".toList, Text.isBlank c = false := by
  have herrors : (Braced.lexicon.tokenize strays).errors
      = [.unrecognised "#$" 1 1, .unrecognised "%" 1 5, .unrecognised "/*" 1 7] := by
    decide +kernel
  obtain ⟨hruns, hblank, -⟩ := errors_are_longest_runs
  obtain ⟨text, htext, hnot⟩ := hblank strays (.unrecognised "/*" 1 7) (by simp [herrors])
  obtain rfl : "/*" = text := Option.some.inj htext
  exact ⟨herrors, herrors ▸ hruns Braced.lexicon strays, hnot⟩

end RobotLang
