/-
  RobotLang.Proofs.Relayout
  ─────────────────────────
  **LAYOUT AND COMMENTS DO NOT MATTER.**

  Two sources with the same words, however they are laid out, whatever comments
  they have and whatever is skipped between the words, are the same program
  (`Dialect.relayout_keeps_results`):

      dialect.parse     trees of the same shape, or the same complaints
      dialect.compile   the same code but for the operands of `LINE`,
                        or the same complaints

  where complaints are the same if they differ in lines and columns only.

  Both sources are compared with what the grammar makes of their words alone: a
  grammar does not look at places (`exchanges_program`), places only reach the
  lines of the code (`Program.lower_unplaced`), and linking does not look at
  lines (`alike_link`).
-/
import RobotLang.Proofs.Fragment.Unplaced
import RobotLang.Proofs.Reprinting

namespace RobotLang

open Rule Exchange

/-! ## §1. Runs on the same words. -/

/-- Sources with the same words have the same tokens, in other places. -/
theorem Lexicon.map_unplaced_tokens {lexicon : Lexicon} {source source' : String}
    (hwords : (lexicon.tokenize source).tokens.map Token.word
      = (lexicon.tokenize source').tokens.map Token.word) :
    (lexicon.tokenize source).tokens.map unplaced
      = (lexicon.tokenize source').tokens.map unplaced :=
  map_unplaced_eq hwords (fun _ => inserted_eq_false_of_mem_tokens)
    (fun _ => inserted_eq_false_of_mem_tokens)

/-- Complaints about exchanged tokens are the same without their places. -/
theorem map_unplaced_of_exchanged {ds ds' : List Diagnostic}
    (h : List.Forall₂ (Diagnostic.Exchanged unplaced) ds ds') :
    ds.map Diagnostic.unplaced = ds'.map Diagnostic.unplaced := by
  rw [← List.forall₂_eq_eq_eq, List.forall₂_map_left_iff, List.forall₂_map_right_iff]
  refine h.imp fun _ _ hd => ?_
  cases hd
  rfl

/-- The outcomes are the same, in other places. -/
structure Rule.Outcome.Alike {α : Type} (f : α → α) (o o' : Outcome α) : Prop where
  result : o.result.map f = o'.result.map f
  complaints : o.complaints.map Diagnostic.unplaced = o'.complaints.map Diagnostic.unplaced

/-- A rule that goes along with an exchange ends alike on the tokens of sources with the same
words. -/
theorem alike_run {α : Type} {rule : Rule α} {f : α → α} {lexicon : Lexicon}
    {source source' : String} (hend : lexicon.EmitsNoEnd)
    (hrule : ∀ s, Exchanges unplaced f s rule rule) (label : Kind → String)
    (recovery sensorParens : Bool)
    (hwords : (lexicon.tokenize source).tokens.map Token.word
      = (lexicon.tokenize source').tokens.map Token.word) :
    Outcome.Alike f
      (rule.run label recovery sensorParens (lexicon.tokenize source).tokens)
      (rule.run label recovery sensorParens (lexicon.tokenize source').tokens) := by
  -- both are exchanged for one run, on words without places
  obtain ⟨o, hrun, hrun'⟩ := exists_exchanged_run hend hrule label recovery sensorParens
    (Lexicon.map_unplaced_tokens hwords)
  exact ⟨hrun.result.symm.trans hrun'.result, (map_unplaced_of_exchanged hrun.complaints).trans
    (map_unplaced_of_exchanged hrun'.complaints).symm⟩

/-! ## §2. The braced dialect. -/

namespace Braced

/-- Sources with the same words are parsed to the same tree, in other places.  Erasing places is an
exchange of tokens, and the rules of the grammar commute with those. -/
theorem alike_parse {source source' : String}
    (hlexed : (lexicon.tokenize source).errors = [])
    (hlexed' : (lexicon.tokenize source').errors = [])
    (hwords : (lexicon.tokenize source).tokens.map Token.word
      = (lexicon.tokenize source').tokens.map Token.word) :
    Alike (fun parsed parsed' : Parsed Program =>
        parsed.program.map unplaced = parsed'.program.map unplaced)
      (parse source) (parse source') := by
  obtain ⟨hresult, hcomplaints⟩ := alike_run lexicon_emitsNoEnd (fun _ => exchanges_program)
    lexicon.label false true hwords
  simp only [parse, hlexed, hlexed', parseTokens]
  generalize program.run _ _ _ (lexicon.tokenize source).tokens = o at hresult hcomplaints ⊢
  generalize program.run _ _ _ (lexicon.tokenize source').tokens = o' at hresult hcomplaints ⊢
  obtain ⟨result, rest, complaints⟩ := o
  obtain ⟨result', rest', complaints'⟩ := o'
  cases result with
  | none =>
    obtain rfl : result' = none := Option.map_eq_none_iff.mp hresult.symm
    exact .error rfl hcomplaints
  | some p =>
    obtain ⟨p', rfl, hp⟩ := Option.map_eq_some_iff.mp hresult.symm
    cases complaints with
    | nil =>
      obtain rfl : complaints' = [] := List.map_eq_nil_iff.mp hcomplaints.symm
      exact .ok hp.symm
    | cons =>
      cases complaints' with
      | nil => cases hcomplaints
      | cons => exact .error rfl hcomplaints

end Braced

/-! ## §3. The worded dialect. -/

namespace Worded

/-- Whether a complaint is harmless shows in its words, not in its place. -/
theorem isHarmless_unplaced (d : Diagnostic) : isHarmless d.unplaced = isHarmless d := by
  obtain ⟨issue, location⟩ := d
  cases location <;> rfl

/-- Whether a complaint is serious does not depend on its place. -/
theorem map_unplaced_serious (ds : List Diagnostic) :
    (serious ds).map Diagnostic.unplaced = serious (ds.map Diagnostic.unplaced) := by
  unfold serious
  rw [List.filter_map]
  congr 2
  funext d
  exact congrArg not (isHarmless_unplaced d).symm

/-- Sources with the same words are parsed to the same tree, in other places.  Erasing places is an
exchange of tokens, with which the rules of the grammar commute; and settling a tree moves places
only. -/
theorem alike_parse {source source' : String}
    (hwords : (lexicon.tokenize source).tokens.map Token.word
      = (lexicon.tokenize source').tokens.map Token.word) :
    Alike (fun parsed parsed' : Parsed Program =>
        parsed.program.map unplaced = parsed'.program.map unplaced)
      (parse source) (parse source') := by
  obtain ⟨hresult, hcomplaints⟩ := alike_run lexicon_emitsNoEnd (fun _ => exchanges_program)
    lexicon.label true false hwords
  have hserious := congrArg serious hcomplaints
  rw [← map_unplaced_serious, ← map_unplaced_serious] at hserious
  -- a settled tree differs in places from the one that was read
  have hsettled (b : Bool) (p : Program) :
      Program.map unplaced (if b then p else p.settle) = p.map unplaced := by
    cases b with
    | true => rfl
    | false => exact p.map_settle
  simp only [parse, Lexicon.errors_eq_nil lexicon_takesEverything, parseTokens]
  generalize program.run _ _ _ (lexicon.tokenize source).tokens = o
    at hresult hcomplaints hserious ⊢
  generalize program.run _ _ _ (lexicon.tokenize source').tokens = o'
    at hresult hcomplaints hserious ⊢
  obtain ⟨result, rest, complaints⟩ := o
  obtain ⟨result', rest', complaints'⟩ := o'
  dsimp only at hresult hcomplaints hserious ⊢
  cases result with
  | none =>
    obtain rfl : result' = none := Option.map_eq_none_iff.mp hresult.symm
    exact .error rfl hcomplaints
  | some p =>
    obtain ⟨p', rfl, hp⟩ := Option.map_eq_some_iff.mp hresult.symm
    generalize serious complaints = ds at hserious ⊢
    generalize serious complaints' = ds' at hserious ⊢
    cases ds with
    | nil =>
      obtain rfl : ds' = [] := List.map_eq_nil_iff.mp hserious.symm
      refine .ok ?_
      dsimp only
      rw [hsettled, hsettled, hp]
    | cons =>
      cases ds' with
      | nil => cases hserious
      | cons => exact .error rfl hserious

end Worded

/-! ## §4. Both dialects. -/

/-- **Layout and comments do not matter.**  If two sources without stray characters have the same
words, each of the same kind and written alike, then both are parsed, to trees of the same shape,
or neither is, for the same complaints; and both are compiled, to code that differs in the operands
of `LINE` only, or neither is, for the same complaints.  The same complaints have the same message
and differ in lines and columns only. -/
theorem Dialect.relayout_keeps_results {dialect : Dialect} {source source' : String}
    (hlexed : (dialect.tokenize source).errors = [])
    (hlexed' : (dialect.tokenize source').errors = [])
    (hwords : (dialect.tokenize source).tokens.map Token.word
      = (dialect.tokenize source').tokens.map Token.word) :
    Alike (fun parsed parsed' => parsed.program.shape = parsed'.program.shape)
        (dialect.parse source) (dialect.parse source')
      ∧ Alike (List.Forall₂ Opcode.SameButLine)
        (dialect.compile source) (dialect.compile source') := by
  cases dialect with
  | braced =>
    have hparse := Braced.alike_parse hlexed hlexed' hwords
    refine ⟨hparse.map fun parsed parsed' h => ?_, hparse.bind fun parsed parsed' h => ?_⟩
    · rw [← shape_map_unplaced, ← Braced.Program.view_map, h, Braced.Program.view_map,
        shape_map_unplaced]
    · refine alike_link ?_ false
      rw [← Braced.Program.lower_unplaced, h, Braced.Program.lower_unplaced]
  | worded =>
    have hparse := Worded.alike_parse hwords
    refine ⟨hparse.map fun parsed parsed' h => ?_, hparse.bind fun parsed parsed' h => ?_⟩
    · rw [← shape_map_unplaced, ← Worded.Program.view_map, h, Worded.Program.view_map,
        shape_map_unplaced]
    · refine alike_link ?_ true
      rw [← Worded.Program.lower_unplaced, h, Worded.Program.lower_unplaced]

/-- A program on one line, with a `;` missing before its closing word. -/
def unadorned : String :=
  "iniciar-programa inicia-ejecución avanza termina-ejecución finalizar-programa"

/-- The same program on several lines, with comments and with a character that is skipped. -/
def adorned : String :=
  "(*ida*)\niniciar-programa\n\ninicia-ejecución ?\n\tavanza\x7bvuelta\x7d\n"
    ++ "termina-ejecución\nfinalizar-programa\n"

/-- A program in one line and the same words on several lines, with comments and a character that is
skipped: both are parsed to trees of one shape, and compiled to the same code up to lines. -/
theorem adorned_alike :
    (Dialect.worded.tokenize unadorned).errors = []
      ∧ (Dialect.worded.tokenize adorned).errors = []
      ∧ (Dialect.worded.tokenize unadorned).tokens.map Token.word
        = (Dialect.worded.tokenize adorned).tokens.map Token.word
      ∧ Alike (fun parsed parsed' => parsed.program.shape = parsed'.program.shape)
        (Dialect.worded.parse unadorned) (Dialect.worded.parse adorned)
      ∧ Alike (List.Forall₂ Opcode.SameButLine)
        (Dialect.worded.compile unadorned) (Dialect.worded.compile adorned) := by
  have hlexed (source : String) : (Dialect.worded.tokenize source).errors = [] :=
    Lexicon.errors_eq_nil Worded.lexicon_takesEverything source
  have hwords : (Dialect.worded.tokenize unadorned).tokens.map Token.word
      = (Dialect.worded.tokenize adorned).tokens.map Token.word := by decide +kernel
  exact ⟨hlexed _, hlexed _, hwords,
    Dialect.relayout_keeps_results (hlexed _) (hlexed _) hwords⟩

end RobotLang
