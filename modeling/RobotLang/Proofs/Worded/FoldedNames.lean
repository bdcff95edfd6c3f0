/-
  RobotLang.Proofs.Worded.FoldedNames
  ───────────────────────────────────
  **THE CASE OF NAMES DOES NOT MATTER.**

  Two sources of the worded dialect whose tokens differ in the case of names
  only are the same program (`names_ignore_case`).  Names are folded when code
  is made and not before, so every step on the way has to go along:

      grammar      looks at kinds (`exchanges_program`)
      acceptance   looks at the texts of closing words, and no name is one
      tree         is the same once its names are folded
      code         is made of folded names (`Program.lower_map`)

  A name like `FIN` is a closing word once it is folded.  So the runs of the two
  sources are compared twice: with all names made the same for what is
  complained about, and with folded names for the tree.
-/
import Mathlib.Tactic.MkIffOfInductiveProp
import RobotLang.Proofs.Fragment.Replaced
import RobotLang.Proofs.Reprinting
import RobotLang.Proofs.Worded.Acceptance

namespace RobotLang

open Rule

/-! ## §1. Small letters. -/

namespace Text

/-- A small letter has no other small letter. -/
theorem lowerChar_lowerChar (c : Char) : lowerChar (lowerChar c) = lowerChar c := by
  unfold lowerChar
  by_cases h : isCapital c = true
  · -- the ranges of capitals, moved by 32, meet none of them
    have hvalid : (c.toNat + 0x20).isValidChar := by
      simp only [isCapital, inRange, Bool.or_eq_true, Bool.and_eq_true, decide_eq_true_eq] at h
      exact .inl (by omega)
    have hsmall : isCapital (Char.ofNat (c.toNat + 0x20)) = false := by
      have hnat : (Char.ofNat (c.toNat + 0x20)).toNat = c.toNat + 0x20 := by
        rw [Char.ofNat, dif_pos hvalid]
        rfl
      simp only [isCapital, inRange, Bool.or_eq_true, Bool.and_eq_true, decide_eq_true_eq] at h
      simp only [isCapital, inRange, hnat, Bool.or_eq_false_iff, Bool.and_eq_false_iff,
        decide_eq_false_iff_not]
      omega
    rw [if_pos h, if_neg (by simp [hsmall])]
  · rw [if_neg h, if_neg h]

theorem lower_lower (s : String) : lower (lower s) = lower s := by
  unfold lower
  rw [String.toList_ofList, List.map_map]
  exact congrArg String.ofList (List.map_congr_left fun c _ => lowerChar_lowerChar c)

end Text

/-! ## §2. Tokens that differ in the case of names. -/

/-- The tokens stand on the same lines and are written alike, names apart, which may differ in
case. -/
@[mk_iff]
structure Token.SameButCase (t u : Token) : Prop where
  kind : t.kind = u.kind
  line : t.line = u.line
  endLine : t.endLine = u.endLine
  image : t.image = u.image ∨ t.kind = .identifier ∧ Text.lower t.image = Text.lower u.image

instance : DecidableRel Token.SameButCase :=
  fun _ _ => decidable_of_iff' _ (Token.sameButCase_iff _ _)

/-- Writes names otherwise, and forgets where on its lines a token stands. -/
def Exchange.renamed (rename : String → String) : Exchange where
  apply t :=
    { t with
      image := if t.kind = .identifier then rename t.image else t.image
      column := 0
      offset := 0
      endOffset := 0 }
  kind_apply _ := rfl
  image_apply _ h := if_neg (by simp [h])
  apply_insertedBefore _ _ := rfl

/-- Tokens that differ in the case of a name only are the same when that name is renamed in both. -/
theorem Token.SameButCase.renamed_eq {t u : Token} {rename : String → String}
    (h : t.SameButCase u) (hin : t.inserted = u.inserted)
    (hrename : t.kind = .identifier → Text.lower t.image = Text.lower u.image →
      rename t.image = rename u.image) :
    Exchange.renamed rename t = Exchange.renamed rename u := by
  have himage : (if u.kind = .identifier then rename t.image else t.image)
      = if u.kind = .identifier then rename u.image else u.image := by
    rcases h.image with heq | ⟨hname, hlower⟩
    · rw [heq]
    · rw [hrename hname hlower, if_pos (h.kind ▸ hname), if_pos (h.kind ▸ hname)]
  show Token.mk t.kind (if t.kind = .identifier then rename t.image else t.image)
      t.line 0 t.endLine 0 0 t.inserted
    = Token.mk u.kind (if u.kind = .identifier then rename u.image else u.image)
      u.line 0 u.endLine 0 0 u.inserted
  rw [h.kind, himage, h.line, h.endLine, hin]

namespace Worded

/-! ## §3. Runs on renamed tokens. -/

section Sources

variable {source source' : String}

/-- No name is a closing word. -/
theorem image_not_mem_closers {t : Token} (ht : t ∈ (lexicon.tokenize source).tokens)
    (hname : t.kind = .identifier) : t.image ∉ closers := by
  rw [Lexicon.tokenize_tokens, List.mem_append, List.mem_singleton] at ht
  rcases ht with ht | rfl
  · intro himage
    have hcloses := closesList_of_image ht himage
    simp [closesList, hname] at hcloses
  · cases hname

/-- Renaming that does not tell apart names of the two sources which differ in case makes their
tokens the same. -/
theorem map_renamed_tokens (rename : String → String)
    (h : List.Forall₂ Token.SameButCase (lexicon.tokenize source).tokens
      (lexicon.tokenize source').tokens)
    (hrename : ∀ t ∈ (lexicon.tokenize source).tokens, ∀ u ∈ (lexicon.tokenize source').tokens,
      t.kind = .identifier → u.kind = .identifier → Text.lower t.image = Text.lower u.image →
        rename t.image = rename u.image) :
    (lexicon.tokenize source).tokens.map (Exchange.renamed rename)
      = (lexicon.tokenize source').tokens.map (Exchange.renamed rename) := by
  rw [← List.forall₂_eq_eq_eq, List.forall₂_map_left_iff, List.forall₂_map_right_iff,
    List.forall₂_iff_zip]
  obtain ⟨hlength, hpairs⟩ := List.forall₂_iff_zip.mp h
  refine ⟨hlength, fun {t u} hmem => ?_⟩
  obtain ⟨ht, hu⟩ := List.of_mem_zip hmem
  have hsame := hpairs hmem
  refine hsame.renamed_eq ?_ fun hname => hrename t ht u hu hname (hsame.kind ▸ hname)
  rw [Lexicon.inserted_eq_false_of_mem_tokens ht, Lexicon.inserted_eq_false_of_mem_tokens hu]

/-- The grammar goes along with renaming. -/
theorem exists_renamed_run {rename : String → String}
    (h : (lexicon.tokenize source).tokens.map (Exchange.renamed rename)
      = (lexicon.tokenize source').tokens.map (Exchange.renamed rename)) :
    ∃ o, Exchanged (.renamed rename) (Program.map (Exchange.renamed rename))
        (program (sourceSetting source) (lexicon.bodyTokens source)) o
      ∧ Exchanged (.renamed rename) (Program.map (Exchange.renamed rename))
        (program (sourceSetting source') (lexicon.bodyTokens source')) o := by
  rw [← run_source, ← run_source]
  exact exists_exchanged_run lexicon_emitsNoEnd (fun _ => exchanges_program) _ _ _ h

end Sources

/-! ## §4. Acceptance. -/

/-- Writes all names alike, closing words apart. -/
def anyName (image : String) : String :=
  if image ∈ closers then image else ""

/-- Whether a complaint is harmless does not depend on names. -/
theorem isHarmless_of_exchanged {d d' : Diagnostic}
    (h : Diagnostic.Exchanged (.renamed anyName) d d') : isHarmless d' = isHarmless d := by
  obtain ⟨issue, t, expected⟩ := h
  have himage : closers.contains (Exchange.renamed anyName t).image = closers.contains t.image := by
    show closers.contains (if t.kind = .identifier then anyName t.image else t.image) = _
    by_cases hname : t.kind = .identifier
    · -- a closing word stays, and what other names become is none
      rw [if_pos hname, anyName]
      by_cases hcloser : t.image ∈ closers
      · rw [if_pos hcloser]
      · rw [if_neg hcloser]
        have hblank : closers.contains "" = false := by decide
        rw [hblank, eq_comm, Bool.eq_false_iff]
        simpa using hcloser
    · rw [if_neg hname]
  show (issue == .mismatchedToken && closers.contains (Exchange.renamed anyName t).image
      && expected == some [";"])
    = (issue == .mismatchedToken && closers.contains t.image && expected == some [";"])
  rw [himage]

/-- Renaming names makes no complaint serious, and none harmless. -/
theorem serious_eq_nil_of_exchanged {ds ds' : List Diagnostic}
    (h : List.Forall₂ (Diagnostic.Exchanged (.renamed anyName)) ds ds') :
    serious ds' = [] ↔ serious ds = [] := by
  unfold serious
  induction h with
  | nil => rfl
  | cons hd _ ih =>
    rw [List.filter_cons, List.filter_cons, isHarmless_of_exchanged hd]
    split
    · simp
    · exact ih

/-- What a source has to run to, to be accepted. -/
theorem accepted_iff_run {source : String} :
    (∃ parsed, parse source = .ok parsed)
      ↔ (program (sourceSetting source) (lexicon.bodyTokens source)).result.isSome
        ∧ serious (program (sourceSetting source) (lexicon.bodyTokens source)).complaints = [] := by
  simp only [parse, Lexicon.errors_eq_nil lexicon_takesEverything, parseTokens, run_source]
  generalize program (sourceSetting source) (lexicon.bodyTokens source) = o
  obtain ⟨result, rest, complaints⟩ := o
  cases result with
  | none => simp [Except.map]
  | some p =>
    dsimp only
    cases serious complaints <;> simp [Except.map]

/-! ## §5. Code. -/

/-- Folding names keeps what code is made from. -/
theorem keeps_folded : nameCase.Keeps (Exchange.renamed Text.lower) where
  name t := by
    show Text.lower (if t.kind = .identifier then Text.lower t.image else t.image)
      = Text.lower t.image
    split
    · exact Text.lower_lower t.image
    · rfl
  line _ := rfl
  endLine _ := rfl

/-- The code of an accepted program is that of the tree that was read, with its names folded. -/
theorem exists_ends_folded_of_parse {source : String} {parsed : Parsed Program}
    (h : parse source = .ok parsed) :
    ∃ p rest cs, Ends program (sourceSetting source) (lexicon.bodyTokens source) p rest cs
      ∧ parsed.program.lower = (p.map (Exchange.renamed Text.lower)).lower := by
  obtain ⟨p, rest, cs, hends, hp⟩ := exists_ends_of_parse h
  refine ⟨p, rest, cs, hends, ?_⟩
  rw [Program.lower_map keeps_folded]
  -- moving a `;` that was put in does not change the code
  rcases hp with hp | hp
  · rw [hp]
  · rw [hp, Program.lower_settle]

/-- **The case of names does not matter.**  If the tokens of two sources agree one by one in
kind, lines and text, but for names, which need only be the same in small letters, then both
sources are parsed or neither is.  And if they are, they give the same functions and the same entry
to link, so that both compile to the same program or fail for the same complaints. -/
theorem names_ignore_case {source source' : String}
    (h : List.Forall₂ Token.SameButCase (lexicon.tokenize source).tokens
      (lexicon.tokenize source').tokens) :
    ((∃ parsed, parse source = .ok parsed) ↔ ∃ parsed, parse source' = .ok parsed)
      ∧ ∀ parsed parsed', parse source = .ok parsed → parse source' = .ok parsed' →
        parsed.program.lower = parsed'.program.lower ∧ compile source = compile source' := by
  refine ⟨?_, fun parsed parsed' hparse hparse' => ?_⟩
  · -- names that are written alike do not change what is complained about
    obtain ⟨o, hrun, hrun'⟩ := exists_renamed_run (map_renamed_tokens anyName h
      fun t ht u hu hname hname' _ => by
        rw [anyName, if_neg (image_not_mem_closers ht hname), anyName,
          if_neg (image_not_mem_closers hu hname')])
    rw [accepted_iff_run, accepted_iff_run, ← serious_eq_nil_of_exchanged hrun.complaints,
      ← serious_eq_nil_of_exchanged hrun'.complaints, ← Option.isSome_map, ← hrun.result,
      hrun'.result, Option.isSome_map]
  · -- folded names do not change the code
    obtain ⟨o, hrun, hrun'⟩ := exists_renamed_run (map_renamed_tokens Text.lower h
      fun _ _ _ _ _ _ hlower => hlower)
    obtain ⟨p, rest, cs, hends, hcode⟩ := exists_ends_folded_of_parse hparse
    obtain ⟨p', rest', cs', hends', hcode'⟩ := exists_ends_folded_of_parse hparse'
    have hresult := hrun.result
    rw [hrun'.result, show program _ _ = _ from hends, show program _ _ = _ from hends'] at hresult
    have hlower : parsed.program.lower = parsed'.program.lower := by
      rw [hcode, hcode', Option.some.inj hresult]
    refine ⟨hlower, ?_⟩
    rw [compile, compile, hparse, hparse']
    exact congrArg (link · true) hlower

/-- A program with a function that calls itself, written with these names.  The `;` of the call in
its main part is missing. -/
def recursive (function param callee argument called : String) : String :=
  "iniciar-programa define-nueva-instrucción " ++ function ++ "(" ++ param ++ ")como " ++ callee
    ++ "(" ++ argument ++ ");inicia-ejecución " ++ called
    ++ "(2)termina-ejecución finalizar-programa"

/-- Its tokens, without places on the line. -/
def recursiveTokens (function param callee argument called : String) : List Token :=
  [(.beginProgram, "iniciar-programa"), (.define, "define-nueva-instrucción"),
    (.identifier, function), (.leftParen, "("), (.identifier, param), (.rightParen, ")"),
    (.as_, "como"), (.identifier, callee), (.leftParen, "("), (.identifier, argument),
    (.rightParen, ")"), (.semicolon, ";"), (.beginExecution, "inicia-ejecución"),
    (.identifier, called), (.leftParen, "("), (.integerLiteral, "2"), (.rightParen, ")"),
    (.endExecution, "termina-ejecución"), (.endProgram, "finalizar-programa"), (.eof, "")].map
    fun (kind, image) => ⟨kind, image, 1, 0, 1, 0, 0, false⟩

/-- A function named like a closing word, in capitals. -/
def capitals : String := recursive "FIN" "Ñ" "Fin" "ñ" "fIN"

def mixedCase : String := recursive "Fin" "ñ" "FIN" "Ñ" "fiN"

/-- The tokens of the first program, which is parsed. -/
theorem tokens_capitals : (lexicon.tokenize capitals).tokens.map (Exchange.renamed id)
      = recursiveTokens "FIN" "Ñ" "Fin" "ñ" "fIN"
    ∧ (parse capitals).toOption.isSome = true := by
  decide +kernel

theorem tokens_mixedCase : (lexicon.tokenize mixedCase).tokens.map (Exchange.renamed id)
    = recursiveTokens "Fin" "ñ" "FIN" "Ñ" "fiN" := by
  decide +kernel

/-- The tokens of the two samples agree one by one, but for the case of names. -/
theorem sameButCase_capitals : List.Forall₂ Token.SameButCase (lexicon.tokenize capitals).tokens
    (lexicon.tokenize mixedCase).tokens := by
  have hsame : List.Forall₂ Token.SameButCase (recursiveTokens "FIN" "Ñ" "Fin" "ñ" "fIN")
      (recursiveTokens "Fin" "ñ" "FIN" "Ñ" "fiN") := by
    simp [recursiveTokens, Token.sameButCase_iff, Text.lower, Text.lowerChar, Text.isCapital,
      Text.inRange]
  rw [← tokens_capitals.1, ← tokens_mixedCase, List.forall₂_map_left_iff,
    List.forall₂_map_right_iff] at hsame
  refine hsame.imp fun t u h => ⟨h.kind, h.line, h.endLine, ?_⟩
  simpa [Exchange.renamed] using h.image

/-- The first sample is accepted, by running the parser on its tokens. -/
theorem accepted_capitals : ∃ parsed, parse capitals = .ok parsed := by
  have haccepted := tokens_capitals.2
  generalize parse capitals = r at haccepted
  cases r with
  | error failure => cases haccepted
  | ok parsed => exact ⟨parsed, rfl⟩

/-- A function named like a closing word, in two mixtures of capitals and small letters: both are
accepted, and both are lowered and compiled to the same. -/
theorem capitals_mixedCase :
    List.Forall₂ Token.SameButCase (lexicon.tokenize capitals).tokens
        (lexicon.tokenize mixedCase).tokens
      ∧ ∃ parsed parsed', parse capitals = .ok parsed ∧ parse mixedCase = .ok parsed'
        ∧ parsed.program.lower = parsed'.program.lower ∧ compile capitals = compile mixedCase := by
  have hcase := names_ignore_case sameButCase_capitals
  obtain ⟨parsed, hparse⟩ := accepted_capitals
  obtain ⟨parsed', hparse'⟩ := hcase.1.mp ⟨parsed, hparse⟩
  exact ⟨sameButCase_capitals, parsed, parsed', hparse, hparse',
    hcase.2 parsed parsed' hparse hparse'⟩

end Worded
end RobotLang
