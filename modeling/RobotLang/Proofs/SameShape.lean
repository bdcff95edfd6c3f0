/-
  RobotLang.Proofs.SameShape
  ──────────────────────────
  **TREES OF THE SAME SHAPE ARE THE SAME PROGRAM.**

  The shape of a tree leaves out where its tokens stand, and also of what kind
  they are, which numbers, actions and sensors they mean, and where a rule has
  no child in some role.  None of it is lost.  In either dialect, two accepted
  sources whose trees have the same shape are lowered to the same functions and
  the same entry, apart from lines (`Dialect.shape_determines_code`).

      shape  ⟶  texts of the tokens      they can be read off (`Node.texts_shape`)
             ⟶  words                    a text stands for tokens of one kind only
             ⟶  tree, without places     the grammar reads it from its words
             ⟶  code, without lines      `Program.lower_unplaced`

  In the worded dialect the tokens of a tree are not those of its source: there
  are tokens that were put in, and others that were dropped.  But the tree is read
  again from its own tokens once they stand in a source, and the code of a token
  that was put in is that of one which stands there (`Program.lower_present`).
-/
import RobotLang.Proofs.Fragment.Replaced
import RobotLang.Proofs.Fragment.Unplaced
import RobotLang.Proofs.Legibility
import RobotLang.Proofs.Reprinting

namespace RobotLang

open Rule Exchange

/-! ## §1. From the shape to the words. -/

/-- The token can be known by how it is shown in a shape. -/
structure Token.Shown (lexicon : Lexicon) (t : Token) : Prop where
  stands : lexicon.Stands t.kind t.image.toList
  clear : t.Clear
  legible : LegibleText (Forest.bareToken t)

/-- A text is a token of one kind only. -/
theorem Lexicon.Stands.kind_unique {lexicon : Lexicon} {kind kind' : Kind} {text : List Char}
    (h : lexicon.Stands kind text) (h' : lexicon.Stands kind' text) : kind = kind' := by
  have hspaced : Spaced [] := by simp [Spaced]
  have hsame := (h [] hspaced).symm.trans (h' [] hspaced)
  simpa using hsame

section Tokens

variable {lexicon : Lexicon} {t u : Token}

/-- Only a token that was put in is shown as a mark, and all of these are `;`.  No token of a source
has a `<` in its text, so what is shown tells them apart. -/
theorem Token.Shown.image_eq (ht : t.Shown lexicon) (hu : u.Shown lexicon)
    (h : Forest.bareToken t = Forest.bareToken u) :
    t.inserted = u.inserted ∧ t.image = u.image := by
  have htclear := ht.clear
  have huclear := hu.clear
  have hmark : '<' ∈ "<inserted>".toList := by decide
  unfold Token.Clear at htclear huclear
  unfold Forest.bareToken at h
  by_cases htin : t.inserted = true <;> by_cases huin : u.inserted = true
  · rw [if_pos htin] at htclear
    rw [if_pos huin] at huclear
    exact ⟨htin.trans huin.symm, htclear.trans huclear.symm⟩
  · rw [if_neg huin] at huclear
    rw [if_pos htin, if_neg huin] at h
    exact absurd (h ▸ hmark) huclear
  · rw [if_neg htin] at htclear
    rw [if_neg htin, if_pos huin] at h
    exact absurd (h ▸ hmark) htclear
  · rw [if_neg htin, if_neg huin] at h
    rw [Bool.not_eq_true] at htin huin
    exact ⟨htin.trans huin.symm, String.toList_injective h⟩

/-- A token is known by what is shown of it, up to its place. -/
theorem Token.Shown.unplaced_eq (ht : t.Shown lexicon) (hu : u.Shown lexicon)
    (h : Forest.bareToken t = Forest.bareToken u) : unplaced t = unplaced u := by
  obtain ⟨hin, himage⟩ := ht.image_eq hu h
  have hkind := ht.stands
  rw [himage] at hkind
  exact RobotLang.unplaced_eq (Prod.ext (hkind.kind_unique hu.stands) himage) hin

/-- Trees of the same shape have the same tokens, in other places. -/
theorem map_unplaced_tokens_of_shape {node node' : Node} (hnode : node.Legible)
    (hnode' : node'.Legible) (ht : ∀ t ∈ node.tokens, t.Shown lexicon)
    (ht' : ∀ t ∈ node'.tokens, t.Shown lexicon) (hshape : node.shape = node'.shape) :
    node.tokens.map unplaced = node'.tokens.map unplaced := by
  have htexts : node.tokens.map Forest.bareToken = node'.tokens.map Forest.bareToken := by
    rw [← Node.texts_shape hnode fun t h => (ht t h).legible,
      ← Node.texts_shape hnode' fun t h => (ht' t h).legible, hshape]
  exact map_eq_map_of_map htexts fun t h u hu => (ht t h).unplaced_eq (ht' u hu)

/-- A token of a source is shown as it is written. -/
theorem Lexicon.Legible.bareToken_of_mem (h : lexicon.Legible) {source : String}
    (ht : t ∈ lexicon.bodyTokens source) : LegibleText (Forest.bareToken t) := by
  rw [Forest.bareToken, Lexicon.inserted_eq_false_of_mem ht]
  exact h.yields.of_mem ht

end Tokens

/-! ## §2. From the words to the tree. -/

/-- What a rule makes of the same words is the same, in other places. -/
theorem map_eq_of_ends {α : Type} {rule : Rule α} {f : α → α} {lexicon : Lexicon}
    {label : Kind → String} {recovery sensorParens : Bool} {source source' : String}
    {ts ts' : List Token} {a a' : α} (hend : lexicon.EmitsNoEnd)
    (hrule : ∀ s, Exchanges unplaced f s rule rule)
    (h : Ends rule (.forTokens label recovery sensorParens (lexicon.tokenize source).tokens)
      ts a [] [])
    (h' : Ends rule (.forTokens label recovery sensorParens (lexicon.tokenize source').tokens)
      ts' a' [] [])
    (hts : ts.map unplaced = ts'.map unplaced) : f a = f a' := by
  have hsetting := exchange_forTokens hend label recovery sensorParens source
  rw [← exchange_forTokens hend label recovery sensorParens source'] at hsetting
  obtain ⟨b, rest, hb, hfb, -⟩ := ends_of_exchanged hrule hsetting hts h
  rw [← hfb, (hb.unique h').1]

/-! ## §3. The braced dialect. -/

namespace Braced

theorem lexicon_legible : lexicon.Legible :=
  ⟨by decide +kernel, by decide⟩

/-- Accepted programs of the same shape have the same code, apart from lines.  The shape has the
words of the tree, and the tree is what is read from these words at any places. -/
theorem lower_of_shape {source source' : String} {parsed parsed' : Parsed Program}
    (h : parse source = .ok parsed) (h' : parse source' = .ok parsed')
    (hshape : parsed.program.view.shape = parsed'.program.view.shape) :
    parsed.program.lower.unplaced = parsed'.program.lower.unplaced := by
  obtain ⟨-, htokens⟩ := spelled_of_parse h
  obtain ⟨-, htokens'⟩ := spelled_of_parse h'
  have hshown {source : String} : ∀ t ∈ lexicon.bodyTokens source, t.Shown lexicon :=
    fun t ht => ⟨stands_of_mem ht, foreign_less.clear_of_mem ht,
      lexicon_legible.bareToken_of_mem ht⟩
  have hwords := map_unplaced_tokens_of_shape (Program.legible _) (Program.legible _)
    (htokens ▸ hshown) (htokens' ▸ hshown) hshape
  rw [htokens, htokens'] at hwords
  have htree : parsed.program.map unplaced = parsed'.program.map unplaced :=
    map_eq_of_ends lexicon_emitsNoEnd (fun _ => exchanges_program) (ends_of_parse h)
      (ends_of_parse h') hwords
  rw [← Program.lower_unplaced, htree, Program.lower_unplaced]

end Braced

/-! ## §4. The worded dialect. -/

namespace Worded

theorem lexicon_legible : lexicon.Legible :=
  ⟨by decide +kernel, by decide⟩

/-- Whether a token was put in does not matter to the code. -/
theorem Program.lower_present (p : Program) : (p.map Token.present).lower = p.lower :=
  Program.lower_map (f := Token.present) ⟨fun _ => rfl, fun _ => rfl, fun _ => rfl⟩ p

/-- Every token of a program that was read is shown as one of the table, or as a mark. -/
theorem shown_of_ends {source : String} {p : Program} {rest : List Token} {cs : List Diagnostic}
    (h : Ends program (sourceSetting source) (lexicon.bodyTokens source) p rest cs) :
    ∀ t ∈ p.view.tokens, t.Shown lexicon := by
  intro t ht
  obtain ⟨hstands, hclear⟩ := stands_of_ends h t ht
  refine ⟨hstands, hclear, ?_⟩
  obtain ⟨-, hreads, -⟩ := makes_program (endToken_kind _) h
  rcases hreads.mem_or_put ht with hmem | ⟨u, rfl⟩
  · exact lexicon_legible.bareToken_of_mem hmem
  · -- a mark is legible
    show LegibleText "<inserted>".toList
    decide

/-- Accepted programs of the same shape have the same code, apart from lines.  The shape has the
words of the tree, each tree is what is read again from its own words, and places do not matter to
either. -/
theorem lower_of_shape {source source' : String} {parsed parsed' : Parsed Program}
    (h : parse source = .ok parsed) (h' : parse source' = .ok parsed')
    (hshape : parsed.program.view.shape = parsed'.program.view.shape) :
    parsed.program.lower.unplaced = parsed'.program.lower.unplaced := by
  obtain ⟨p, rest, cs, hends, hread⟩ := exists_ends_map_of_parse h
  obtain ⟨p', rest', cs', hends', hread'⟩ := exists_ends_map_of_parse h'
  have hshape' : p.view.shape = p'.view.shape := by
    rw [← shape_map_unplaced, ← Program.view_map, ← hread, Program.view_map, shape_map_unplaced,
      hshape, ← shape_map_unplaced, ← Program.view_map, hread', Program.view_map,
      shape_map_unplaced]
  have hwords := map_unplaced_tokens_of_shape (Program.legible p) (Program.legible p')
    (shown_of_ends hends) (shown_of_ends hends') hshape'
  have hpresent : (p.view.tokens.map Token.present).map unplaced
      = (p'.view.tokens.map Token.present).map unplaced := by
    rw [List.map_map, List.map_map]
    exact map_eq_map_of_map hwords fun _ _ _ _ => congrArg Token.present
  -- both trees are read again from their own tokens
  have htree : (p.map Token.present).map unplaced = (p'.map Token.present).map unplaced :=
    map_eq_of_ends lexicon_emitsNoEnd (fun _ => exchanges_program)
      (ends_program_again (repairs_forTokens _) hends)
      (ends_program_again (repairs_forTokens _) hends') hpresent
  have hcode : p.lower.unplaced = p'.lower.unplaced := by
    rw [← Program.lower_present, ← Program.lower_unplaced, htree, Program.lower_unplaced,
      Program.lower_present]
  rw [← Program.lower_unplaced, hread, Program.lower_unplaced, hcode, ← Program.lower_unplaced,
    ← hread', Program.lower_unplaced]

end Worded

/-! ## §5. Both dialects. -/

theorem exists_ok_of_map_ok {ε α β : Type} {f : α → β} {r : Except ε α} {b : β}
    (h : r.map f = .ok b) : ∃ a, r = .ok a ∧ f a = b := by
  cases r with
  | error => cases h
  | ok a => exact ⟨a, rfl, Except.ok.inj h⟩

/-- **The shape of a tree determines its program.**  If two sources of a dialect are accepted and
their trees have the same shape, then what they give to link is the same, once the operands of
`LINE` and the lines of the declarations are erased.  So both are compiled, to code that differs
in the operands of `LINE` only, or neither is, for the same complaints in the same order, which
differ in lines and columns only. -/
theorem Dialect.shape_determines_code {dialect : Dialect} {source source' : String}
    {parsed parsed' : Parsed Node} (h : dialect.parse source = .ok parsed)
    (h' : dialect.parse source' = .ok parsed')
    (hshape : parsed.program.shape = parsed'.program.shape) :
    (∃ unlinked unlinked', dialect.lower source = .ok unlinked
        ∧ dialect.lower source' = .ok unlinked' ∧ unlinked.unplaced = unlinked'.unplaced)
      ∧ Alike (List.Forall₂ Opcode.SameButLine)
        (dialect.compile source) (dialect.compile source') := by
  cases dialect with
  | braced =>
    obtain ⟨p, hp, rfl⟩ := exists_ok_of_map_ok h
    obtain ⟨p', hp', rfl⟩ := exists_ok_of_map_ok h'
    have hcode := Braced.lower_of_shape hp hp' hshape
    refine ⟨⟨p.program.lower, p'.program.lower, ?_, ?_, hcode⟩, ?_⟩
    · rw [Dialect.lower, hp]
      rfl
    · rw [Dialect.lower, hp']
      rfl
    · show Alike _ (Braced.compile source) (Braced.compile source')
      rw [Braced.compile, Braced.compile, hp, hp']
      exact alike_link hcode false
  | worded =>
    obtain ⟨p, hp, rfl⟩ := exists_ok_of_map_ok h
    obtain ⟨p', hp', rfl⟩ := exists_ok_of_map_ok h'
    have hcode := Worded.lower_of_shape hp hp' hshape
    refine ⟨⟨p.program.lower, p'.program.lower, ?_, ?_, hcode⟩, ?_⟩
    · rw [Dialect.lower, hp]
      rfl
    · rw [Dialect.lower, hp']
      rfl
    · show Alike _ (Worded.compile source) (Worded.compile source')
      rw [Worded.compile, Worded.compile, hp, hp']
      exact alike_link hcode true

/-- A program with a closing word too many, which is dropped. -/
def overclosed : String :=
  "iniciar-programa inicia-ejecución avanza fin ; termina-ejecución finalizar-programa"

/-- The program without that word, on several lines. -/
def wellClosed : String :=
  "iniciar-programa\ninicia-ejecución\n  avanza;\ntermina-ejecución\nfinalizar-programa\n"

/-- Both trees have one shape, by running the parser on both. -/
theorem shape_overclosed : ((Dialect.worded.parse overclosed).toOption.bind fun parsed =>
    (Dialect.worded.parse wellClosed).toOption.map fun parsed' =>
      decide (parsed.program.rule = parsed'.program.rule
        ∧ parsed.program.children.shape = parsed'.program.children.shape)) = some true := by
  decide +kernel

/-- A program that lost a closing word has the shape of the one without it, so both are the same
code up to lines. -/
theorem overclosed_same_code :
    ∃ parsed parsed', Dialect.worded.parse overclosed = .ok parsed
      ∧ Dialect.worded.parse wellClosed = .ok parsed'
      ∧ parsed.program.shape = parsed'.program.shape
      ∧ (∃ unlinked unlinked', Dialect.worded.lower overclosed = .ok unlinked
        ∧ Dialect.worded.lower wellClosed = .ok unlinked'
        ∧ unlinked.unplaced = unlinked'.unplaced)
      ∧ Alike (List.Forall₂ Opcode.SameButLine)
        (Dialect.worded.compile overclosed) (Dialect.worded.compile wellClosed) := by
  have hshapes := shape_overclosed
  cases hparse : Dialect.worded.parse overclosed with
  | error failure =>
    rw [hparse] at hshapes
    cases hshapes
  | ok parsed =>
    cases hparse' : Dialect.worded.parse wellClosed with
    | error failure =>
      rw [hparse, hparse'] at hshapes
      cases hshapes
    | ok parsed' =>
      rw [hparse, hparse'] at hshapes
      obtain ⟨hrule, hchildren⟩ := of_decide_eq_true (Option.some.inj hshapes)
      have hshape : parsed.program.shape = parsed'.program.shape := by
        rw [Node.shape, hrule, hchildren, Node.shape]
      exact ⟨parsed, parsed', rfl, rfl, hshape,
        Dialect.shape_determines_code hparse hparse' hshape⟩

end RobotLang
