/-
  RobotLang.Proofs.Legibility
  ───────────────────────────
  **THE TOKENS OF A TREE CAN BE READ OFF ITS SHAPE.**

  A shape is one flat line, and the `(` and `)` in it may enclose a rule or be
  tokens:

      (clause LeftParen=( term=(term …) RightParen=))

  They can be told apart all the same.  A token or a rule follows every `=`, and
  `=` is in no text and in no name.  A `(` there is a token if a blank or a `)`
  comes next, since no rule has an empty name, and otherwise it opens a rule.
  Any other text goes on up to a blank or a `)`:

      texts node.shape.toList  =  node.tokens.map bareToken
-/
import RobotLang.Proofs.Lexing.Printing
import RobotLang.Proofs.Shape

namespace RobotLang

/-! ## §1. Reading texts. -/

/-- The character does not end the text before it. -/
def inText (c : Char) : Bool :=
  c != ' ' && c != ')'

/-- The token text at the head of `cs`, unless a rule stands there. -/
def textAt : List Char → Option (List Char)
  | [] => none
  | c :: cs =>
    let more := cs.takeWhile inText
    if c = '(' ∧ more ≠ [] then none else some (c :: more)

/-- The token texts of a shape. -/
def texts : List Char → List (List Char)
  | [] => []
  | c :: cs => if c = '=' then (textAt cs).toList ++ texts cs else texts cs

/-- The text can be told from what stands around it in a shape. -/
def LegibleText : List Char → Prop
  | [] => False
  | c :: more => '=' ∉ c :: more ∧ (c = '(' → more = []) ∧ more.all inText = true

instance : DecidablePred LegibleText := fun text => by
  cases text <;> unfold LegibleText <;> infer_instance

/-- The text before it ends here. -/
def Delimited (rest : List Char) : Prop :=
  ∃ c more, rest = c :: more ∧ inText c = false

section Reading

variable {text rest : List Char}

theorem Delimited.takeWhile_append (hrest : Delimited rest) (htext : text.all inText = true) :
    (text ++ rest).takeWhile inText = text := by
  obtain ⟨c, more, rfl, hc⟩ := hrest
  rw [List.takeWhile_append_of_pos (List.all_eq_true.mp htext), List.takeWhile_cons, hc]
  exact List.append_nil text

/-- A legible text is read off where it stands, up to what divides it from the rest. -/
theorem textAt_append (htext : LegibleText text) (hrest : Delimited rest) :
    textAt (text ++ rest) = some text := by
  cases text with
  | nil => exact absurd htext id
  | cons c more =>
    obtain ⟨-, hparen, hmore⟩ := htext
    rw [List.cons_append, textAt, hrest.takeWhile_append hmore, if_neg fun h => h.2 (hparen h.1)]

/-- Where a rule opens, there is no token. -/
theorem textAt_rule {name : String} (hname : LegibleName name) :
    textAt ('(' :: (name.toList ++ rest)) = none := by
  obtain ⟨hne, hplain⟩ := hname
  rw [textAt]
  refine if_pos ⟨rfl, ?_⟩
  cases hchars : name.toList with
  | nil => exact absurd hchars hne
  | cons c cs =>
    rw [hchars] at hplain
    have hc : inText c = true := by
      have hblank : ¬ ' ' = c := fun h => hplain ' ' (by decide) (h ▸ List.mem_cons_self)
      have hparen : ¬ ')' = c := fun h => hplain ')' (by decide) (h ▸ List.mem_cons_self)
      simp [inText, Ne.symm hblank, Ne.symm hparen]
    rw [List.cons_append, List.takeWhile_cons, hc]
    exact List.cons_ne_nil _ _

/-- What has no `=` is passed over. -/
theorem texts_append (htext : '=' ∉ text) : texts (text ++ rest) = texts rest := by
  induction text with
  | nil => rfl
  | cons c text ih =>
    rw [List.mem_cons, not_or] at htext
    rw [List.cons_append, texts, if_neg (Ne.symm htext.1), ih htext.2]

/-- A text has no `=` in it, so nothing is read from its inside. -/
theorem LegibleText.texts_append (htext : LegibleText text) :
    texts (text ++ rest) = texts rest := by
  cases text with
  | nil => exact absurd htext id
  | cons c more => exact RobotLang.texts_append htext.1

/-- After its role, what stands at the head is read. -/
theorem texts_role {role : String} (hrole : LegibleName role) :
    texts (' ' :: role.toList ++ '=' :: rest) = (textAt rest).toList ++ texts rest := by
  have hhead : '=' ∉ ' ' :: role.toList := by simpa using hrole.2 '=' (by decide)
  rw [texts_append hhead, texts, if_pos rfl]

end Reading

/-! ## §2. Reading shapes. -/

/-- A text before further children, or before the end of its rule, ends there. -/
theorem Forest.delimited_shape (g : Forest) {rest : List Char} (hrest : Delimited rest) :
    Delimited (g.shape ++ rest) := by
  cases g with
  | nil => exact hrest
  | leaf | branch => exact ⟨' ', _, rfl, by decide⟩

/-- Each leaf gives the text of its token, and each branch the texts below it; by induction on the
forest. -/
theorem Forest.texts_shape {g : Forest} (hg : g.Legible)
    (ht : ∀ t ∈ g.tokens, LegibleText (bareToken t)) {rest : List Char} (hrest : Delimited rest) :
    texts (g.shape ++ rest) = g.tokens.map bareToken ++ texts rest := by
  induction g generalizing rest with
  | nil => rfl
  | leaf role token more ih =>
    rw [tokens_leaf, List.forall_mem_cons] at ht
    have hmore := more.delimited_shape hrest
    calc texts ((Forest.leaf role token more).shape ++ rest)
        = texts (' ' :: role.toList ++ '=' :: (bareToken token ++ (more.shape ++ rest))) := by
          simp [shape]
      _ = [bareToken token] ++ texts (more.shape ++ rest) := by
          rw [texts_role hg.1, textAt_append ht.1 hmore, ht.1.texts_append]
          rfl
      _ = _ := by
          rw [ih hg.2 ht.2 hrest]
          rfl
  | branch role rule children more ihchildren ih =>
    rw [tokens_branch, List.forall_mem_append] at ht
    obtain ⟨hrole, hrule, hchildren, hmore⟩ := hg
    -- the name of a rule has no `=`, so no text is read off before its children
    have hname : '=' ∉ '(' :: rule.toList := by simpa using hrule.2 '=' (by decide)
    have hclose : Delimited ([')'] ++ (more.shape ++ rest)) := ⟨')', _, rfl, by decide⟩
    calc texts ((Forest.branch role rule children more).shape ++ rest)
        = texts (' ' :: role.toList ++ '=' :: ('(' :: rule.toList
            ++ (children.shape ++ ([')'] ++ (more.shape ++ rest))))) := by simp [shape]
      _ = texts (children.shape ++ ([')'] ++ (more.shape ++ rest))) := by
          rw [texts_role hrole, List.cons_append, textAt_rule hrule, ← List.cons_append,
            texts_append hname]
          rfl
      _ = children.tokens.map bareToken ++ (more.tokens.map bareToken ++ texts rest) := by
          rw [ihchildren hchildren ht.1 hclose, texts_append (by decide), ih hmore ht.2 hrest]
      _ = _ := by rw [tokens_branch, List.map_append, List.append_assoc]

/-- The texts that are read off the shape of a tree are those of its tokens. -/
theorem Node.texts_shape {node : Node} (hnode : node.Legible)
    (ht : ∀ t ∈ node.tokens, LegibleText (Forest.bareToken t)) :
    texts node.shape.toList = node.tokens.map Forest.bareToken := by
  have hname : '=' ∉ '(' :: node.rule.toList := by simpa using hnode.rule.2 '=' (by decide)
  unfold Node.shape
  rw [String.toList_ofList, List.append_assoc, texts_append hname,
    Forest.texts_shape hnode.children ht ⟨')', [], rfl, by decide⟩]
  exact List.append_nil _

/-! ## §3. Legible tokens. -/

/-- The characters that a shape is divided by. -/
def dividers : List Char := ['=', ' ', '(', ')']

/-- A text of characters none of which divides is legible.  Neither a blank nor a parenthesis can be
in it then. -/
theorem LegibleText.of_forall {p : Char → Bool} (hp : dividers.all (!p ·) = true)
    {text : List Char} (hne : text ≠ []) (htext : ∀ c ∈ text, p c = true) : LegibleText text := by
  have hnot {d : Char} (hd : d ∈ dividers) : d ∉ text := by
    intro hmem
    have hdivider := List.all_eq_true.mp hp d hd
    rw [htext d hmem] at hdivider
    exact absurd hdivider (by decide)
  cases text with
  | nil => exact absurd rfl hne
  | cons c more =>
    refine ⟨hnot (by decide), ?_, ?_⟩
    · rintro rfl
      exact absurd List.mem_cons_self (hnot (d := '(') (by decide))
    · refine List.all_eq_true.mpr fun d hd => ?_
      have hblank : d ≠ ' ' := by
        rintro rfl
        exact hnot (by decide) (List.mem_cons_of_mem _ hd)
      have hparen : d ≠ ')' := by
        rintro rfl
        exact hnot (by decide) (List.mem_cons_of_mem _ hd)
      simp [inText, hblank, hparen]

/-- What the pattern takes is legible, if names are. -/
def Pattern.legible : Pattern → Bool
  | .words spellings => spellings.all fun w => LegibleText w.toList
  | .digits | .name => true
  | .blanks | .toLineEnd _ | .enclosed _ _ | .anyChar => false

/-- The tokens that the entry makes are legible. -/
def Entry.legible (entry : Entry) : Bool :=
  match entry.action with
  | .emit _ => entry.pattern.legible
  | .skip | .comment _ => true

/-- Words are legible, and no name has a divider in it. -/
structure Lexicon.Legible (lexicon : Lexicon) : Prop where
  entries : lexicon.entries.all (·.legible) = true
  names : dividers.all (fun c => !(lexicon.names.start c || lexicon.names.continue_ c)) = true

/-- Every entry of a legible table yields legible texts. -/
theorem Lexicon.Legible.yields {lexicon : Lexicon} (h : lexicon.Legible) :
    lexicon.Yields LegibleText where
  entries entry hmem kind haction := by
    have hentry := List.all_eq_true.mp h.entries entry hmem
    rw [Entry.legible, haction] at hentry
    dsimp only at hentry
    cases hpattern : entry.pattern with
    | words spellings =>
      rw [hpattern] at hentry
      intro w hw
      exact of_decide_eq_true (List.all_eq_true.mp hentry w hw)
    | digits => exact fun text hne hdigits => .of_forall (by decide) hne hdigits
    | name => trivial
    | blanks | toLineEnd | enclosed | anyChar =>
      rw [hpattern] at hentry
      exact absurd hentry (by simp [Pattern.legible])
  names text hne hnames := .of_forall h.names hne hnames

end RobotLang
