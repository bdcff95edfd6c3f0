/-
  RobotLang.Proofs.Shape
  ──────────────────────
  **WHAT THE SHAPE OF A TREE TELLS.**

  The shape of a tree is made of its roles, its rules and the texts of its
  tokens, with the mark `<inserted>` in place of a `;` that was put in.  It does
  not depend on places (`Forest.shape_map`).

  The names of roles and rules have none of the characters that a shape is
  divided by (`Program.legible`), and no `<`.  No token has a `<` either.  So the
  marks can be found in the shape, and with `;` written over each of them it is
  the shape of the tree with every `;` in the source:

      replaceAll "<inserted>" ";" node.shape  =  (node.map present).shape
-/
import RobotLang.Proofs.Replacing

namespace RobotLang

/-! ## §1. Replacing text. -/

namespace Text

/-- `replaceAll` on characters, of which the first `covered` were replaced already. -/
def replaceFrom (old new : List Char) : (covered : Nat) → List Char → List Char
  | _, [] => []
  | covered + 1, _ :: cs => replaceFrom old new covered cs
  | 0, c :: cs =>
    if old.isPrefixOf (c :: cs) then new ++ replaceFrom old new (old.length - 1) cs
    else c :: replaceFrom old new 0 cs

/-- The text with every `old` replaced by `new`, from the left. -/
def replaceAll (old new text : String) : String :=
  String.ofList (replaceFrom old.toList new.toList 0 text.toList)

variable {c : Char} {old new : List Char}

/-- Characters that were replaced already are passed over. -/
theorem replaceFrom_covered (text rest : List Char) :
    replaceFrom old new text.length (text ++ rest) = replaceFrom old new 0 rest := by
  induction text with
  | nil => rfl
  | cons d text ih => exact ih

/-- What is to be replaced is. -/
theorem replaceFrom_old (rest : List Char) :
    replaceFrom (c :: old) new 0 (c :: old ++ rest)
      = new ++ replaceFrom (c :: old) new 0 rest := by
  have hprefix : (c :: old).isPrefixOf (c :: (old ++ rest)) = true :=
    List.isPrefixOf_iff_prefix.mpr (List.prefix_append (c :: old) rest)
  rw [List.cons_append, replaceFrom, if_pos hprefix, List.length_cons, Nat.add_sub_cancel,
    replaceFrom_covered]

/-- Text without the first character of what is to be replaced stays. -/
theorem replaceFrom_append {text : List Char} (h : c ∉ text) (rest : List Char) :
    replaceFrom (c :: old) new 0 (text ++ rest)
      = text ++ replaceFrom (c :: old) new 0 rest := by
  induction text with
  | nil => rfl
  | cons d text ih =>
    rw [List.mem_cons, not_or] at h
    have hnot : (c :: old).isPrefixOf (d :: (text ++ rest)) = false := by
      simp [List.isPrefixOf, h.1]
    rw [List.cons_append, replaceFrom, hnot, if_neg (by decide), ih h.2]
    rfl

end Text

/-! ## §2. Shapes and tokens. -/

namespace Forest

/-- The shape looks at the tokens without their places. -/
theorem shape_map {f : Token → Token} {g : Forest}
    (h : ∀ t ∈ g.tokens, bareToken (f t) = bareToken t) : (g.map f).shape = g.shape := by
  induction g with
  | nil => rfl
  | leaf role token rest ih =>
    rw [tokens_leaf, List.forall_mem_cons] at h
    simp [Forest.map, shape, h.1, ih h.2]
  | branch role rule children rest ihchildren ih =>
    rw [tokens_branch, List.forall_mem_append] at h
    simp [Forest.map, shape, ihchildren h.1, ih h.2]

/-- No role and no rule has a `<`. -/
def Unmarked : Forest → Prop
  | .nil => True
  | .leaf role _ rest => '<' ∉ role.toList ∧ rest.Unmarked
  | .branch role rule children rest =>
    '<' ∉ role.toList ∧ '<' ∉ rule.toList ∧ children.Unmarked ∧ rest.Unmarked

/-- Two forests are without marks if each is. -/
@[simp] theorem unmarked_append {g h : Forest} :
    (g ++ h).Unmarked ↔ g.Unmarked ∧ h.Unmarked := by
  induction g with
  | nil => simp [Unmarked]
  | leaf role token rest ih => simp [Unmarked, ih, and_assoc]
  | branch role rule children rest _ ih => simp [Unmarked, ih, and_assoc]

end Forest

/-- The shape of a node looks at its tokens without their places. -/
theorem Node.shape_map {f : Token → Token} {node : Node}
    (h : ∀ t ∈ node.tokens, Forest.bareToken (f t) = Forest.bareToken t) :
    (node.map f).shape = node.shape := by
  unfold Node.shape
  rw [show (node.map f).children.shape = node.children.shape from Forest.shape_map h]
  rfl

/-- The token is a `;` if it was put in, and otherwise has no `<`. -/
def Token.Clear (t : Token) : Prop :=
  if t.inserted then t.image = ";" else '<' ∉ t.image.toList

/-! ## §3. Marks. -/

/-- The text with `;` written over every mark. -/
def overwritten (text : List Char) : List Char :=
  Text.replaceFrom "<inserted>".toList ";".toList 0 text

/-- Text without a `<` stays, since every mark starts with one. -/
theorem overwritten_append {text : List Char} (h : '<' ∉ text) (rest : List Char) :
    overwritten (text ++ rest) = text ++ overwritten rest :=
  Text.replaceFrom_append h rest

/-- A mark becomes the `;` that it stands for, and any other token stays. -/
theorem overwritten_bareToken {t : Token} (ht : t.Clear) (rest : List Char) :
    overwritten (Forest.bareToken t ++ rest)
      = Forest.bareToken t.present ++ overwritten rest := by
  show _ = t.image.toList ++ overwritten rest
  unfold Token.Clear at ht
  unfold Forest.bareToken
  by_cases hin : t.inserted = true
  · rw [if_pos hin] at ht
    rw [if_pos hin, ht]
    exact Text.replaceFrom_old rest
  · rw [if_neg hin] at ht
    rw [if_neg hin]
    exact overwritten_append ht rest

/-- Marks are found token by token: names of roles and rules have no `<`, and neither has a
token. -/
theorem Forest.overwritten_shape {g : Forest} (hg : g.Unmarked) (ht : ∀ t ∈ g.tokens, t.Clear)
    (rest : List Char) :
    overwritten (g.shape ++ rest) = (g.map Token.present).shape ++ overwritten rest := by
  induction g generalizing rest with
  | nil => rfl
  | leaf role token more ih =>
    rw [tokens_leaf, List.forall_mem_cons] at ht
    -- the mark starts with `<`, which only the text of a token may have
    have hhead : '<' ∉ ' ' :: role.toList ++ ['='] := by simpa using hg.1
    calc overwritten ((Forest.leaf role token more).shape ++ rest)
        = overwritten ((' ' :: role.toList ++ ['='])
            ++ (bareToken token ++ (more.shape ++ rest))) := by simp [shape]
      _ = (' ' :: role.toList ++ ['='])
            ++ (bareToken token.present ++ ((more.map Token.present).shape
              ++ overwritten rest)) := by
          rw [overwritten_append hhead, overwritten_bareToken ht.1, ih hg.2 ht.2]
      _ = _ := by simp [shape, Forest.map]
  | branch role rule children more ihchildren ih =>
    rw [tokens_branch, List.forall_mem_append] at ht
    obtain ⟨hrole, hrule, hchildren, hmore⟩ := hg
    have hhead : '<' ∉ ' ' :: role.toList ++ '=' :: '(' :: rule.toList := by
      simpa using ⟨hrole, hrule⟩
    calc overwritten ((Forest.branch role rule children more).shape ++ rest)
        = overwritten ((' ' :: role.toList ++ '=' :: '(' :: rule.toList)
            ++ (children.shape ++ ([')'] ++ (more.shape ++ rest)))) := by simp [shape]
      _ = (' ' :: role.toList ++ '=' :: '(' :: rule.toList)
            ++ ((children.map Token.present).shape ++ ([')']
              ++ ((more.map Token.present).shape ++ overwritten rest))) := by
          rw [overwritten_append hhead, ihchildren hchildren ht.1,
            overwritten_append (by decide), ih hmore ht.2]
      _ = _ := by simp [shape, Forest.map]

/-- The node has no `<` in its rule, nor in those below it. -/
def Node.Unmarked (node : Node) : Prop :=
  '<' ∉ node.rule.toList ∧ node.children.Unmarked

/-- With `;` written over its marks, the shape of a tree is that of the tree with every `;` in the
source. -/
theorem Node.replaceAll_shape {node : Node} (hnode : node.Unmarked)
    (ht : ∀ t ∈ node.tokens, t.Clear) :
    Text.replaceAll "<inserted>" ";" node.shape = (node.map Token.present).shape := by
  have hhead : '<' ∉ '(' :: node.rule.toList := by simpa using hnode.1
  have hshape : node.shape.toList
      = ('(' :: node.rule.toList) ++ (node.children.shape ++ ([')'] ++ [])) := by
    simp [Node.shape]
  show String.ofList (overwritten node.shape.toList) = _
  rw [hshape, overwritten_append hhead, Forest.overwritten_shape hnode.2 ht,
    overwritten_append (by decide)]
  simp [Node.shape, Node.map, overwritten, Text.replaceFrom]

/-! ## §4. The names in the trees of both dialects. -/

/-- The name of a role or of a rule can be told from what stands around it in a shape. -/
@[simp] def LegibleName (name : String) : Prop :=
  name.toList ≠ [] ∧ ∀ c ∈ ['<', '=', ' ', ')'], c ∉ name.toList

/-- All roles and rules have legible names. -/
def Forest.Legible : Forest → Prop
  | .nil => True
  | .leaf role _ rest => LegibleName role ∧ rest.Legible
  | .branch role rule children rest =>
    LegibleName role ∧ LegibleName rule ∧ children.Legible ∧ rest.Legible

/-- Legible forests are legible together. -/
@[simp] theorem Forest.legible_append {g h : Forest} :
    (g ++ h).Legible ↔ g.Legible ∧ h.Legible := by
  induction g with
  | nil => simp [Legible]
  | leaf role token rest ih => simp [Legible, ih, and_assoc]
  | branch role rule children rest _ ih => simp [Legible, ih, and_assoc]

/-- A legible name has no `<` in it. -/
theorem Forest.Legible.unmarked {g : Forest} (hg : g.Legible) : g.Unmarked := by
  induction g with
  | nil => trivial
  | leaf role token rest ih => exact ⟨hg.1.2 _ (by decide), ih hg.2⟩
  | branch role rule children rest ihchildren ih =>
    obtain ⟨hrole, hrule, hchildren, hrest⟩ := hg
    exact ⟨hrole.2 _ (by decide), hrule.2 _ (by decide), ihchildren hchildren, ih hrest⟩

/-- The node and all below it have legible names. -/
structure Node.Legible (node : Node) : Prop where
  rule : LegibleName node.rule
  children : node.children.Legible

theorem Node.Legible.unmarked {node : Node} (h : node.Legible) : node.Unmarked :=
  ⟨h.rule.2 _ (by decide), h.children.unmarked⟩

/-- Roles and rules of a number are among a few fixed names. -/
@[simp] theorem Integer.legible (n : Integer) : n.children.Legible := by
  induction n with
  | name | literal => simp [Integer.children, Forest.ofToken, Forest.Legible]
  | succ _ _ _ _ ih | pred _ _ _ _ ih =>
    simp [Integer.children, Forest.ofToken, Forest.Legible, ih]

@[simp] theorem Condition.legible {level : Level} (c : Condition level) :
    c.children.Legible := by
  induction c with
  | conj _ ih | lit _ ih | plain _ ih | not _ _ ih =>
    simp [Condition.children, Forest.Legible, ih]
  | or _ _ _ ihleft ihright | and _ _ _ ihleft ihright =>
    simp [Condition.children, Forest.Legible, ihleft, ihright]
  | isZero => simp [Condition.children, Forest.ofToken, Forest.Legible]
  | sensor | sensorCall =>
    simp [Condition.children, Condition.sensorWord, Forest.ofToken, Forest.Legible]
  | paren _ _ _ ih => simp [Condition.children, Forest.ofToken, Forest.Legible, ih]

@[simp] theorem Parameter.legible (p : Parameter) : p.children.Legible := by
  obtain ⟨left, name, right⟩ := p
  cases name <;> simp [Parameter.children, Forest.ofToken, Forest.Legible]

namespace Braced

/-- All names in the view of code are legible, construct by construct. -/
@[simp] theorem Code.legible {part : Part} (c : Code part) : c.children.Legible := by
  induction c with
  | nil => trivial
  | cons head tail ihhead ihtail => simp [Code.children, Forest.Legible, ihhead, ihtail]
  | empty | builtin => simp [Code.children, Forest.ofToken, Forest.Legible]
  | call name left argument right semicolon =>
    cases argument <;>
      simp [Code.children, Code.callView, Forest.ofNode, Forest.ofToken, Forest.Legible]
  | cond _ _ _ _ _ ih | whileDo _ _ _ _ _ ih | times _ _ _ _ _ ih | block _ _ _ ih =>
    simp [Code.children, Forest.ofToken, Forest.Legible, ih]
  | condElse _ _ _ _ _ _ _ ihyes ihno => simp [Code.children, Forest.Legible, ihyes, ihno]

@[simp] theorem Definition.legible_forest (ds : List Definition) :
    (Definition.forest ds).Legible := by
  induction ds with
  | nil => trivial
  | cons d ds ih =>
    simp [Definition.forest, Definition.view, Parameter.view, Block.view, Forest.ofNode,
      Forest.ofToken, Forest.Legible, ih]

/-- **All names in the tree of a braced program are legible.** -/
theorem Program.legible (p : Program) : p.view.Legible := by
  constructor <;>
    simp [Program.view, Main.view, Block.view, Forest.ofNode, Forest.ofToken, Forest.Legible]

end Braced

namespace Worded

/-- All names in the view of code are legible, construct by construct. -/
@[simp] theorem Code.legible {part : Part} (c : Code part) : c.children.Legible := by
  induction c with
  | nil => trivial
  | cons head tail ihhead ihtail => simp [Code.children, Forest.Legible, ihhead, ihtail]
  | empty | builtin | call | callWith =>
    simp [Code.children, Forest.ofToken, Forest.Legible]
  | ended _ _ ih | cond _ _ _ _ ih | whileDo _ _ _ _ ih | times _ _ _ _ ih | block _ _ _ ih =>
    simp [Code.children, Forest.ofToken, Forest.Legible, ih]
  | condElse _ _ _ _ _ _ ihyes ihno => simp [Code.children, Forest.Legible, ihyes, ihno]

@[simp] theorem legible_parameterForest (parameter : Option Parameter) :
    (parameterForest parameter).Legible := by
  cases parameter <;> simp [parameterForest, Parameter.view, Forest.ofNode, Forest.Legible]

@[simp] theorem Definition.legible_forest (ds : List Definition) :
    (Definition.forest ds).Legible := by
  induction ds with
  | nil => trivial
  | cons d ds ih =>
    cases d <;> simp [Definition.forest, Definition.view, Forest.ofToken, Forest.Legible, ih]

/-- **All names in the tree of a worded program are legible.** -/
theorem Program.legible (p : Program) : p.view.Legible := by
  constructor <;> simp [Program.view, Main.view, Forest.ofNode, Forest.ofToken, Forest.Legible]

end Worded
end RobotLang
