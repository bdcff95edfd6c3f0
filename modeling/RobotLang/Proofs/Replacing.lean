/-
  RobotLang.Proofs.Replacing
  ──────────────────────────
  **TREES WITH OTHER TOKENS.**

  A tree can be kept while its tokens are replaced one by one: `map` does so for
  every sort of tree.  The uniform view goes along with it, and so do the tokens:

      (p.map f).view        = p.view.map f
      (p.map f).view.tokens = p.view.tokens.map f
-/
import RobotLang.Braced.Program
import RobotLang.Worded.Program

namespace RobotLang

/-! ## §1. The uniform view. -/

/-- The token as if it stood in the source. -/
def Token.present (t : Token) : Token :=
  { t with inserted := false }

/-- A token that stands in the source is left as it is. -/
theorem Token.present_eq_self {t : Token} (h : t.inserted = false) : t.present = t := by
  obtain ⟨kind, image, line, column, endLine, offset, endOffset, inserted⟩ := t
  obtain rfl : inserted = false := h
  rfl

/-- The forest with its tokens replaced. -/
def Forest.map (f : Token → Token) : Forest → Forest
  | .nil => .nil
  | .leaf role token rest => .leaf role (f token) (rest.map f)
  | .branch role rule children rest => .branch role rule (children.map f) (rest.map f)

/-- Forests are replaced one after the other. -/
@[simp] theorem Forest.map_append (f : Token → Token) (g h : Forest) :
    (g ++ h).map f = g.map f ++ h.map f := by
  induction g with
  | nil => rfl
  | leaf role token rest ih => simp [Forest.map, ih]
  | branch role rule children rest _ ih => simp [Forest.map, ih]

@[simp] theorem Forest.map_ofToken (f : Token → Token) (role : String) (t : Token) :
    (ofToken role t).map f = ofToken role (f t) := rfl

/-- The tokens of a forest are replaced in their order. -/
@[simp] theorem Forest.tokens_map (f : Token → Token) (g : Forest) :
    (g.map f).tokens = g.tokens.map f := by
  induction g with
  | nil => rfl
  | leaf role token rest ih => simp [Forest.map, ih]
  | branch role rule children rest ihc ih => simp [Forest.map, ihc, ih]

/-- Only the tokens that occur matter: what leaves them alone leaves the forest alone. -/
theorem Forest.map_eq_self {f : Token → Token} {g : Forest} (h : ∀ t ∈ g.tokens, f t = t) :
    g.map f = g := by
  induction g with
  | nil => rfl
  | leaf role token rest ih =>
    rw [tokens_leaf, List.forall_mem_cons] at h
    rw [Forest.map, h.1, ih h.2]
  | branch role rule children rest ihchildren ih =>
    rw [tokens_branch, List.forall_mem_append] at h
    rw [Forest.map, ihchildren h.1, ih h.2]

/-- The node with its tokens replaced. -/
def Node.map (f : Token → Token) (node : Node) : Node :=
  ⟨node.rule, node.children.map f⟩

@[simp] theorem Forest.map_ofNode (f : Token → Token) (role : String) (node : Node) :
    (ofNode role node).map f = ofNode role (node.map f) := rfl

/-- The tokens of a node are replaced in their order. -/
@[simp] theorem Node.tokens_map (f : Token → Token) (node : Node) :
    (node.map f).tokens = node.tokens.map f :=
  node.children.tokens_map f

/-! ## §2. Expressions. -/

/-- The number with its tokens replaced. -/
def Integer.map (f : Token → Token) : Integer → Integer
  | .name token => .name (f token)
  | .literal token value => .literal (f token) value
  | .succ keyword left inner right => .succ (f keyword) (f left) (inner.map f) (f right)
  | .pred keyword left inner right => .pred (f keyword) (f left) (inner.map f) (f right)

/-- The view of a number goes along with its tokens. -/
@[simp] theorem Integer.children_map (f : Token → Token) (n : Integer) :
    (n.map f).children = n.children.map f := by
  induction n with
  | name | literal => rfl
  | succ _ _ _ _ ih | pred _ _ _ _ ih => simp [Integer.map, Integer.children, Forest.map, ih]

/-- The condition with its tokens replaced. -/
def Condition.map (f : Token → Token) {level : Level} : Condition level → Condition level
  | .conj c => .conj (c.map f)
  | .or left operator right => .or (left.map f) (f operator) (right.map f)
  | .lit c => .lit (c.map f)
  | .and left operator right => .and (left.map f) (f operator) (right.map f)
  | .plain c => .plain (c.map f)
  | .not operator c => .not (f operator) (c.map f)
  | .isZero keyword left number right => .isZero (f keyword) (f left) (number.map f) (f right)
  | .sensor question keyword => .sensor question (f keyword)
  | .sensorCall question keyword left right =>
    .sensorCall question (f keyword) (f left) (f right)
  | .paren left c right => .paren (f left) (c.map f) (f right)

@[simp] theorem Condition.children_map (f : Token → Token) {level : Level} (c : Condition level) :
    (c.map f).children = c.children.map f := by
  induction c with
  | sensor | sensorCall => rfl
  | isZero => simp [Condition.map, Condition.children, Forest.map]
  | conj _ ih | lit _ ih | plain _ ih | not _ _ ih | paren _ _ _ ih =>
    simp [Condition.map, Condition.children, Forest.map, ih]
  | or _ _ _ ihl ihr | and _ _ _ ihl ihr =>
    simp [Condition.map, Condition.children, Forest.map, ihl, ihr]

/-- The parameter with its tokens replaced. -/
def Parameter.map (f : Token → Token) (p : Parameter) : Parameter :=
  ⟨f p.left, p.name.map f, f p.right⟩

@[simp] theorem Parameter.children_map (f : Token → Token) (p : Parameter) :
    (p.map f).children = p.children.map f := by
  obtain ⟨left, name, right⟩ := p
  cases name <;> rfl

theorem Parameter.view_map (f : Token → Token) (p : Parameter) :
    (p.map f).view = p.view.map f := by
  simp [Parameter.view, Node.map]

/-! ## §3. The braced dialect. -/

namespace Braced

/-- The code with its tokens replaced. -/
def Code.map (f : Token → Token) {part : Part} : Code part → Code part
  | .nil => .nil
  | .cons head tail => .cons (head.map f) (tail.map f)
  | .empty semicolon => .empty (f semicolon)
  | .builtin action keyword left right semicolon =>
    .builtin action (f keyword) (f left) (f right) (f semicolon)
  | .call name left argument right semicolon =>
    .call (f name) (f left) (argument.map (·.map f)) (f right) (f semicolon)
  | .cond keyword left test right yes =>
    .cond (f keyword) (f left) (test.map f) (f right) (yes.map f)
  | .condElse keyword left test right yes otherwise no =>
    .condElse (f keyword) (f left) (test.map f) (f right) (yes.map f) (f otherwise) (no.map f)
  | .whileDo keyword left test right body =>
    .whileDo (f keyword) (f left) (test.map f) (f right) (body.map f)
  | .times keyword left count right body =>
    .times (f keyword) (f left) (count.map f) (f right) (body.map f)
  | .block left body right => .block (f left) (body.map f) (f right)

/-- The view of braced code goes along with its tokens, construct by construct. -/
@[simp] theorem Code.children_map (f : Token → Token) {part : Part} (c : Code part) :
    (c.map f).children = c.children.map f := by
  induction c with
  | nil => rfl
  | empty | builtin => rfl
  | cons head tail ihhead ihtail => simp [Code.map, Code.children, Forest.map, ihhead, ihtail]
  | call name left argument right semicolon =>
    cases argument <;> simp [Code.map, Code.children, Code.callView, Forest.map, Node.map]
  | cond _ _ _ _ _ ih | whileDo _ _ _ _ _ ih | times _ _ _ _ _ ih | block _ _ _ ih =>
    simp [Code.map, Code.children, Forest.map, ih]
  | condElse _ _ _ _ _ _ _ ihyes ihno =>
    simp [Code.map, Code.children, Forest.map, ihyes, ihno]

/-- Statements of a list are replaced one by one. -/
@[simp] theorem Code.map_ofList (f : Token → Token) (ss : List Statement) :
    (Code.ofList ss).map f = Code.ofList (ss.map (·.map f)) := by
  induction ss with
  | nil => rfl
  | cons s ss ih => simp [Code.ofList, Code.map, ih]

/-- The block with its tokens replaced. -/
def Block.map (f : Token → Token) (b : Block) : Block :=
  ⟨f b.left, b.body.map f, f b.right⟩

/-- The definition with its tokens replaced. -/
def Definition.map (f : Token → Token) (d : Definition) : Definition :=
  ⟨f d.keyword, f d.name, d.parameter.map f, d.block.map f⟩

/-- The main block with its tokens replaced. -/
def Main.map (f : Token → Token) (m : Main) : Main :=
  ⟨f m.keyword, f m.left, f m.right, m.block.map f⟩

/-- The program with its tokens replaced. -/
def Program.map (f : Token → Token) (p : Program) : Program :=
  ⟨f p.keyword, f p.name, f p.left, p.definitions.map (·.map f), p.main.map f, f p.right⟩

theorem Block.view_map (f : Token → Token) (b : Block) : (b.map f).view = b.view.map f := by
  simp [Block.view, Block.map, Node.map, Forest.map]

/-- The view of a braced definition, with its parameter and its block. -/
theorem Definition.view_map (f : Token → Token) (d : Definition) :
    (d.map f).view = d.view.map f := by
  simp [Definition.view, Definition.map, Block.view_map, Parameter.view_map, Node.map, Forest.map]

/-- Definitions stay side by side. -/
theorem Definition.forest_map (f : Token → Token) (ds : List Definition) :
    Definition.forest (ds.map (·.map f)) = (Definition.forest ds).map f := by
  induction ds with
  | nil => rfl
  | cons d ds ih => simp [Definition.forest, Definition.view_map, Forest.map, Node.map, ih]

theorem Main.view_map (f : Token → Token) (m : Main) : (m.map f).view = m.view.map f := by
  simp [Main.view, Main.map, Block.view_map, Node.map, Forest.map]

/-- **The view of a braced program goes along with its tokens.** -/
theorem Program.view_map (f : Token → Token) (p : Program) :
    (p.map f).view = p.view.map f := by
  simp [Program.view, Program.map, Definition.forest_map, Main.view_map, Node.map, Forest.map]

end Braced

/-! ## §4. The worded dialect. -/

namespace Worded

/-- The code with its tokens replaced. -/
def Code.map (f : Token → Token) {part : Part} : Code part → Code part
  | .nil => .nil
  | .cons head tail => .cons (head.map f) (tail.map f)
  | .empty semicolon => .empty (f semicolon)
  | .ended command semicolon => .ended (command.map f) (f semicolon)
  | .builtin action keyword => .builtin action (f keyword)
  | .call name => .call (f name)
  | .callWith name left argument right =>
    .callWith (f name) (f left) (argument.map f) (f right)
  | .cond keyword test then_ yes => .cond (f keyword) (test.map f) (f then_) (yes.map f)
  | .condElse keyword test then_ yes otherwise no =>
    .condElse (f keyword) (test.map f) (f then_) (yes.map f) (f otherwise) (no.map f)
  | .whileDo keyword test do_ body => .whileDo (f keyword) (test.map f) (f do_) (body.map f)
  | .times keyword count unit body => .times (f keyword) (count.map f) (f unit) (body.map f)
  | .block opening body closing => .block (f opening) (body.map f) (f closing)

/-- The view of worded code goes along with its tokens, construct by construct. -/
@[simp] theorem Code.children_map (f : Token → Token) {part : Part} (c : Code part) :
    (c.map f).children = c.children.map f := by
  induction c with
  | nil => rfl
  | empty | builtin | call => rfl
  | callWith => simp [Code.map, Code.children, Forest.map]
  | cons head tail ihhead ihtail => simp [Code.map, Code.children, Forest.map, ihhead, ihtail]
  | ended _ _ ih | cond _ _ _ _ ih | whileDo _ _ _ _ ih | times _ _ _ _ ih | block _ _ _ ih =>
    simp [Code.map, Code.children, Forest.map, ih]
  | condElse _ _ _ _ _ _ ihyes ihno =>
    simp [Code.map, Code.children, Forest.map, ihyes, ihno]

/-- Statements of a list are replaced one by one. -/
@[simp] theorem Code.map_ofList (f : Token → Token) (ss : List Statement) :
    (Code.ofList ss).map f = Code.ofList (ss.map (·.map f)) := by
  induction ss with
  | nil => rfl
  | cons s ss ih => simp [Code.ofList, Code.map, ih]

/-- The definition with its tokens replaced. -/
def Definition.map (f : Token → Token) : Definition → Definition
  | .full keyword name parameter as_ body =>
    .full (f keyword) (f name) (parameter.map (·.map f)) (f as_) (body.map f)
  | .prototype keyword name parameter semicolon =>
    .prototype (f keyword) (f name) (parameter.map (·.map f)) (f semicolon)

/-- The main list with its tokens replaced. -/
def Main.map (f : Token → Token) (m : Main) : Main :=
  ⟨f m.opening, m.body.map f, f m.closing⟩

/-- The program with its tokens replaced. -/
def Program.map (f : Token → Token) (p : Program) : Program :=
  ⟨f p.opening, p.definitions.map (·.map f), p.main.map f, f p.closing⟩

theorem parameterForest_map (f : Token → Token) (parameter : Option Parameter) :
    parameterForest (parameter.map (·.map f)) = (parameterForest parameter).map f := by
  cases parameter <;> simp [parameterForest, Parameter.view_map, Forest.map]

/-- A prototype has no body to replace. -/
theorem Definition.view_map (f : Token → Token) (d : Definition) :
    (d.map f).view = d.view.map f := by
  cases d <;> simp [Definition.view, Definition.map, parameterForest_map, Node.map, Forest.map]

theorem Definition.forest_map (f : Token → Token) (ds : List Definition) :
    Definition.forest (ds.map (·.map f)) = (Definition.forest ds).map f := by
  induction ds with
  | nil => rfl
  | cons d ds ih => simp [Definition.forest, Definition.view_map, Forest.map, Node.map, ih]

theorem Main.view_map (f : Token → Token) (m : Main) : (m.map f).view = m.view.map f := by
  simp [Main.view, Main.map, Node.map, Forest.map]

/-- **The view of a worded program goes along with its tokens.** -/
theorem Program.view_map (f : Token → Token) (p : Program) :
    (p.map f).view = p.view.map f := by
  simp [Program.view, Program.map, Definition.forest_map, Main.view_map, Node.map, Forest.map]

end Worded
end RobotLang
