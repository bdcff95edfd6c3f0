/-
  RobotLang.Forest
  ────────────────
  **THE UNIFORM VIEW OF A TREE.**

  Whatever a program's typed tree looks like, it can be seen as rules with
  ordered children, each child a token or a rule in some role.  The children
  of a rule form a forest, given by its first child and the rest, so that one
  structural recursion reaches every token:

      (f ++ g).tokens = f.tokens ++ g.tokens

  `shape` writes the view on one line without places, `render` over many
  lines with them.
-/
import RobotLang.Text
import RobotLang.Token

namespace RobotLang

/-- The children of a rule, in source order. -/
inductive Forest where
  | nil
  /-- A token in some role, and the children after it. -/
  | leaf (role : String) (token : Token) (rest : Forest)
  /-- A rule in some role, and the children after it. -/
  | branch (role rule : String) (children rest : Forest)
  deriving DecidableEq, Repr

/-- A rule with its children. -/
structure Node where
  rule : String
  children : Forest
  deriving DecidableEq, Repr

namespace Forest

/-- The children of `f`, then those of `g`. -/
def append : Forest → Forest → Forest
  | .nil, g => g
  | .leaf role token rest, g => .leaf role token (append rest g)
  | .branch role rule children rest, g => .branch role rule children (append rest g)

instance : Append Forest := ⟨append⟩

/-- A single token. -/
def ofToken (role : String) (token : Token) : Forest :=
  .leaf role token .nil

/-- A single rule. -/
def ofNode (role : String) (node : Node) : Forest :=
  .branch role node.rule node.children .nil

/-- All tokens, depth first. -/
def tokens : Forest → List Token
  | .nil => []
  | .leaf _ token rest => token :: rest.tokens
  | .branch _ _ children rest => children.tokens ++ rest.tokens

/-- A token without its place. -/
def bareToken (t : Token) : List Char :=
  if t.inserted then "<inserted>".toList else t.image.toList

/-- Roles, rules and token texts, without places. -/
def shape : Forest → List Char
  | .nil => []
  | .leaf role token rest => ' ' :: role.toList ++ '=' :: bareToken token ++ rest.shape
  | .branch role rule children rest =>
    ' ' :: role.toList ++ '=' :: '(' :: rule.toList ++ children.shape ++ ')' :: rest.shape

/-- Two blanks for each level. -/
def indent (depth : Nat) : String :=
  String.ofList (List.replicate (2 * depth) ' ')

/-- A token with its place. -/
def placedToken (t : Token) : String :=
  Text.quoted t.image ++ " @" ++ toString t.line ++ ":" ++ toString t.column
    ++ (if t.inserted then " (inserted)" else "")

/-- One line for each rule and token below `depth`. -/
def renderLines (depth : Nat) : Forest → List String
  | .nil => []
  | .leaf role token rest =>
    (indent depth ++ role ++ " " ++ placedToken token) :: renderLines depth rest
  | .branch _ rule children rest =>
    (indent depth ++ rule) :: renderLines (depth + 1) children ++ renderLines depth rest

/-! ## §1. Tokens of an appended forest. -/

@[simp] theorem nil_append (g : Forest) : (Forest.nil ++ g) = g := rfl

@[simp] theorem leaf_append (role : String) (token : Token) (rest g : Forest) :
    Forest.leaf role token rest ++ g = .leaf role token (rest ++ g) := rfl

@[simp] theorem branch_append (role rule : String) (children rest g : Forest) :
    Forest.branch role rule children rest ++ g = .branch role rule children (rest ++ g) := rfl

@[simp] theorem append_nil (f : Forest) : f ++ Forest.nil = f := by
  induction f with
  | nil => rfl
  | leaf role token rest ih => simp [ih]
  | branch role rule children rest _ ih => simp [ih]

@[simp] theorem tokens_nil : Forest.nil.tokens = [] := rfl

@[simp] theorem tokens_leaf (role : String) (token : Token) (rest : Forest) :
    (Forest.leaf role token rest).tokens = token :: rest.tokens := rfl

@[simp] theorem tokens_branch (role rule : String) (children rest : Forest) :
    (Forest.branch role rule children rest).tokens = children.tokens ++ rest.tokens := rfl

@[simp] theorem tokens_ofToken (role : String) (token : Token) :
    (ofToken role token).tokens = [token] := rfl

@[simp] theorem tokens_ofNode (role : String) (node : Node) :
    (ofNode role node).tokens = node.children.tokens := by
  simp [ofNode]

/-- The tokens of forests side by side are side by side. -/
@[simp] theorem tokens_append (f g : Forest) : (f ++ g).tokens = f.tokens ++ g.tokens := by
  induction f with
  | nil => rfl
  | leaf role token rest ih => simp [tokens, ih]
  | branch role rule children rest _ ih => simp [tokens, ih]

@[simp] theorem shape_append (f g : Forest) : (f ++ g).shape = f.shape ++ g.shape := by
  induction f with
  | nil => rfl
  | leaf role token rest ih => simp [shape, ih]
  | branch role rule children rest _ ih => simp [shape, ih]

end Forest

namespace Node

/-- All tokens under the node, depth first. -/
def tokens (node : Node) : List Token :=
  node.children.tokens

/-- The last token that the source holds. -/
def lastSourceToken? (node : Node) : Option Token :=
  node.tokens.reverse.find? fun t => !t.inserted

/-- The node on one line, without places. -/
def shape (node : Node) : String :=
  String.ofList ('(' :: node.rule.toList ++ node.children.shape ++ [')'])

/-- The node over many lines, each ended by a newline. -/
def render (node : Node) : String :=
  String.join ((node.rule :: node.children.renderLines 1).map (· ++ "\n"))

end Node
end RobotLang
