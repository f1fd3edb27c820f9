/-
# `Node` — syntax trees

A leaf carries the text of a token, an inner node the label that a definition gives it.
Trees are written as s-expressions, and can be listed in preorder, every label with its number of
children.
-/

namespace FrontEnd

/-- A syntax tree. -/
inductive Node where
  | node (label : String) (children : List Node)
  deriving Repr, Inhabited

namespace Node

/-- A tree without children. -/
def leaf (label : String) : Node := node label []

/-- The label at the root. -/
def label : Node → String
  | node label _ => label

/-- The trees below the root. -/
def children : Node → List Node
  | node _ children => children

/-- Whether there is nothing below the root. -/
def isLeaf (n : Node) : Bool := n.children.isEmpty

/-! ## Equality -/

mutual

/-- Trees are equal when labels and children are. -/
def decEq : (m n : Node) → Decidable (m = n)
  | node a ms, node b ns =>
    if h : a = b then
      match decEqList ms ns with
      | isTrue hs => isTrue (by rw [h, hs])
      | isFalse hs => isFalse fun e => hs (by cases e; rfl)
    else isFalse fun e => h (by cases e; rfl)

/-- Lists of trees are equal when they are so tree by tree. -/
def decEqList : (ms ns : List Node) → Decidable (ms = ns)
  | [], [] => isTrue rfl
  | [], _ :: _ => isFalse nofun
  | _ :: _, [] => isFalse nofun
  | m :: ms, n :: ns =>
    match decEq m n with
    | isFalse h => isFalse fun e => h (by cases e; rfl)
    | isTrue h =>
      match decEqList ms ns with
      | isTrue hs => isTrue (by rw [h, hs])
      | isFalse hs => isFalse fun e => hs (by cases e; rfl)

end

instance : DecidableEq Node := decEq

/-! ## S-expressions -/

mutual

/-- A leaf as its label, any other tree as `(label child child)`. -/
def text : Node → String
  | node label [] => label
  | node label (child :: rest) => "(" ++ label ++ childrenText (child :: rest) ++ ")"

/-- Trees, each with a space in front. -/
def childrenText : List Node → String
  | [] => ""
  | child :: rest => " " ++ child.text ++ childrenText rest

end

/-! ## Preorder -/

mutual

/-- The labels with their numbers of children, the root first. -/
def preorder : Node → List (String × Nat)
  | node label children => (label, children.length) :: preorderList children

/-- The lists of several trees, one behind the other. -/
def preorderList : List Node → List (String × Nat)
  | [] => []
  | child :: rest => child.preorder ++ preorderList rest

end

/-- The trees that a list in preorder spells, if it spells whole trees: reading from the right, a
label takes its children from the trees behind it. -/
def forest? (entries : List (String × Nat)) : Option (List Node) :=
  entries.foldr (fun (label, count) trees => do
    let trees ← trees
    if count ≤ trees.length then some (node label (trees.take count) :: trees.drop count)
    else none) (some [])

/-- The tree that a list in preorder spells, if it spells exactly one. -/
def ofPreorder? (entries : List (String × Nat)) : Option Node :=
  match forest? entries with
  | some [root] => some root
  | _ => none

end Node

end FrontEnd
