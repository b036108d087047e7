import Reckon.Text.Lowercase
import Reckon.Text.Repeated
import Reckon.Tree.Basic

/-!
# Outlines

The outline of a tree has a line for every node, in reading order, indented by its depth.  A rule
node shows its rule and a token its text, with its terminal before it if wanted.  A foreign leaf
has no line, nor has a node whose indentation is beyond all bounds.
-/

namespace Reckon

namespace Node

/-- The subtrees of a node. -/
def children : Node → List Node
  | .rule _ children _ => children
  | _ => []

mutual

/-- All nodes of a tree in reading order, with their depths. -/
def preorder (depth : Int) : Node → List (Int × Node)
  | .rule label children position =>
    (depth, .rule label children position) :: preorders (depth + 1) children
  | .token kind text position => [(depth, .token kind text position)]
  | .foreign value => [(depth, .foreign value)]

/-- All nodes of a list of trees. -/
def preorders (depth : Int) : List Node → List (Int × Node)
  | [] => []
  | node :: rest => node.preorder depth ++ preorders depth rest

end

mutual

/-- The nodes of a tree in reading order, in front of those behind them. -/
def preorderOnto (depth : Int) (behind : List (Int × Node)) : Node → List (Int × Node)
  | .rule label children position =>
    (depth, .rule label children position) :: preordersOnto (depth + 1) behind children
  | .token kind text position => (depth, .token kind text position) :: behind
  | .foreign value => (depth, .foreign value) :: behind

/-- The nodes of a list of trees, in front of those behind them. -/
def preordersOnto (depth : Int) (behind : List (Int × Node)) : List Node → List (Int × Node)
  | [] => behind
  | node :: rest => node.preorderOnto depth (preordersOnto depth behind rest)

end

mutual

theorem preorderOnto_eq (depth : Int) (behind : List (Int × Node)) :
    (node : Node) → node.preorderOnto depth behind = node.preorder depth ++ behind
  | .rule _ children _ => by
    simp [preorderOnto, preorder, preordersOnto_eq (depth + 1) behind children]
  | .token .. => rfl
  | .foreign _ => rfl

theorem preordersOnto_eq (depth : Int) (behind : List (Int × Node)) :
    (nodes : List Node) → preordersOnto depth behind nodes = preorders depth nodes ++ behind
  | [] => rfl
  | node :: rest => by
    simp [preordersOnto, preorders, preordersOnto_eq depth behind rest,
      preorderOnto_eq depth _ node]

end

/-- All nodes of a tree in reading order, with their depths from zero on. -/
def nodes (tree : Node) : List (Int × Node) := tree.preorderOnto 0 []

theorem nodes_eq (tree : Node) : tree.nodes = tree.preorder 0 := by
  simp [nodes, preorderOnto_eq]

mutual

/-- The number of nodes of a tree. -/
def size : Node → Nat
  | .rule _ children _ => sizes children + 1
  | .token .. => 1
  | .foreign _ => 1

/-- The number of nodes of a list of trees. -/
def sizes : List Node → Nat
  | [] => 0
  | node :: rest => node.size + sizes rest

end

theorem size_eq (node : Node) : node.size = sizes node.children + 1 := by
  cases node <;> simp [size, children, sizes]

end Node

/-- How an outline is set, and the number of characters that there is memory for in an
indentation. -/
structure Outline where
  indent : Thunk String := "  "
  showTerminals : Bool := false
  memory : Nat

namespace Outline

/-- Why a node has no line: it is foreign, or its indentation cannot be written. -/
inductive Fault where
  | foreign (value : Foreign)
  | margin (fault : RepeatFault)
  deriving DecidableEq

namespace Fault

/-- The wording of a fault.  A foreign value is named, unless it is not shown. -/
def message : Fault → String
  | .foreign value =>
    if value.isShowable then "not a parse tree node: " ++ value.description else Foreign.refusal
  | .margin fault => fault.message

/-- The class of a fault. -/
def className : Fault → String
  | .foreign value => if value.isShowable then "TypeError" else "ValueError"
  | .margin fault => fault.className

end Fault

/-- The indentation of a depth; there is none below zero. -/
def margin (outline : Outline) (depth : Int) : Except Fault String :=
  ((repeat? outline.memory outline.indent depth).map Thunk.get).mapError .margin

/-- What a node shows behind its indentation. -/
def label (outline : Outline) : Node → Except Fault String
  | .rule label _ _ => .ok label
  | .token kind text _ =>
    .ok ((if outline.showTerminals then lowercase kind ++ "  " else "") ++ text)
  | .foreign value => .error (.foreign value)

/-- The line of a node. -/
def line (outline : Outline) (depth : Int) (node : Node) : Except Fault String := do
  return (← outline.margin depth) ++ (← outline.label node)

/-- The number of nodes in the trees that wait to be listed. -/
def pendingSize : List (Int × Node) → Nat
  | [] => 0
  | (_, node) :: rest => node.size + pendingSize rest

theorem pendingSize_append (xs ys : List (Int × Node)) :
    pendingSize (xs ++ ys) = pendingSize xs + pendingSize ys := by
  induction xs with
  | nil => simp [pendingSize]
  | cons x xs ih => simp [pendingSize, ih]; omega

theorem pendingSize_map (depth : Int) (nodes : List Node) :
    pendingSize (nodes.map fun node => (depth, node)) = Node.sizes nodes := by
  induction nodes with
  | nil => rfl
  | cons node rest ih => simp [pendingSize, Node.sizes, ih]

/-- List the waiting trees in order.  The subtrees of a node go in front of what waits. -/
def list (outline : Outline) (done : List String) :
    List (Int × Node) → Except Fault (List String)
  | [] => .ok done.reverse
  | (depth, node) :: waiting =>
    match outline.line depth node with
    | .error fault => .error fault
    | .ok line =>
      outline.list (line :: done) (node.children.map (fun child => (depth + 1, child)) ++ waiting)
termination_by waiting => pendingSize waiting
decreasing_by
  rw [pendingSize_append, pendingSize_map, pendingSize, Node.size_eq node]
  omega

/-- The lines of a tree from a depth on. -/
def lines (outline : Outline) (depth : Int) (tree : Node) : Except Fault (List String) :=
  outline.list [] [(depth, tree)]

end Outline

end Reckon
