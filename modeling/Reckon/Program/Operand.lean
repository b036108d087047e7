import Reckon.Token.Basic

/-!
# Operands

A part of an expression that has been read: its tree, and the mark from which a node that contains
it counts its own position.  Parentheses around a rule node move that mark to the outermost of
them; parentheses around a single token leave no trace.
-/

namespace Reckon

/-- A tree and the mark from which its containers start. -/
structure Operand where
  node : Node
  start : Mark

namespace Operand

/-- A single token. -/
def ofToken (token : Token) : Operand := ⟨token.leaf, token.mark⟩

/-- A rule node that starts at a mark. -/
def ofRule (rule : Rule) (children : List Node) (start : Mark) : Operand :=
  ⟨.rule rule.label children (some start.position), start⟩

/-- Two operands joined by an operator. -/
def binary (rule : Rule) (left : Operand) (operator : Token) (right : Operand) : Operand :=
  ofRule rule [left.node, operator.leaf, right.node] left.start

/-- An operand behind a minus sign. -/
def negation (minus : Token) (operand : Operand) : Operand :=
  ofRule .neg [minus.leaf, operand.node] minus.mark

/-- An operand in parentheses that open at a mark. -/
def enclose (opening : Mark) (operand : Operand) : Operand :=
  match operand.node with
  | .rule .. => { operand with start := opening }
  | _ => operand

end Operand

end Reckon
