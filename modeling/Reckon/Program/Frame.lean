import Reckon.Program.Operand

/-!
# Frames

A frame holds the operations that wait for their right operand inside one pair of parentheses, or
outside all of them.  At most one comparison, one sum and one product can wait at a time, each
binding tighter than the one before; below them any number of minus signs and powers.  Closing a
frame around an operand completes them from the tightest outwards.
-/

namespace Reckon

/-- A minus sign or a power that waits for its operand. -/
inductive Tight where
  | neg (minus : Token)
  | pow (base : Operand) (caret : Token)

/-- The waiting operation around an operand. -/
def Tight.close : Tight → Operand → Operand
  | .neg minus, x => .negation minus x
  | .pow base caret, x => .binary .pow base caret x

/-- A left operand and the operator behind it. -/
structure Left where
  operand : Operand
  operator : Token

/-- A left operand, if there is one, joined with a right one. -/
def Left.close (rule : Rule) (left : Option Left) (right : Operand) : Operand :=
  match left with
  | none => right
  | some left => .binary rule left.operand left.operator right

/-- The operations waiting inside one pair of parentheses, the tightest being innermost. -/
structure Frame where
  comparison : Option Left := none
  sum : Option Left := none
  product : Option Left := none
  tight : List Tight := []

namespace Frame

/-- The minus signs and powers closed around an operand. -/
def closeTight (frame : Frame) (x : Operand) : Operand :=
  frame.tight.foldl (fun x waiting => waiting.close x) x

/-- Everything down to the product closed around an operand. -/
def closeProduct (frame : Frame) (x : Operand) : Operand :=
  Left.close .mul frame.product (frame.closeTight x)

/-- Everything down to the sum closed around an operand. -/
def closeSum (frame : Frame) (x : Operand) : Operand :=
  Left.close .add frame.sum (frame.closeProduct x)

/-- The whole frame closed around an operand. -/
def close (frame : Frame) (x : Operand) : Operand :=
  Left.close .compare frame.comparison (frame.closeSum x)

/-- The frame after an operand and a token that joins it to the next, if such a token may stand
there. -/
def join? (frame : Frame) (x : Operand) (token : Token) : Option Frame :=
  match token.kind with
  | .caret => some { frame with tight := .pow x token :: frame.tight }
  | .star | .slash | .percent =>
    some { frame with product := some ⟨frame.closeProduct x, token⟩, tight := [] }
  | .plus | .minus =>
    some { frame with sum := some ⟨frame.closeSum x, token⟩, product := none, tight := [] }
  | .comparison =>
    if frame.comparison.isSome then none
    else some { comparison := some ⟨frame.closeSum x, token⟩ }
  | _ => none

end Frame

end Reckon
