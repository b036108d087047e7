import Reckon.Tree.Basic

/-!
# Tokens

A token is a terminal, the text it was read from, and the mark where that text starts.  Marks count
lines and columns from one; only a newline ends a line, and every other character is one column.
-/

namespace Reckon

/-- A place in a source text. -/
structure Mark where
  line : Nat := 1
  column : Nat := 1
  deriving DecidableEq

namespace Mark

/-- The mark after a character. -/
def next (mark : Mark) (c : Char) : Mark :=
  if c = '\n' then ⟨mark.line + 1, 1⟩ else ⟨mark.line, mark.column + 1⟩

/-- The mark after a text. -/
def after (mark : Mark) (cs : List Char) : Mark := cs.foldl next mark

@[simp] theorem after_nil (mark : Mark) : mark.after [] = mark := rfl

@[simp] theorem after_append (mark : Mark) (cs ds : List Char) :
    mark.after (cs ++ ds) = (mark.after cs).after ds := List.foldl_append

/-- A mark as the position of a node. -/
def position (mark : Mark) : Position := ⟨mark.line, some mark.column⟩

end Mark

/-- A token. -/
structure Token where
  kind : Terminal
  text : String
  mark : Mark
  deriving DecidableEq

/-- The leaf of a tree that a token makes. -/
def Token.leaf (token : Token) : Node :=
  .token token.kind.label token.text (some token.mark.position)

end Reckon
