/-!
# Terminals and rules

The words of the grammar: the terminals that tokens belong to and the rules that inner nodes of a
tree belong to.  Trees carry their names as text, since a tree built by hand may name anything.
-/

namespace Reckon

/-- A class of tokens. -/
inductive Terminal where
  | number
  | string
  | name
  | comparison
  | plus
  | minus
  | star
  | slash
  | percent
  | caret
  | equals
  | lparen
  | rparen
  | print
  | separator
  deriving DecidableEq

/-- The name of a terminal. -/
def Terminal.label : Terminal → String
  | .number => "NUMBER"
  | .string => "STRING"
  | .name => "NAME"
  | .comparison => "CMP_OP"
  | .plus => "PLUS"
  | .minus => "MINUS"
  | .star => "STAR"
  | .slash => "SLASH"
  | .percent => "PERCENT"
  | .caret => "CARET"
  | .equals => "EQUAL"
  | .lparen => "LPAR"
  | .rparen => "RPAR"
  | .print => "PRINT"
  | .separator => "_SEP"

/-- A rule of the grammar that makes a node. -/
inductive Rule where
  | program
  | assign
  | print
  | compare
  | add
  | mul
  | pow
  | neg
  deriving DecidableEq

namespace Rule

/-- The name of a rule. -/
def label : Rule → String
  | .program => "program"
  | .assign => "assign"
  | .print => "print_stmt"
  | .compare => "compare"
  | .add => "add"
  | .mul => "mul"
  | .pow => "pow"
  | .neg => "neg"

/-- All rules. -/
def all : List Rule := [.program, .assign, .print, .compare, .add, .mul, .pow, .neg]

/-- The rule of a name. -/
def ofLabel? (label : String) : Option Rule := all.find? fun rule => rule.label == label

@[simp] theorem ofLabel?_label (rule : Rule) : ofLabel? rule.label = some rule := by
  cases rule <;> decide

theorem label_of_ofLabel? {label : String} {rule : Rule} (h : ofLabel? label = some rule) :
    rule.label = label := by
  simpa using List.find?_some h

end Rule

end Reckon
