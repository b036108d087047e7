/-!
# Engines

Two engines read the same grammar.  They differ in where the word `print` is the keyword, and in
the place they report for a text that ends too early.
-/

namespace Reckon

/-- A parsing engine. -/
inductive Engine where
  | lalr
  | earley
  deriving DecidableEq

namespace Engine

/-- The name of an engine. -/
def name : Engine → String
  | .lalr => "lalr"
  | .earley => "earley"

/-- All engines. -/
def all : List Engine := [.lalr, .earley]

/-- The engine of a name. -/
def ofName? (name : String) : Option Engine := all.find? fun engine => engine.name == name

@[simp] theorem ofName?_name (engine : Engine) : ofName? engine.name = some engine := by
  cases engine <;> decide

/-- Whether the word `print` is the keyword, given that a statement may start there or not. -/
def readsKeyword (engine : Engine) (atStart : Bool) : Bool :=
  match engine with
  | .lalr => atStart
  | .earley => true

end Engine

end Reckon
