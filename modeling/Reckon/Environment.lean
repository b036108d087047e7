import Reckon.Value

/-!
# Environments

The bindings of names to values, and the text written so far.  A name is bound once; binding it
again replaces its value.
-/

namespace Reckon

/-- Names bound to values. -/
structure Bindings where
  entries : List (String × Value) := []

namespace Bindings

/-- The entries with a name bound to a value. -/
def put (name : String) (value : Value) : List (String × Value) → List (String × Value)
  | [] => [(name, value)]
  | (other, old) :: rest =>
    if other = name then (name, value) :: rest else (other, old) :: put name value rest

/-- The bindings with a name bound to a value. -/
def define (bindings : Bindings) (name : String) (value : Value) : Bindings :=
  ⟨put name value bindings.entries⟩

/-- The value of a name. -/
def get? (bindings : Bindings) (name : String) : Option Value := bindings.entries.lookup name

/-- Whether a name is bound. -/
def contains (bindings : Bindings) (name : String) : Bool := (bindings.get? name).isSome

/-- The number of bound names. -/
def size (bindings : Bindings) : Nat := bindings.entries.length

/-- The entries ordered by name. -/
def sorted (bindings : Bindings) : List (String × Value) :=
  bindings.entries.mergeSort fun a b => !decide (b.1 < a.1)

theorem lookup_put (name other : String) (value : Value) (entries : List (String × Value)) :
    (put name value entries).lookup other =
      if other = name then some value else entries.lookup other := by
  induction entries with
  | nil => grind [put]
  | cons entry rest ih => grind [put]

@[simp] theorem get?_define (bindings : Bindings) (name other : String) (value : Value) :
    (bindings.define name value).get? other =
      if other = name then some value else bindings.get? other :=
  lookup_put name other value bindings.entries

@[simp] theorem get?_empty (name : String) : ({} : Bindings).get? name = none := rfl

end Bindings

/-- The bindings and the text written so far. -/
structure Environment where
  bindings : Bindings := {}
  written : String := ""

namespace Environment

/-- The environment with a name bound to a value. -/
def define (env : Environment) (name : String) (value : Value) : Environment :=
  { env with bindings := env.bindings.define name value }

/-- The environment with a line written. -/
def writeLine (env : Environment) (line : String) : Environment :=
  { env with written := env.written ++ line ++ "\n" }

end Environment

end Reckon
