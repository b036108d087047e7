import Reckon.Scale

/-!
# Repeated text

`repeated text count` is a text written a number of times over (`toList_repeated`).  `repeat?` takes
any whole number and refuses those for which there is no such text: numbers beyond a machine word,
and texts that are too long to count, or to hold in the memory there is.  A text that is wanted once
is there already.  What `repeat?` gives is written only when it is needed.
-/

namespace Reckon

/-- A text, the given number of times over. -/
def repeated (text : String) (count : Nat) : String :=
  if text = "" then "" else count.repeat (· ++ text) ""

theorem toList_repeat_append (text : String) (count : Nat) :
    (count.repeat (· ++ text) "").toList = (List.replicate count text.toList).flatten := by
  induction count with
  | zero => rfl
  | succ count ih => rw [Nat.repeat, String.toList_append, ih, List.replicate_succ']; simp

theorem toList_repeated (text : String) (count : Nat) :
    (repeated text count).toList = (List.replicate count text.toList).flatten := by
  by_cases h : text = ""
  · simp [repeated, h]
  · rw [repeated, if_neg h, toList_repeat_append]

/-- Why a text cannot be repeated. -/
inductive RepeatFault where
  /-- The number does not fit a machine word. -/
  | uncountable
  /-- The length of the text does not fit a machine word. -/
  | tooLong
  /-- The text does not fit in memory. -/
  | outOfMemory
  deriving DecidableEq

namespace RepeatFault

/-- The wording of a fault. -/
def message : RepeatFault → String
  | .uncountable => "cannot fit 'int' into an index-sized integer"
  | .tooLong => "repeated string is too long"
  | .outOfMemory => ""

/-- The class of a fault. -/
def className : RepeatFault → String
  | .uncountable | .tooLong => "OverflowError"
  | .outOfMemory => "MemoryError"

end RepeatFault

/-- The least number that does not fit a machine word. -/
def wordLimit : Nat := twoPow 63

/-- A text, a number of times over; there is nothing of it below one.  There
is memory for a new text of as many characters as given. -/
def repeat? (memory : Nat) (text : Thunk String) (count : Int) :
    Except RepeatFault (Thunk String) :=
  if count < -wordLimit ∨ wordLimit ≤ count then .error .uncountable
  else if count ≤ 0 then .ok ""
  else if count = 1 then .ok text
  else if wordLimit ≤ text.get.length * count then .error .tooLong
  else if memory < text.get.length * count then .error .outOfMemory
  else .ok (.mk fun _ => repeated text.get count.toNat)

end Reckon
