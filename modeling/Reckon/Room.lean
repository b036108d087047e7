/-!
# Room on the stack

Whatever goes down into a tree takes frames of the host's stack at every level: its evaluation, its
description and the search for a position in it.  A room is what is left of the stack.
-/

namespace Reckon

/-- The frames that are left, or no bound. -/
abbrev Room := Option Nat

namespace Room

/-- Whether there are as many frames left. -/
def holds : Room → Nat → Bool
  | none, _ => true
  | some left, frames => frames ≤ left

/-- The room left when some frames are taken, if there are as many. -/
def take? (room : Room) (frames : Nat) : Option Room :=
  if room.holds frames then some (room.map (· - frames)) else none

@[simp] theorem holds_none (frames : Nat) : holds none frames = true := rfl

@[simp] theorem holds_zero (room : Room) : room.holds 0 = true := by
  cases room with
  | none => rfl
  | some left => exact decide_eq_true (Nat.zero_le left)

theorem holds_some {left frames : Nat} : holds (some left) frames ↔ frames ≤ left :=
  decide_eq_true_iff

@[simp] theorem take?_none (frames : Nat) : take? none frames = some none := rfl

theorem take?_some {left frames : Nat} (h : frames ≤ left) :
    take? (some left) frames = some (some (left - frames)) := if_pos (holds_some.2 h)

theorem take?_eq_none {left frames : Nat} (h : left < frames) : take? (some left) frames = none :=
  if_neg (mt holds_some.1 (Nat.not_le.2 h))

end Room

end Reckon
