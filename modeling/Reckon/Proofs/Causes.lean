import Reckon.Evaluation.Step

/-!
# Causes of single steps

What computing with values and texts can fail with (`Cause.OfComputation`), what printing can
(`Cause.OfDisplay`), and what a token can (`Cause.OfToken`).  A computation reads no name, and
neither it nor a token describes a node or takes room.
-/

namespace Reckon

namespace Cause

variable {α β : Type} {P Q : Cause → Prop} {result : Except Cause α}

/-- A result that fails only with causes of some kind. -/
def Only (P : Cause → Prop) (result : Except Cause α) : Prop :=
  ∀ cause, result = .error cause → P cause

theorem only_ok (P : Cause → Prop) (a : α) : Only P (.ok a) := by
  intro cause h
  cases h

theorem only_error {cause : Cause} (h : P cause) : Only P (.error cause : Except Cause α) := by
  intro found hfound
  cases hfound
  exact h

namespace Only

theorem mono (h : Only P result) (hPQ : ∀ cause, P cause → Q cause) : Only Q result :=
  fun cause hcause => hPQ cause (h cause hcause)

theorem bind {next : α → Except Cause β} (h : Only P result) (hnext : ∀ a, Only P (next a)) :
    Only P (result >>= next) := by
  cases result with
  | ok a => exact hnext a
  | error cause => exact only_error (h cause rfl)

theorem mapM {f : α → Except Cause β} {as : List α} (hf : ∀ a ∈ as, Only P (f a)) :
    Only P (as.mapM f) := by
  induction as with
  | nil => exact only_ok P []
  | cons a as ih =>
    rw [List.forall_mem_cons] at hf
    rw [List.mapM_cons]
    exact hf.1.bind fun b => (ih hf.2).bind fun bs => only_ok P (b :: bs)

end Only

/-- Causes that lie in the values and texts that are computed with. -/
def OfComputation : Cause → Prop
  | .divisionByZero _ | .kindMismatch .. | .operatorRange _ | .literalRange _
  | .malformedNumber _ | .malformedInfix | .unknownOperator _ | .unknownComparator _ => True
  | _ => False

theorem only_apply (op : Operator) (a b : Value) : Only OfComputation (op.apply a b) := by
  unfold Operator.apply
  split
  · split
    · exact only_error trivial
    · dsimp only
      split
      · exact only_ok _ _
      · exact only_error trivial
  · split
    · exact only_ok _ _
    · exact only_error trivial
  · exact only_error trivial

theorem only_applyText (symbol : String) (a b : Value) :
    Only OfComputation (Operator.applyText symbol a b) := by
  unfold Operator.applyText
  split
  · exact only_error trivial
  · exact only_apply _ a b

theorem only_compare (symbol : String) (a b : Value) :
    Only OfComputation (Value.compare symbol a b) := by
  have hordered (onOrdered : Comparator → Bool) :
      Only OfComputation (Comparator.applyText symbol onOrdered) := by
    unfold Comparator.applyText
    split
    · exact only_error trivial
    · exact only_ok _ _
  unfold Value.compare
  split
  · exact only_ok _ _
  split
  · exact only_ok _ _
  split
  · exact hordered _
  · exact hordered _
  · exact only_error trivial

theorem only_negate (a : Value) : Only OfComputation a.negate := by
  cases a with
  | number x => exact only_ok _ _
  | _ => exact only_error trivial

theorem only_number (literal : String) : Only OfComputation (Literal.number literal) := by
  unfold Literal.number
  split
  · exact only_error trivial
  · split
    · exact only_ok _ _
    · exact only_error trivial

theorem only_applyAll (first : Value) (steps : List (String × Value)) :
    Only OfComputation (Rule.applyAll first steps) := by
  induction steps generalizing first with
  | nil => exact only_ok _ _
  | cons step rest ih =>
    obtain ⟨symbol, second⟩ := step
    have hstep := only_applyText symbol first second
    rw [Rule.applyAll]
    cases happly : Operator.applyText symbol first second with
    | ok value => exact ih value
    | error cause => exact only_error (hstep cause happly)

theorem only_applyInfix (symbols : List String) (values : List Value) :
    Only OfComputation (Rule.applyInfix symbols values) := by
  unfold Rule.applyInfix
  split
  · split
    · exact only_applyAll _ _
    · exact only_error trivial
  · exact only_error trivial

/-- Causes of a value that is to be printed: the host does not show it. -/
def OfDisplay (cause : Cause) : Prop := ∃ f, cause = .unshowable (.foreign f)

theorem only_shown (value : Value) : Only OfDisplay value.shown := by
  obtain hshown | ⟨f, -, -, hhidden⟩ := value.shown_cases
  · rw [hshown]
    exact only_ok _ _
  · rw [hhidden]
    exact only_error ⟨f, rfl⟩

/-- Causes that a token has: those of its literal, a name without a value and a kind without one. -/
def OfToken : Cause → Prop
  | .undefinedName _ | .unhandledToken .. => True
  | cause => cause.OfComputation

theorem only_tokenValue (bindings : Bindings) (kind text : String) :
    Only OfToken (tokenValue bindings kind text) := by
  unfold tokenValue
  split
  · refine (only_number text).mono fun cause hcause => ?_
    cases cause <;> trivial
  split
  · exact only_ok _ _
  split
  · split
    · exact only_ok _ _
    · exact only_error trivial
  · exact only_error trivial

end Cause

/-- A fault keeps its cause when it is placed, if there is room for that. -/
theorem Fault.cause_locate (fault : Fault) (room : Room) (node : Node) :
    (fault.locate room node).cause = fault.cause ∨
      (fault.locate room node).cause = .nestedTooDeeply := by
  unfold locate
  split
  · exact .inl rfl
  split
  · exact .inl rfl
  · exact .inr rfl

theorem Fault.cause_locate_of_holds {fault : Fault} {room : Room} {node : Node}
    (h : room.holds node.reach) : (fault.locate room node).cause = fault.cause := by
  rw [locate, if_pos h]
  split <;> rfl

end Reckon
