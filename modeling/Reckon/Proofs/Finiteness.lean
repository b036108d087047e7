import Reckon.Proofs.Events

/-!
# Finite numbers

Literals and the results of operators are checked to be finite, and the other steps of evaluation
only pass numbers on, turn their signs or make a one or a zero.  So no infinity and no undefined
number is ever bound, printed or returned, however many trees are evaluated one after another and
whichever of them fail (`evaluate_finite`).
-/

namespace Reckon

/-- Not an infinity and not the undefined number. -/
def Value.isFinite : Value → Bool
  | .number x => x.isFinite
  | _ => true

/-! ## Operators -/

namespace Value

theorem isFinite_ofBool (b : Bool) : (ofBool b).isFinite := by
  cases b <;> rfl

theorem isFinite_negate {a value : Value} (ha : a.isFinite) (h : a.negate = .ok value) :
    value.isFinite := by
  cases a with
  | number x =>
    cases h
    show x.neg.isFinite
    rw [Binary64.isFinite_neg]
    exact ha
  | _ => cases h

end Value

/-- An operator checks its result, whatever its operands are. -/
theorem Operator.isFinite_apply {op : Operator} {a b value : Value} (h : op.apply a b = .ok value) :
    value.isFinite := by
  unfold apply at h
  split at h
  · split at h
    · cases h
    · simp only at h
      split at h
      · cases h
        assumption
      · cases h
  · split at h
    · cases h
      rfl
    · cases h
  · cases h

theorem Operator.isFinite_applyText {symbol : String} {a b value : Value}
    (h : applyText symbol a b = .ok value) : value.isFinite := by
  unfold applyText at h
  split at h
  · cases h
  · exact isFinite_apply h

theorem Literal.isFinite_number {literal : String} {value : Value}
    (h : number literal = .ok value) : value.isFinite := by
  unfold number at h
  split at h
  · cases h
  · split at h
    · cases h
      assumption
    · cases h

/-! ## Steps -/

theorem isFinite_tokenValue {bindings : Bindings} {kind text : String} {value : Value}
    (hb : bindings.All (Value.isFinite ·)) (h : tokenValue bindings kind text = .ok value) :
    value.isFinite := by
  unfold tokenValue at h
  split at h
  · exact Literal.isFinite_number h
  split at h
  · cases h
    rfl
  split at h
  · cases hget : bindings.get? text with
    | none => simp [hget] at h
    | some found =>
      simp only [hget, Except.ok.injEq] at h
      exact h ▸ hb text found hget
  · cases h

namespace Rule

theorem isFinite_applyAll {first value : Value} {rest : List (String × Value)}
    (hfirst : first.isFinite) (h : applyAll first rest = .ok value) : value.isFinite := by
  induction rest generalizing first with
  | nil =>
    cases h
    exact hfirst
  | cons entry rest ih =>
    rw [applyAll] at h
    cases happly : Operator.applyText entry.1 first entry.2 with
    | error cause => simp [happly] at h
    | ok second =>
      simp only [happly] at h
      exact ih (Operator.isFinite_applyText happly) h

theorem isFinite_applyInfix {symbols : List String} {values : List Value} {value : Value}
    (hvalues : ∀ operand ∈ values, operand.isFinite) (h : applyInfix symbols values = .ok value) :
    value.isFinite := by
  unfold applyInfix at h
  split at h
  · rename_i first rest
    split at h
    · exact isFinite_applyAll (hvalues first List.mem_cons_self) h
    · cases h
  · cases h

theorem isFinite_getLast? {values : List Value} (hvalues : ∀ operand ∈ values, operand.isFinite) :
    (values.getLast?.getD .nil).isFinite := by
  cases hlast : values.getLast? with
  | none => rfl
  | some value => exact hvalues value (List.mem_of_getLast? hlast)

theorem exists_of_bind_eq_ok {α β : Type} {x : Except Cause α} {next : α → Except Cause β} {b : β}
    (h : x >>= next = .ok b) : ∃ a, x = .ok a ∧ next a = .ok b := by
  cases x with
  | ok a => exact ⟨a, rfl, h⟩
  | error cause => cases h

theorem isFinite_value {rule : Rule} {room : Room} {children : List Node} {values : List Value}
    {value : Value} (hvalues : ∀ operand ∈ values, operand.isFinite)
    (h : rule.value room children values = .ok value) : value.isFinite := by
  unfold Rule.value at h
  split at h
  · cases h
    exact isFinite_getLast? hvalues
  · cases h
    exact hvalues _ List.mem_cons_self
  · cases h
  · rename_i operand
    obtain hshown | ⟨f, -, -, hhidden⟩ := operand.shown_cases
    · cases hshown.symm.trans h
      exact hvalues _ List.mem_cons_self
    · cases hhidden.symm.trans h
  · cases h
  · obtain ⟨symbol, -, h⟩ := exists_of_bind_eq_ok h
    obtain ⟨result, -, h⟩ := exists_of_bind_eq_ok h
    cases h
    exact Value.isFinite_ofBool result
  · cases h
  · split at h
    · exact Value.isFinite_negate (hvalues _ List.mem_cons_self) h
    · obtain ⟨symbol, -, h⟩ := exists_of_bind_eq_ok h
      cases h
  · cases h
  -- sums, products and powers
  all_goals
    obtain ⟨symbols, -, h⟩ := exists_of_bind_eq_ok h
    exact isFinite_applyInfix hvalues h

end Rule

theorem Value.kept_isFinite : Value.Kept (Value.isFinite ·) where
  token := isFinite_tokenValue
  rule := Rule.isFinite_value

/-! ## Evaluations one after another -/

/-- The environment after evaluating trees one after another, whatever becomes of each. -/
def evaluateAll (env : Environment) (trees : List Node) : Environment :=
  trees.foldl (fun env tree => (evaluate tree env).env) env

theorem evaluateAll_finite {env : Environment} (henv : env.bindings.All (Value.isFinite ·))
    (trees : List Node) : (evaluateAll env trees).bindings.All (Value.isFinite ·) := by
  induction trees generalizing env with
  | nil => exact henv
  | cons tree trees ih =>
    apply ih
    show ((tree.eval (some nestingLimit) env).env).bindings.All _
    rw [Node.env_eval]
    exact henv.replay (Value.kept_isFinite.eval _ henv tree).1

/-- After any number of evaluations, failed or not, the next one binds and prints finite numbers
only.  It returns a finite number or none, and what is bound behind it is finite even if it
fails. -/
theorem evaluate_finite {env : Environment} (henv : env.bindings.All (Value.isFinite ·))
    (earlier : List Node) (tree : Node) :
    let before := evaluateAll env earlier
    let events := tree.events (some nestingLimit) before
    (∀ event ∈ events, event.value.isFinite) ∧
      (evaluate tree before).env = Event.replay events before ∧
      (evaluate tree before).env.bindings.All (Value.isFinite ·) ∧
      ∀ value, (evaluate tree before).result = .ok value → value.isFinite := by
  intro before events
  have hbefore : before.bindings.All (Value.isFinite ·) := evaluateAll_finite henv earlier
  obtain ⟨hevents, hvalue⟩ := Value.kept_isFinite.eval (some nestingLimit) hbefore tree
  have henv : (evaluate tree before).env = Event.replay events before := tree.env_eval _ before
  refine ⟨hevents, henv, ?_, hvalue⟩
  rw [henv]
  exact hbefore.replay hevents

/-- A name bound to a number close to the end of the format. -/
def hugeBinding : Node :=
  .rule Rule.assign.label
    [.token Terminal.name.label "x" none, .token Terminal.number.label "1e308" none] none

/-- The square of that number, to be printed. -/
def hugeSquare : Node :=
  .rule Rule.print.label
    [.rule Rule.mul.label
      [.token Terminal.name.label "x" none, .token Terminal.star.label "*" none,
        .token Terminal.name.label "x" none] none] none

theorem evaluate_hugeSquare :
    let before := evaluateAll {} [hugeBinding]
    before.bindings.contains "x" ∧ (evaluate hugeSquare before).result.toOption = none ∧
      (evaluate hugeSquare before).env.bindings.All (Value.isFinite ·) := by
  refine ⟨by decide +kernel, by decide +kernel, ?_⟩
  exact (evaluate_finite (Bindings.all_empty _) [hugeBinding] hugeSquare).2.2.1

end Reckon
