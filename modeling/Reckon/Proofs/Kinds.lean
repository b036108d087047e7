import Reckon.Proofs.Depth
import Reckon.Proofs.Lockstep

/-!
# Kinds decide kind faults

Which operands an operator takes is a matter of their kinds, and so is the kind of what it gives.
The values themselves only decide whether a divisor is zero, whether a result is in range and
whether a foreign value is shown.  So two evaluations on values of the same kinds go side by side
until one of them has such a fault (`lockstep_kinds`), and a kind fault in one of them keeps the
other from succeeding (`evaluate_kinds`).
-/

namespace Reckon

/-- The causes that values decide and not their kinds.  A lack of room is one of them, as it may be
met on the search for the position of such a fault. -/
def Cause.DependsOnValues : Cause → Prop
  | .divisionByZero _ | .operatorRange _ | .unshowable (.foreign _) | .nestedTooDeeply => True
  | _ => False

/-- Both bind the same names, to values of the same kinds. -/
def Bindings.SameKinds (bindings bindings' : Bindings) : Prop :=
  ∀ name, (bindings.get? name).map Value.kind = (bindings'.get? name).map Value.kind

namespace Bindings.SameKinds

variable {bindings bindings' : Bindings}

theorem rel_get? (h : bindings.SameKinds bindings') (name : String) :
    Option.Rel (fun a b : Value => a.kind = b.kind) (bindings.get? name) (bindings'.get? name) := by
  have hname := h name
  generalize bindings.get? name = found at hname ⊢
  generalize bindings'.get? name = found' at hname ⊢
  cases found with
  | none =>
    obtain rfl := Option.map_eq_none_iff.1 hname.symm
    exact .none
  | some a =>
    obtain ⟨b, rfl, hb⟩ := Option.map_eq_some_iff.1 hname.symm
    exact .some hb.symm

theorem define (h : bindings.SameKinds bindings') (name : String) {a b : Value}
    (hab : a.kind = b.kind) : (bindings.define name a).SameKinds (bindings'.define name b) := by
  intro other
  rw [get?_define, get?_define]
  split
  · exact congrArg some hab
  · exact h other

end Bindings.SameKinds

/-! ## Operators -/

/-- The kinds that an operator or a comparator may take together: numbers, or texts. -/
def Kind.Pairs (kind kind' : Kind) : Prop := kind = kind' ∧ (kind = .number ∨ kind = .text)

namespace Value

variable {a b : Value}

theorem exists_of_kind_number (h : a.kind = .number) : ∃ x, a = .number x := by
  cases a with
  | number x => exact ⟨x, rfl⟩
  | text | nil | foreign => cases h

theorem exists_of_kind_text (h : a.kind = .text) : ∃ s, a = .text s := by
  cases a with
  | text s => exact ⟨s, rfl⟩
  | number | nil | foreign => cases h

theorem exists_of_pairs (h : a.kind.Pairs b.kind) :
    (∃ x y, a = .number x ∧ b = .number y) ∨ ∃ s t, a = .text s ∧ b = .text t := by
  obtain ⟨hsame, hnumber | htext⟩ := h
  · obtain ⟨x, rfl⟩ := exists_of_kind_number hnumber
    obtain ⟨y, rfl⟩ := exists_of_kind_number (hsame.symm.trans hnumber)
    exact .inl ⟨x, y, rfl, rfl⟩
  · obtain ⟨s, rfl⟩ := exists_of_kind_text htext
    obtain ⟨t, rfl⟩ := exists_of_kind_text (hsame.symm.trans htext)
    exact .inr ⟨s, t, rfl, rfl⟩

theorem compare_of_not_pairs (symbol : String) (h : ¬ a.kind.Pairs b.kind) :
    Value.compare symbol a b =
      if symbol = "==" then .ok (a.equal b)
      else if symbol = "!=" then .ok (!a.equal b)
      else .error (.kindMismatch symbol [a.kind, b.kind]) := by
  unfold Value.compare
  split
  · rfl
  split
  · rfl
  split
  · exact absurd ⟨rfl, .inl rfl⟩ h
  · exact absurd ⟨rfl, .inr rfl⟩ h
  · rfl

end Value

theorem Operator.apply_of_not_pairs (op : Operator) {a b : Value} (h : ¬ a.kind.Pairs b.kind) :
    op.apply a b = .error (.kindMismatch op.symbol [a.kind, b.kind]) := by
  unfold Operator.apply
  split
  · exact absurd ⟨rfl, .inl rfl⟩ h
  · exact absurd ⟨rfl, .inr rfl⟩ h
  · rfl

/-- An operator on numbers gives a number, or has a fault that depends on their values. -/
theorem Operator.apply_numbers_cases (op : Operator) (x y : Binary64) :
    (∃ z, op.apply (.number x) (.number y) = .ok (.number z)) ∨
      ∃ cause, op.apply (.number x) (.number y) = .error cause ∧ cause.DependsOnValues := by
  rw [apply]
  split
  · exact .inr ⟨_, rfl, trivial⟩
  · simp only
    split
    · exact .inl ⟨_, rfl⟩
    · exact .inr ⟨_, rfl, trivial⟩

section

variable {a b c d : Value}

theorem Operator.apply_kinds (op : Operator) (hab : a.kind = b.kind) (hcd : c.kind = d.kind) :
    Cause.Matches Cause.DependsOnValues (fun a b => a.kind = b.kind) (op.apply a c)
      (op.apply b d) := by
  by_cases hpairs : a.kind.Pairs c.kind
  · obtain ⟨x, y, rfl, rfl⟩ | ⟨s, t, rfl, rfl⟩ := Value.exists_of_pairs hpairs
    · obtain ⟨x', rfl⟩ := Value.exists_of_kind_number hab.symm
      obtain ⟨y', rfl⟩ := Value.exists_of_kind_number hcd.symm
      obtain ⟨z, hz⟩ | ⟨cause, hcause, hvalues⟩ := op.apply_numbers_cases x y
      · obtain ⟨z', hz'⟩ | ⟨cause, hcause, hvalues⟩ := op.apply_numbers_cases x' y'
        · rw [hz, hz']
          exact .ok rfl
        · rw [hcause]
          exact .right hvalues _
      · rw [hcause]
        exact .left hvalues _
    · obtain ⟨s', rfl⟩ := Value.exists_of_kind_text hab.symm
      obtain ⟨t', rfl⟩ := Value.exists_of_kind_text hcd.symm
      rw [apply, apply]
      split
      · exact .ok rfl
      · exact .error _
  · have hpairs' : ¬ b.kind.Pairs d.kind := hab ▸ hcd ▸ hpairs
    rw [apply_of_not_pairs op hpairs, apply_of_not_pairs op hpairs', hab, hcd]
    exact .error _

theorem Comparator.applyText_kinds (symbol : String) (f g : Comparator → Bool) :
    Cause.Matches Cause.DependsOnValues
      (fun p q => (Value.ofBool p).kind = (Value.ofBool q).kind) (applyText symbol f)
      (applyText symbol g) := by
  unfold applyText
  split
  · exact .error _
  · exact .ok rfl

theorem Value.compare_kinds (symbol : String) (hab : a.kind = b.kind) (hcd : c.kind = d.kind) :
    Cause.Matches Cause.DependsOnValues
      (fun p q => (Value.ofBool p).kind = (Value.ofBool q).kind) (Value.compare symbol a c)
      (Value.compare symbol b d) := by
  by_cases hpairs : a.kind.Pairs c.kind
  · unfold Value.compare
    split
    · exact .ok rfl
    split
    · exact .ok rfl
    obtain ⟨x, y, rfl, rfl⟩ | ⟨s, t, rfl, rfl⟩ := Value.exists_of_pairs hpairs
    · obtain ⟨x', rfl⟩ := Value.exists_of_kind_number hab.symm
      obtain ⟨y', rfl⟩ := Value.exists_of_kind_number hcd.symm
      exact Comparator.applyText_kinds symbol _ _
    · obtain ⟨s', rfl⟩ := Value.exists_of_kind_text hab.symm
      obtain ⟨t', rfl⟩ := Value.exists_of_kind_text hcd.symm
      exact Comparator.applyText_kinds symbol _ _
  · have hpairs' : ¬ b.kind.Pairs d.kind := hab ▸ hcd ▸ hpairs
    rw [Value.compare_of_not_pairs symbol hpairs, Value.compare_of_not_pairs symbol hpairs', hab,
      hcd]
    split
    · exact .ok rfl
    split
    · exact .ok rfl
    · exact .error _

theorem Value.negate_kinds (hab : a.kind = b.kind) :
    Cause.Matches Cause.DependsOnValues (fun a b => a.kind = b.kind) a.negate b.negate := by
  by_cases hnumber : a.kind = .number
  · obtain ⟨x, rfl⟩ := exists_of_kind_number hnumber
    obtain ⟨y, rfl⟩ := exists_of_kind_number (hab.symm.trans hnumber)
    exact .ok rfl
  · have hnegate (value : Value) (h : value.kind ≠ .number) :
        value.negate = .error (.kindMismatch "-" [value.kind]) := by
      cases value with
      | number x => exact absurd rfl h
      | text | nil | foreign => rfl
    rw [hnegate a hnumber, hnegate b (hab ▸ hnumber), hab]
    exact .error _

theorem Value.shown_kinds (hab : a.kind = b.kind) :
    Cause.Matches Cause.DependsOnValues (fun a b => a.kind = b.kind) a.shown b.shown := by
  obtain ha | ⟨f, -, -, ha⟩ := a.shown_cases
  · obtain hb | ⟨f, -, -, hb⟩ := b.shown_cases
    · rw [ha, hb]
      exact .ok hab
    · rw [hb]
      exact .right trivial _
  · rw [ha]
    exact .left trivial _

end

/-! ## Runs on values of the same kinds -/

theorem lockstep_kinds :
    Lockstep Cause.DependsOnValues (fun env env' => env.bindings.SameKinds env'.bindings)
      fun a b => a.kind = b.kind where
  deep _ _ := trivial
  number _ := rfl
  text _ := rfl
  nil := rfl
  get? name henv := henv.rel_get? name
  define name henv hab := henv.define name hab
  writeLine henv _ := henv
  shown := Value.shown_kinds
  negate := Value.negate_kinds
  applyText symbol hab hcd := by
    unfold Operator.applyText
    split
    · exact .error _
    · exact Operator.apply_kinds _ hab hcd
  compare := Value.compare_kinds

theorem Cause.DependsOnValues.cases {cause : Cause} (h : cause.DependsOnValues) :
    cause.className ∈ ["DivisionByZeroError", "NumericRangeError"] ∨ cause = .nestedTooDeeply ∨
      ∃ f, cause = .unshowable (.foreign f) := by
  cases cause with
  | divisionByZero | operatorRange => exact .inl (by simp [className])
  | nestedTooDeeply => exact .inr (.inl rfl)
  | unshowable found =>
    cases found with
    | foreign f => exact .inr (.inr ⟨f, rfl⟩)
    | rule | token => exact h.elim
  | _ => exact h.elim

theorem Cause.DependsOnValues.className_notMem {cause : Cause} (h : cause.DependsOnValues) :
    cause.className ∉ ["TypeMismatchError", "UndefinedVariableError"] := by
  cases cause with
  | divisionByZero | operatorRange | unshowable | nestedTooDeeply => simp [className]
  | _ => exact h.elim

/-- A tree that runs out of room has more than 152 levels. -/
theorem lt_height_of_nestedTooDeeply {tree : Node} {env : Environment} {fault : Fault}
    (h : (evaluate tree env).result = .error fault) (hcause : fault.cause = .nestedTooDeeply) :
    152 < tree.height := by
  by_contra hheight
  have hadmits : Room.Admits (some nestingLimit) tree :=
    Room.admits_some.2 (by rw [nestingLimit]; omega)
  exact tree.hasRoom_eval env hadmits fault h hcause

theorem Fault.cases_of_dependsOnValues {tree : Node} {env : Environment} {fault : Fault}
    (h : (evaluate tree env).result = .error fault) (hvalues : fault.cause.DependsOnValues) :
    fault.cause.className ∈ ["DivisionByZeroError", "NumericRangeError"] ∨
      (fault.cause = .nestedTooDeeply ∧ 152 < tree.height) ∨
      ∃ f, fault.cause = .unshowable (.foreign f) := by
  obtain hclass | hdeep | hhidden := hvalues.cases
  · exact .inl hclass
  · exact .inr (.inl ⟨hdeep, lt_height_of_nestedTooDeeply h hdeep⟩)
  · exact .inr (.inr hhidden)

/-- A tree is evaluated twice, where the same names have values of the same kinds.  If both
evaluations succeed, they give values of the same kind and leave the same names with values of the
same kinds.  If one has a kind fault, neither succeeds; and if both fail, it is with the same fault,
unless one of the faults is such that values decide on it. -/
theorem evaluate_kinds (tree : Node) {env env' : Environment}
    (henv : env.bindings.SameKinds env'.bindings) :
    (∀ value value', (evaluate tree env).result = .ok value →
      (evaluate tree env').result = .ok value' →
        value.kind = value'.kind ∧
          (evaluate tree env).env.bindings.SameKinds (evaluate tree env').env.bindings) ∧
    (∀ fault, (evaluate tree env).result = .error fault ∨
        (evaluate tree env').result = .error fault →
      fault.cause.className ∈ ["TypeMismatchError", "UndefinedVariableError"] →
        ∀ value, (evaluate tree env).result ≠ .ok value ∧
          (evaluate tree env').result ≠ .ok value) ∧
    ∀ fault fault', (evaluate tree env).result = .error fault →
      (evaluate tree env').result = .error fault' →
        fault = fault' ∨ ∃ cause ∈ [fault.cause, fault'.cause],
          cause.className ∈ ["DivisionByZeroError", "NumericRangeError"] ∨
            (cause = .nestedTooDeeply ∧ 152 < tree.height) ∨
            ∃ f, cause = .unshowable (.foreign f) := by
  have hrun := lockstep_kinds.eval (some nestingLimit) henv tree
  have hleft := @Fault.cases_of_dependsOnValues tree env
  have hright := @Fault.cases_of_dependsOnValues tree env'
  change Outcome.Matches _ _ _ (evaluate tree env) (evaluate tree env') at hrun
  generalize evaluate tree env = outcome at hrun hleft ⊢
  generalize evaluate tree env' = outcome' at hrun hright ⊢
  cases hrun with
  | ok hvalue hend =>
    refine ⟨?_, by simp, by simp⟩
    rintro _ _ ⟨⟩ ⟨⟩
    exact ⟨hvalue, hend⟩
  | error fault hend => exact ⟨by simp, by simp, by simp⟩
  | left hvalues after outcome =>
    refine ⟨by simp, ?_, ?_⟩
    · rintro fault (hfault | hfault) hclass value
      · obtain rfl := Except.error.inj hfault
        exact absurd hclass hvalues.className_notMem
      · exact ⟨by simp, by simp [hfault]⟩
    · rintro _ fault' ⟨⟩ -
      exact .inr ⟨_, List.mem_cons_self, hleft rfl hvalues⟩
  | right hvalues after outcome =>
    refine ⟨by simp, ?_, ?_⟩
    · rintro fault (hfault | hfault) hclass value
      · exact ⟨by simp [hfault], by simp⟩
      · obtain rfl := Except.error.inj hfault
        exact absurd hclass hvalues.className_notMem
    · rintro fault _ - ⟨⟩
      exact .inr ⟨_, List.mem_cons_of_mem _ List.mem_cons_self, hright rfl hvalues⟩

/-- A name bound to a number. -/
def numberBinding (x : Binary64) : Environment := ({} : Environment).define "x" (.number x)

theorem sameKinds_numberBinding (x y : Binary64) :
    (numberBinding x).bindings.SameKinds (numberBinding y).bindings :=
  have hempty : ({} : Bindings).SameKinds {} := fun _ => rfl
  hempty.define "x" (show (Value.number x).kind = (Value.number y).kind from rfl)

/-- The number divides one, and is then to be multiplied by a text. -/
def divideThenMultiply : Node :=
  .rule Rule.program.label
    [.rule Rule.mul.label
      [.token Terminal.number.label "1" none, .token Terminal.slash.label "/" none,
        .token Terminal.name.label "x" none] none,
      .rule Rule.mul.label
        [.token Terminal.string.label "\"a\"" none, .token Terminal.star.label "*" none,
          .token Terminal.name.label "x" none] none] none

theorem evaluate_divideThenMultiply :
    (numberBinding .one).bindings.SameKinds (numberBinding (.zero false)).bindings ∧
      (∃ fault, (evaluate divideThenMultiply (numberBinding .one)).result = .error fault ∧
        fault.cause.className = "TypeMismatchError") ∧
      ∀ value, (evaluate divideThenMultiply (numberBinding (.zero false))).result ≠ .ok value := by
  have hkinds := sameKinds_numberBinding .one (.zero false)
  have hclass : (evaluate divideThenMultiply (numberBinding .one)).result.mapError
      (·.cause.className) = .error "TypeMismatchError" := by decide +kernel
  cases hresult : (evaluate divideThenMultiply (numberBinding .one)).result with
  | ok value =>
    rw [hresult] at hclass
    cases hclass
  | error fault =>
    rw [hresult] at hclass
    have hname : fault.cause.className = "TypeMismatchError" := Except.error.inj hclass
    refine ⟨hkinds, ⟨fault, rfl, hname⟩, fun value => ?_⟩
    have hmem : fault.cause.className ∈ ["TypeMismatchError", "UndefinedVariableError"] := by
      simp [hname]
    exact ((evaluate_kinds divideThenMultiply hkinds).2.1 fault (.inl hresult) hmem value).2

end Reckon
