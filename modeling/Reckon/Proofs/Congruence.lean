import Reckon.Proofs.Lockstep

/-!
# Equality is a congruence

Equal numbers are the same, but for the sign of a zero (`Binary64.Alike`).  No operator, comparison
or display looks at that sign, unless it divides by the zero, and that is a fault for either sign.
So no tree tells equal values apart (`evaluate_congr`).
-/

namespace Reckon

namespace Binary64

/-- The same number, or two zeros. -/
inductive Alike : Binary64 → Binary64 → Prop
  | refl (x : Binary64) : Alike x x
  | zeros (s t : Bool) : Alike (zero s) (zero t)

variable {x x' y y' : Binary64}

theorem signed_zero (s : Bool) : signed s 0 = 0 := by
  cases s <;> rfl

theorem eq_or_of_signed_eq {s t : Bool} {m n : Nat} (h : signed s m = signed t n) :
    m = n ∧ (s = t ∨ m = 0) := by
  unfold signed at h
  cases s <;> cases t <;> simp at h ⊢ <;> omega

theorem alike_of_equal (h : x.equal y) : x.Alike y := by
  cases x with
  | nan => cases y <;> cases h
  | infinite s =>
    cases y with
    | infinite t =>
      rw [equal, beq_iff_eq] at h
      exact h ▸ .refl _
    | nan | finite => cases h
  | finite s m hm =>
    cases y with
    | finite t n hn =>
      rw [equal, beq_iff_eq] at h
      obtain ⟨rfl, rfl | rfl⟩ := eq_or_of_signed_eq h
      · exact .refl _
      · exact .zeros s t
    | nan | infinite => cases h

theorem ne_nan_of_isFinite (h : x.isFinite) : x ≠ .nan := by
  rintro rfl
  cases h

theorem equal_self (h : x ≠ .nan) : x.equal x := by
  cases x with
  | nan => exact absurd rfl h
  | infinite s => exact beq_self_eq_true s
  | finite s n hn => exact beq_self_eq_true (signed s n)

namespace Alike

theorem trans {z : Binary64} (hxy : x.Alike y) (hyz : y.Alike z) : x.Alike z := by
  cases hxy with
  | refl => exact hyz
  | zeros s t =>
    generalize hy : zero t = y at hyz
    cases hyz with
    | refl => exact hy ▸ .zeros s t
    | zeros => exact .zeros s _

theorem equal (h : x.Alike y) (hx : x ≠ .nan) : x.equal y := by
  cases h with
  | refl => exact equal_self hx
  | zeros s t =>
    show (signed s 0 == signed t 0) = true
    rw [signed_zero, signed_zero]
    rfl

/-- What does not see the sign of a zero is the same for both. -/
theorem map_eq {α : Type} {f : Binary64 → α} (hf : ∀ s t, f (zero s) = f (zero t))
    (h : x.Alike y) : f x = f y := by
  cases h with
  | refl => rfl
  | zeros s t => exact hf s t

theorem map₂_eq {α : Type} {f : Binary64 → Binary64 → α}
    (hl : ∀ s t y, f (zero s) y = f (zero t) y) (hr : ∀ x s t, f x (zero s) = f x (zero t))
    (hx : x.Alike x') (hy : y.Alike y') : f x y = f x' y' := by
  have hleft : f x y = f x' y := map_eq (f := fun x => f x y) (fun s t => hl s t y) hx
  rw [hleft]
  exact map_eq (hr x') hy

/-- What passes on at most the sign of a zero gives numbers alike. -/
theorem map {f : Binary64 → Binary64} (hf : ∀ s t, (f (zero s)).Alike (f (zero t)))
    (h : x.Alike y) : (f x).Alike (f y) := by
  cases h with
  | refl => exact .refl _
  | zeros s t => exact hf s t

theorem map₂ {f : Binary64 → Binary64 → Binary64}
    (hl : ∀ s t y, (f (zero s) y).Alike (f (zero t) y))
    (hr : ∀ x s t, (f x (zero s)).Alike (f x (zero t)))
    (hx : x.Alike x') (hy : y.Alike y') : (f x y).Alike (f x' y') := by
  have hleft : (f x y).Alike (f x' y) := map (f := fun x => f x y) (fun s t => hl s t y) hx
  have hright : (f x' y).Alike (f x' y') := map (hr x') hy
  exact hleft.trans hright

theorem isFinite_eq (h : x.Alike y) : x.isFinite = y.isFinite := h.map_eq fun _ _ => rfl

theorem isZero_eq (h : x.Alike y) : x.isZero = y.isZero := h.map_eq fun _ _ => rfl

theorem display_eq (h : x.Alike y) : x.display = y.display := by
  refine h.map_eq fun s t => ?_
  simp [display, zero]

theorem less_eq (hx : x.Alike x') (hy : y.Alike y') : x.less y = x'.less y' := by
  refine map₂_eq (fun s t y => ?_) (fun x s t => ?_) hx hy
  · cases y <;> simp [less, zero, signed_zero]
  · cases x <;> simp [less, zero, signed_zero]

theorem equal_eq (hx : x.Alike x') (hy : y.Alike y') : x.equal y = x'.equal y' := by
  refine map₂_eq (fun s t y => ?_) (fun x s t => ?_) hx hy
  · cases y <;> simp [Binary64.equal, zero, signed_zero]
  · cases x <;> simp [Binary64.equal, zero, signed_zero]

theorem lessEqual_eq (hx : x.Alike x') (hy : y.Alike y') : x.lessEqual y = x'.lessEqual y' := by
  rw [lessEqual, lessEqual, hx.less_eq hy, hx.equal_eq hy]

theorem neg (h : x.Alike y) : x.neg.Alike y.neg := h.map fun _ _ => .zeros _ _

theorem add (hx : x.Alike x') (hy : y.Alike y') : (x.add y).Alike (x'.add y') := by
  refine map₂ (fun s t y => ?_) (fun x s t => ?_) hx hy
  · cases y with
    | finite u n hn =>
      simp only [zero, Binary64.add, signed_zero, Int.zero_add]
      split
      · exact .zeros _ _
      · exact .refl _
    | nan | infinite => exact .refl _
  · cases x with
    | finite u n hn =>
      simp only [zero, Binary64.add, signed_zero, Int.add_zero]
      split
      · exact .zeros _ _
      · exact .refl _
    | nan | infinite => exact .refl _

theorem sub (hx : x.Alike x') (hy : y.Alike y') : (x.sub y).Alike (x'.sub y') := hx.add hy.neg

end Alike

theorem ofRatio_zero (negative : Bool) (q : Nat) : ofRatio negative 0 q = zero negative := by
  have hnearest : nearest 0 q = 0 := by simp [nearest, roundEven]
  have hceiling : nearest 0 q < ceiling := by
    rw [hnearest]
    exact twoPow_pos _
  rw [ofRatio, dif_pos hceiling]
  simp only [hnearest, zero]

theorem quantaPerOne_pos : 0 < quantaPerOne := twoPow_pos oneExponent

theorem zero_beq_one (s : Bool) : (zero s == one) = false := by
  rw [beq_eq_false_iff_ne]
  intro h
  exact Nat.ne_of_lt quantaPerOne_pos (finite.inj h).2

theorem positive_of_not_less {s : Bool} {n : Nat} {hn : Fits n}
    (hzero : (finite s n hn).isZero = false) (hless : (finite s n hn).less (zero false) = false) :
    s = false := by
  cases s with
  | false => rfl
  | true =>
    have hn : n ≠ 0 := by simpa [isZero] using hzero
    have hnegative : signed true n < signed false 0 := by
      show -(n : Int) < 0
      omega
    rw [zero, less, decide_eq_false_iff_not] at hless
    exact absurd hnegative hless

/-- The power of a zero to a number other than zero. -/
theorem pow_zero_of_ne (s : Bool) (hy : y.isZero = false) :
    (zero s).pow y =
      match y with
      | .nan => .nan
      | .infinite t => if t then .infinite false else zero false
      | .finite t _ _ => if t then .infinite (s && y.isOdd) else zero (s && y.isOdd) := by
  rw [pow.eq_def, hy, zero_beq_one]
  cases y with
  | nan => rfl
  | infinite t =>
    simp only [zero, Bool.or_false, Bool.false_eq_true, if_false, Nat.ne_of_lt quantaPerOne_pos,
      quantaPerOne_pos, decide_true, beq_true]
  | finite t n hn => rfl

namespace Alike

theorem mul (hx : x.Alike x') (hy : y.Alike y') : (x.mul y).Alike (x'.mul y') := by
  refine map₂ (fun s t y => ?_) (fun x s t => ?_) hx hy
  · cases y with
    | finite u n hn =>
      simp only [zero, Binary64.mul, Nat.zero_mul, ofRatio_zero]
      exact .zeros _ _
    | nan | infinite => exact .refl _
  · cases x with
    | finite u n hn =>
      simp only [zero, Binary64.mul, Nat.mul_zero, ofRatio_zero]
      exact .zeros _ _
    | nan | infinite => exact .refl _

theorem rem (hx : x.Alike x') (hy : y.Alike y') : (x.rem y).Alike (x'.rem y') := by
  refine map₂ (fun s t y => ?_) (fun x s t => ?_) hx hy
  · cases y with
    | finite u n hn =>
      simp only [zero, Binary64.rem, Nat.zero_mod]
      split
      · exact .refl _
      · exact .zeros _ _
    | nan => exact .refl _
    | infinite => exact .zeros _ _
  · cases x <;> exact .refl _

theorem mod (hx : x.Alike x') (hy : y.Alike y') : (x.mod y).Alike (x'.mod y') := by
  have hrest := hx.rem hy
  simp only [Binary64.mod, hrest.isZero_eq, hrest.less_eq (.refl _), hy.less_eq (.refl _)]
  split
  · exact .refl _
  · split
    · exact hrest
    · exact hrest.add hy

/-- The divisor is no zero, since its sign would be that of an infinity. -/
theorem div (hx : x.Alike x') (hy : y.Alike y') (hzero : y.isZero = false) :
    (x.div y).Alike (x'.div y') := by
  cases hy with
  | zeros => cases hzero
  | refl =>
    cases hx with
    | refl => exact .refl _
    | zeros s t =>
      cases y with
      | finite u n hn =>
        have hn : n ≠ 0 := by simpa [isZero] using hzero
        simp only [zero, Binary64.div, if_neg hn, Nat.zero_mul, ofRatio_zero]
        exact .zeros _ _
      | infinite u => exact .zeros _ _
      | nan => exact .refl _

/-- No zero is raised to a negative power, since its sign might be that of an infinity. -/
theorem pow (hx : x.Alike x') (hy : y.Alike y')
    (hzero : (x.isZero && y.less (zero false)) = false) : (x.pow y).Alike (x'.pow y') := by
  cases hy with
  | zeros s t => exact .refl _
  | refl =>
    cases hx with
    | refl => exact .refl _
    | zeros s t =>
      have hless : y.less (zero false) = false := by simpa [isZero, zero] using hzero
      cases hy : y.isZero with
      | true =>
        rw [pow.eq_def, pow.eq_def, hy]
        exact .refl _
      | false =>
        rw [pow_zero_of_ne s hy, pow_zero_of_ne t hy]
        cases y with
        | finite u n hn =>
          obtain rfl := positive_of_not_less hy hless
          exact .zeros _ _
        | nan | infinite => exact .refl _

end Alike

end Binary64

/-! ## Operators on equal values -/

/-- Two equal values are numbers alike, the same text, or both nil. -/
theorem Value.equal_cases {a b : Value} (h : a.equal b) :
    (∃ x y, a = .number x ∧ b = .number y ∧ x.Alike y) ∨ (∃ s, a = .text s ∧ b = .text s) ∨
      a = .nil ∧ b = .nil := by
  cases a with
  | number x =>
    cases b with
    | number y => exact .inl ⟨x, y, rfl, rfl, Binary64.alike_of_equal h⟩
    | text | nil | foreign => cases h
  | text s =>
    cases b with
    | text t =>
      rw [Value.equal, beq_iff_eq] at h
      exact .inr (.inl ⟨s, rfl, h ▸ rfl⟩)
    | number | nil | foreign => cases h
  | nil =>
    cases b with
    | nil => exact .inr (.inr ⟨rfl, rfl⟩)
    | number | text | foreign => cases h
  | foreign f => cases h

namespace Value

variable {a b c d : Value}

theorem kind_eq_of_equal (h : a.equal b) : a.kind = b.kind := by
  obtain ⟨x, y, rfl, rfl, -⟩ | ⟨s, rfl, rfl⟩ | ⟨rfl, rfl⟩ := equal_cases h <;> rfl

theorem display_eq_of_equal (h : a.equal b) : a.display = b.display := by
  obtain ⟨x, y, rfl, rfl, hxy⟩ | ⟨s, rfl, rfl⟩ | ⟨rfl, rfl⟩ := equal_cases h
  · exact hxy.display_eq
  · rfl
  · rfl

theorem equal_ofBool (p : Bool) : (ofBool p).equal (ofBool p) := by
  have hfinite : (if p then Binary64.one else .zero false).isFinite := by cases p <;> rfl
  exact Binary64.equal_self (Binary64.ne_nan_of_isFinite hfinite)

theorem equal_eq_of_equal (hab : a.equal b) (hcd : c.equal d) : a.equal c = b.equal d := by
  obtain ⟨x, y, rfl, rfl, hxy⟩ | ⟨s, rfl, rfl⟩ | ⟨rfl, rfl⟩ := equal_cases hab <;>
    obtain ⟨z, w, rfl, rfl, hzw⟩ | ⟨t, rfl, rfl⟩ | ⟨rfl, rfl⟩ := equal_cases hcd
  · exact hxy.equal_eq hzw
  all_goals rfl

end Value

theorem Comparator.onNumbers_eq {x x' y y' : Binary64} (c : Comparator) (hx : x.Alike x')
    (hy : y.Alike y') : c.onNumbers x y = c.onNumbers x' y' := by
  cases c with
  | less => exact hx.less_eq hy
  | lessEqual => exact hx.lessEqual_eq hy
  | greater => exact hy.less_eq hx
  | greaterEqual => exact hy.lessEqual_eq hx

/-- Comparisons do not tell equal values apart. -/
theorem Value.compare_eq {a b c d : Value} (symbol : String) (hab : a.equal b) (hcd : c.equal d) :
    Value.compare symbol a c = Value.compare symbol b d := by
  unfold Value.compare
  rw [equal_eq_of_equal hab hcd, kind_eq_of_equal hab, kind_eq_of_equal hcd]
  obtain ⟨x, y, rfl, rfl, hxy⟩ | ⟨s, rfl, rfl⟩ | ⟨rfl, rfl⟩ := equal_cases hab <;>
    obtain ⟨z, w, rfl, rfl, hzw⟩ | ⟨t, rfl, rfl⟩ | ⟨rfl, rfl⟩ := equal_cases hcd
  · simp only [Comparator.onNumbers_eq _ hxy hzw]
  all_goals rfl

namespace Operator

variable {x x' y y' : Binary64}

theorem dividesByZero_eq (op : Operator) (hx : x.Alike x') (hy : y.Alike y') :
    op.dividesByZero x y = op.dividesByZero x' y' := by
  cases op with
  | add | sub | mul => rfl
  | div | mod => exact hy.isZero_eq
  | pow => rw [dividesByZero, dividesByZero, hx.isZero_eq, hy.less_eq (.refl _)]

/-- Where nothing is divided by zero, an operator passes on at most the sign of a zero. -/
theorem onNumbers_alike (op : Operator) (hx : x.Alike x') (hy : y.Alike y')
    (hzero : op.dividesByZero x y = false) : (op.onNumbers x y).Alike (op.onNumbers x' y') := by
  cases op with
  | add => exact hx.add hy
  | sub => exact hx.sub hy
  | mul => exact hx.mul hy
  | div => exact hx.div hy hzero
  | mod => exact hx.mod hy
  | pow => exact hx.pow hy hzero

theorem apply_numbers (op : Operator) (hx : x.Alike x') (hy : y.Alike y') :
    Cause.Matches (fun _ => False) (fun a b => a.equal b) (op.apply (.number x) (.number y))
      (op.apply (.number x') (.number y')) := by
  rw [apply, apply, ← op.dividesByZero_eq hx hy]
  cases hzero : op.dividesByZero x y with
  | true => exact .error _
  | false =>
    have hresult := op.onNumbers_alike hx hy hzero
    simp only [Bool.false_eq_true, if_false, ← hresult.isFinite_eq]
    split
    · rename_i hfinite
      exact .ok (hresult.equal (Binary64.ne_nan_of_isFinite hfinite))
    · exact .error _

theorem apply_matches {a b c d : Value} (op : Operator) (hab : a.equal b) (hcd : c.equal d) :
    Cause.Matches (fun _ => False) (fun a b => a.equal b) (op.apply a c) (op.apply b d) := by
  obtain ⟨x, y, rfl, rfl, hxy⟩ | ⟨s, rfl, rfl⟩ | ⟨rfl, rfl⟩ := Value.equal_cases hab <;>
    obtain ⟨z, w, rfl, rfl, hzw⟩ | ⟨t, rfl, rfl⟩ | ⟨rfl, rfl⟩ := Value.equal_cases hcd
  case inr.inl.inr.inl =>
    rw [apply]
    split
    · exact .ok (beq_self_eq_true _)
    · exact .error _
  · exact op.apply_numbers hxy hzw
  all_goals exact .error _

end Operator

/-! ## Runs on equal values -/

/-- Both bind the same names, to equal values. -/
def Bindings.Equal (bindings bindings' : Bindings) : Prop :=
  ∀ name, Option.Rel (fun a b => a.equal b) (bindings.get? name) (bindings'.get? name)

theorem Bindings.Equal.define {bindings bindings' : Bindings} (h : bindings.Equal bindings')
    (name : String) {a b : Value} (hab : a.equal b) :
    (bindings.define name a).Equal (bindings'.define name b) := by
  intro other
  rw [get?_define, get?_define]
  split
  · exact .some hab
  · exact h other

/-- Environments with equal bindings in which the same was written since two earlier ones. -/
def Environment.EqualSince (start start' env env' : Environment) : Prop :=
  env.bindings.Equal env'.bindings ∧
    ∃ output, env.written = start.written ++ output ∧ env'.written = start'.written ++ output

theorem lockstep_equal (start start' : Environment) :
    Lockstep (fun _ => False) (Environment.EqualSince start start') fun a b => a.equal b where
  deep _ h := h
  number hx := Binary64.equal_self (Binary64.ne_nan_of_isFinite hx)
  text s := beq_self_eq_true s
  nil := rfl
  get? name henv := henv.1 name
  define name henv hab := ⟨henv.1.define name hab, henv.2⟩
  writeLine {env env' a b} henv hab := by
    obtain ⟨hbindings, output, hwritten, hwritten'⟩ := henv
    refine ⟨hbindings, output ++ a.display ++ "\n", ?_, ?_⟩
    · rw [Environment.writeLine, hwritten]
      simp only [String.append_assoc]
    · rw [Environment.writeLine, hwritten', ← Value.display_eq_of_equal hab]
      simp only [String.append_assoc]
  shown {a b} hab := by
    obtain ⟨x, y, rfl, rfl, -⟩ | ⟨s, rfl, rfl⟩ | ⟨rfl, rfl⟩ := Value.equal_cases hab <;>
      exact .ok hab
  negate {a b} hab := by
    obtain ⟨x, y, rfl, rfl, hxy⟩ | ⟨s, rfl, rfl⟩ | ⟨rfl, rfl⟩ := Value.equal_cases hab
    · refine .ok (hxy.neg.equal ?_)
      intro hnan
      cases x with
      | nan => cases hab
      | infinite | finite => cases hnan
    · exact .error _
    · exact .error _
  applyText symbol hab hcd := by
    unfold Operator.applyText
    split
    · exact .error _
    · exact Operator.apply_matches _ hab hcd
  compare symbol hab hcd := by
    rw [Value.compare_eq symbol hab hcd]
    exact .refl Value.equal_ofBool _

/-- No tree tells equal values apart: evaluated where the same names have equal values, it writes
the same text, gives equal values that are displayed alike or the same fault, and leaves the same
names with equal values. -/
theorem evaluate_congr (tree : Node) {env env' : Environment}
    (henv : env.bindings.Equal env'.bindings) :
    (∃ output, (evaluate tree env).env.written = env.written ++ output ∧
      (evaluate tree env').env.written = env'.written ++ output) ∧
    (evaluate tree env).env.bindings.Equal (evaluate tree env').env.bindings ∧
    ((∃ value value', (evaluate tree env).result = .ok value ∧
        (evaluate tree env').result = .ok value' ∧ value.equal value' ∧
        value.display = value'.display) ∨
      ∃ fault, (evaluate tree env).result = .error fault ∧
        (evaluate tree env').result = .error fault) := by
  have hstart : Environment.EqualSince env env' env env' :=
    ⟨henv, "", (String.append_empty).symm, (String.append_empty).symm⟩
  have hrun := (lockstep_equal env env').eval (some nestingLimit) hstart tree
  rw [evaluate, evaluate]
  generalize tree.eval (some nestingLimit) env = outcome at hrun ⊢
  generalize tree.eval (some nestingLimit) env' = outcome' at hrun ⊢
  cases hrun with
  | ok hvalue hend =>
    exact ⟨hend.2, hend.1, .inl ⟨_, _, rfl, rfl, hvalue, Value.display_eq_of_equal hvalue⟩⟩
  | error fault hend => exact ⟨hend.2, hend.1, .inr ⟨fault, rfl, rfl⟩⟩
  | left h => exact h.elim
  | right h => exact h.elim

/-- A name bound to a zero. -/
def zeroBinding (negative : Bool) : Environment :=
  ({} : Environment).define "x" (.number (.zero negative))

/-- The zero is printed, and then divided by itself. -/
def zeroUse : Node :=
  .rule Rule.program.label
    [.rule Rule.print.label [.token Terminal.name.label "x" (some ⟨1, some 7⟩)]
      (some ⟨1, some 1⟩),
      .rule Rule.mul.label
        [.token Terminal.name.label "x" (some ⟨2, some 1⟩),
          .token Terminal.slash.label "/" (some ⟨2, some 2⟩),
          .token Terminal.name.label "x" (some ⟨2, some 3⟩)] (some ⟨2, some 1⟩)]
    (some ⟨1, some 1⟩)

theorem evaluate_zeroUse :
    (zeroBinding false).bindings.Equal (zeroBinding true).bindings ∧
      (evaluate zeroUse (zeroBinding true)).env.written = "0\n" ∧
      (evaluate zeroUse (zeroBinding true)).result =
        .error ⟨.divisionByZero "/", some ⟨2, some 1⟩⟩ := by
  have hequal : (zeroBinding false).bindings.Equal (zeroBinding true).bindings :=
    Bindings.Equal.define (fun _ => .none) "x" ((Binary64.Alike.zeros _ _).equal (by rintro ⟨⟩))
  have hwritten : (evaluate zeroUse (zeroBinding false)).env.written = "0\n" := by decide +kernel
  have hresult : (evaluate zeroUse (zeroBinding false)).result =
      .error ⟨.divisionByZero "/", some ⟨2, some 1⟩⟩ := rfl
  obtain ⟨⟨output, hout, hout'⟩, -, ⟨_, _, hvalue, -⟩ | ⟨fault, hfault, hfault'⟩⟩ :=
    evaluate_congr zeroUse hequal
  · rw [hresult] at hvalue
    cases hvalue
  · refine ⟨hequal, ?_, ?_⟩
    · rw [hout', ← hwritten, hout]
      rfl
    · rw [hfault', ← hfault, hresult]

end Reckon
