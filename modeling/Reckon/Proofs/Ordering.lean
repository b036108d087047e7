import Mathlib
import Reckon.Proofs.Kinds

/-!
# The order of values

Numbers other than the undefined one stand in a row, from one infinity to the other
(`Binary64.place`), and texts in that of a dictionary of code points (`IsBefore`).  Comparisons of
two numbers or of two texts follow such a row (`Value.Ranked`), so equality and the four orderings
fit together as in any linear order.  Other values can only be equal or not (`Value.compare_laws`).
-/

namespace Reckon

/-! ## Numbers -/

namespace Binary64

/-- The place of a number in the row of all numbers: that of its quanta, with an infinity at either
end. -/
def place : Binary64 → WithBot (WithTop Int)
  | .finite s n _ => ((signed s n : Int) : WithTop Int)
  | .infinite false => (⊤ : WithTop Int)
  | .infinite true | .nan => ⊥

variable {x y : Binary64}

theorem less_iff_place (hx : x ≠ .nan) (hy : y ≠ .nan) : x.less y ↔ x.place < y.place := by
  cases x with
  | nan => exact absurd rfl hx
  | infinite s =>
    cases y with
    | nan => exact absurd rfl hy
    | infinite t => cases s <;> cases t <;> simp [less, place]
    | finite t n hn => cases s <;> simp [less, place]
  | finite s m hm =>
    cases y with
    | nan => exact absurd rfl hy
    | infinite t =>
      cases t with
      | false => exact iff_of_true rfl (WithBot.coe_lt_coe.2 (WithTop.coe_lt_top _))
      | true => simp [less, place]
    | finite t n hn => simp [less, place]

/-- Numbers are equal just if they have the same place, as the two zeros have. -/
theorem equal_iff_place (hx : x ≠ .nan) (hy : y ≠ .nan) : x.equal y ↔ x.place = y.place := by
  cases x with
  | nan => exact absurd rfl hx
  | infinite s =>
    cases y with
    | nan => exact absurd rfl hy
    | infinite t => cases s <;> cases t <;> simp [equal, place]
    | finite t n hn => cases s <;> simp [equal, place]
  | finite s m hm =>
    cases y with
    | nan => exact absurd rfl hy
    | infinite t => cases t <;> simp [equal, place]
    | finite t n hn => simp [equal, place]

theorem lessEqual_iff_place (hx : x ≠ .nan) (hy : y ≠ .nan) :
    x.lessEqual y ↔ x.place ≤ y.place := by
  rw [lessEqual, Bool.or_eq_true, less_iff_place hx hy, equal_iff_place hx hy, le_iff_lt_or_eq]

end Binary64

/-! ## Texts -/

/-- Whether a text comes before another in a dictionary of code points: it is a front part of the
other, or it has the lesser code point where they first differ. -/
def IsBefore (s t : String) : Prop :=
  (∃ c rest, t.toList = s.toList ++ c :: rest) ∨
    ∃ front c d rest rest', s.toList = front ++ c :: rest ∧ t.toList = front ++ d :: rest' ∧
      c.toNat < d.toNat

theorem lex_iff_exists {cs ds : List Char} :
    cs < ds ↔ (∃ c rest, ds = cs ++ c :: rest) ∨
      ∃ front c d rest rest', cs = front ++ c :: rest ∧ ds = front ++ d :: rest' ∧
        c.toNat < d.toNat := by
  constructor
  · intro h
    induction h with
    | nil => exact .inl ⟨_, _, rfl⟩
    | rel hcd => exact .inr ⟨[], _, _, _, _, rfl, rfl, hcd⟩
    | @cons e cs ds _ ih =>
      obtain ⟨c, rest, rfl⟩ | ⟨front, c, d, rest, rest', rfl, rfl, hcd⟩ := ih
      · exact .inl ⟨c, rest, rfl⟩
      · exact .inr ⟨e :: front, c, d, rest, rest', rfl, rfl, hcd⟩
  · rintro (⟨c, rest, rfl⟩ | ⟨front, c, d, rest, rest', rfl, rfl, hcd⟩)
    · induction cs with
      | nil => exact .nil
      | cons e cs ih => exact .cons ih
    · induction front with
      | nil => exact .rel hcd
      | cons e front ih => exact .cons ih

theorem lt_iff_isBefore {s t : String} : s < t ↔ IsBefore s t :=
  String.lt_iff_toList_lt.trans lex_iff_exists

/-! ## Comparators -/

namespace Comparator

/-- The comparator in a linear order. -/
def inOrder {α : Type} [LinearOrder α] : Comparator → α → α → Bool
  | .less, x, y => x < y
  | .lessEqual, x, y => x ≤ y
  | .greater, x, y => y < x
  | .greaterEqual, x, y => y ≤ x

theorem onNumbers_eq_inOrder (c : Comparator) {x y : Binary64} (hx : x ≠ .nan) (hy : y ≠ .nan) :
    c.onNumbers x y = c.inOrder x.place y.place := by
  rw [Bool.eq_iff_iff]
  cases c with
  | less => exact (Binary64.less_iff_place hx hy).trans decide_eq_true_iff.symm
  | lessEqual => exact (Binary64.lessEqual_iff_place hx hy).trans decide_eq_true_iff.symm
  | greater => exact (Binary64.less_iff_place hy hx).trans decide_eq_true_iff.symm
  | greaterEqual => exact (Binary64.lessEqual_iff_place hy hx).trans decide_eq_true_iff.symm

theorem onTexts_eq_inOrder (c : Comparator) (s t : String) : c.onTexts s t = c.inOrder s t := by
  cases c with
  | less | greater => rfl
  | lessEqual =>
    rw [Bool.eq_iff_iff, onTexts, inOrder, Bool.or_eq_true, beq_iff_eq, decide_eq_true_iff,
      decide_eq_true_iff, le_iff_lt_or_eq]
  | greaterEqual =>
    rw [Bool.eq_iff_iff, onTexts, inOrder, Bool.or_eq_true, beq_iff_eq, decide_eq_true_iff,
      decide_eq_true_iff, le_iff_lt_or_eq, eq_comm]

theorem symbol_ne_equality {symbol : String} {c : Comparator} (h : ofSymbol? symbol = some c) :
    symbol ≠ "==" ∧ symbol ≠ "!=" := by
  constructor <;> rintro rfl <;> cases h

end Comparator

/-! ## Values -/

namespace Value

/-- A value of the language that is not the undefined number. -/
def IsProper : Value → Prop
  | .number x => x ≠ .nan
  | .foreign _ => False
  | _ => True

/-- The place of a value among the numbers. -/
def numberRank : Value → WithBot (WithTop Int)
  | .number x => x.place
  | _ => ⊥

/-- The place of a value among the texts. -/
def textRank : Value → String
  | .text s => s
  | _ => ""

variable {a b c : Value}

/-- Values are equal just if they are of one kind and have the same place there. -/
theorem equal_iff (ha : a.IsProper) (hb : b.IsProper) :
    a.equal b ↔ a.kind = b.kind ∧ a.numberRank = b.numberRank ∧ a.textRank = b.textRank := by
  cases a with
  | number x =>
    cases b with
    | number y => simp [equal, Binary64.equal_iff_place ha hb, kind, numberRank, textRank]
    | text | nil | foreign => simp [equal, kind]
  | text s =>
    cases b with
    | text t => simp [equal, kind, numberRank, textRank]
    | number | nil | foreign => simp [equal, kind]
  | nil =>
    cases b with
    | nil => simp [equal, kind, numberRank, textRank]
    | number | text | foreign => simp [equal, kind]
  | foreign f => exact ha.elim

/-- What `==` and `!=` answer. -/
structure EqualityLaws (a b c : Value) : Prop where
  refl : compare "==" a a = .ok true
  symm : compare "==" a b = compare "==" b a
  trans : compare "==" a b = .ok true → compare "==" b c = .ok true → compare "==" a c = .ok true
  negation : ∃ answer, compare "==" a b = .ok answer ∧ compare "!=" a b = .ok !answer
  kinds : a.kind ≠ b.kind → compare "==" a b = .ok false

theorem equalityLaws (ha : a.IsProper) (hb : b.IsProper) (hc : c.IsProper) :
    EqualityLaws a b c := by
  have hequal : ∀ a b : Value, compare "==" a b = .ok (a.equal b) := fun _ _ => rfl
  refine ⟨?_, ?_, ?_, ⟨a.equal b, rfl, rfl⟩, ?_⟩
  · rw [hequal, (equal_iff ha ha).2 ⟨rfl, rfl, rfl⟩]
  · rw [hequal, hequal, Except.ok.injEq, Bool.eq_iff_iff, equal_iff ha hb, equal_iff hb ha,
      eq_comm, eq_comm (a := a.numberRank), eq_comm (a := a.textRank)]
  · rw [hequal, hequal, hequal, Except.ok.injEq, Except.ok.injEq, Except.ok.injEq, equal_iff ha hb,
      equal_iff hb hc, equal_iff ha hc]
    rintro ⟨hk, hn, ht⟩ ⟨hk', hn', ht'⟩
    exact ⟨hk.trans hk', hn.trans hn', ht.trans ht'⟩
  · intro hne
    rw [hequal, Except.ok.injEq, Bool.eq_false_iff]
    exact fun h => hne ((equal_iff ha hb).1 h).1

/-! ## Orderings -/

/-- Whether comparisons of two values are those of their ranks in a linear order. -/
structure Ranked {α : Type} [LinearOrder α] (rank : Value → α) (a b : Value) : Prop where
  equal_iff : a.equal b ↔ rank a = rank b
  compare_eq {symbol : String} {k : Comparator} : Comparator.ofSymbol? symbol = some k →
    compare symbol a b = .ok (k.inOrder (rank a) (rank b))

section

variable {symbol : String} {k : Comparator} (h : Comparator.ofSymbol? symbol = some k)

include h

theorem compare_numbers (x y : Binary64) :
    compare symbol (.number x) (.number y) = .ok (k.onNumbers x y) := by
  obtain ⟨hequal, hunequal⟩ := Comparator.symbol_ne_equality h
  rw [compare, if_neg hequal, if_neg hunequal, Comparator.applyText, h]

theorem compare_texts (s t : String) :
    compare symbol (.text s) (.text t) = .ok (k.onTexts s t) := by
  obtain ⟨hequal, hunequal⟩ := Comparator.symbol_ne_equality h
  rw [compare, if_neg hequal, if_neg hunequal, Comparator.applyText, h]

theorem compare_mismatch (hab : ¬ a.kind.Pairs b.kind) :
    compare symbol a b = .error (.kindMismatch symbol [a.kind, b.kind]) := by
  obtain ⟨hequal, hunequal⟩ := Comparator.symbol_ne_equality h
  rw [compare_of_not_pairs symbol hab, if_neg hequal, if_neg hunequal]

theorem pairs_of_compare {answer : Bool} (hab : compare symbol a b = .ok answer) :
    a.kind.Pairs b.kind := by
  by_contra hne
  rw [compare_mismatch h hne] at hab
  cases hab

end

theorem ranked_numbers {x y : Binary64} (hx : x ≠ .nan) (hy : y ≠ .nan) :
    Ranked numberRank (.number x) (.number y) where
  equal_iff := Binary64.equal_iff_place hx hy
  compare_eq h := by
    rw [compare_numbers h, Comparator.onNumbers_eq_inOrder _ hx hy]
    rfl

theorem ranked_texts (s t : String) : Ranked textRank (.text s) (.text t) where
  equal_iff := beq_iff_eq
  compare_eq h := by
    rw [compare_texts h, Comparator.onTexts_eq_inOrder]
    rfl

/-- What the orderings answer about two values. -/
structure OrderLaws (a b : Value) : Prop where
  /-- Just one of `<`, `==` and `>` holds, and `<=` is one of the first two. -/
  trichotomy : ∃ less equal greater, compare "<" a b = .ok less ∧ compare "==" a b = .ok equal ∧
    compare ">" a b = .ok greater ∧ [less, equal, greater].count true = 1 ∧
    compare "<=" a b = .ok (less || equal)
  greater : compare ">" a b = compare "<" b a
  greaterEqual : compare ">=" a b = compare "<=" b a

section

variable {α : Type} [LinearOrder α] {rank : Value → α}

theorem Ranked.less_iff (hab : Ranked rank a b) :
    compare "<" a b = .ok true ↔ rank a < rank b := by
  rw [hab.compare_eq (k := .less) rfl, Except.ok.injEq, Comparator.inOrder, decide_eq_true_iff]

theorem Ranked.orderLaws (hab : Ranked rank a b) (hba : Ranked rank b a) : OrderLaws a b := by
  have hless : compare "<" a b = .ok (decide (rank a < rank b)) := hab.compare_eq (k := .less) rfl
  have hequal : compare "==" a b = .ok (decide (rank a = rank b)) :=
    congrArg Except.ok (Bool.eq_iff_iff.2 (hab.equal_iff.trans decide_eq_true_iff.symm))
  have hgreater : compare ">" a b = .ok (decide (rank b < rank a)) :=
    hab.compare_eq (k := .greater) rfl
  have hlessEqual : compare "<=" a b = .ok (decide (rank a ≤ rank b)) :=
    hab.compare_eq (k := .lessEqual) rfl
  refine ⟨⟨_, _, _, hless, hequal, hgreater, ?_, ?_⟩, ?_, ?_⟩
  · rcases lt_trichotomy (rank a) (rank b) with h | h | h
    · simp [h, h.ne, h.not_gt]
    · simp [h]
    · simp [h, h.ne', h.not_gt]
  · rw [hlessEqual, ← Bool.decide_or]
    exact congrArg Except.ok (decide_eq_decide.2 le_iff_lt_or_eq)
  · exact hgreater.trans (hba.compare_eq (k := .less) rfl).symm
  · rw [hab.compare_eq (k := .greaterEqual) rfl, hba.compare_eq (k := .lessEqual) rfl]
    rfl

theorem Ranked.less_trans (hab : Ranked rank a b) (hbc : Ranked rank b c) (hac : Ranked rank a c)
    (h : compare "<" a b = .ok true) (h' : compare "<" b c = .ok true) :
    compare "<" a c = .ok true :=
  hac.less_iff.2 ((hab.less_iff.1 h).trans (hbc.less_iff.1 h'))

end

theorem orderLaws_of_pairs (h : a.kind.Pairs b.kind) (ha : a.IsProper) (hb : b.IsProper) :
    OrderLaws a b := by
  obtain ⟨x, y, rfl, rfl⟩ | ⟨s, t, rfl, rfl⟩ := exists_of_pairs h
  · exact (ranked_numbers ha hb).orderLaws (ranked_numbers hb ha)
  · exact (ranked_texts s t).orderLaws (ranked_texts t s)

theorem less_trans (ha : a.IsProper) (hb : b.IsProper) (hc : c.IsProper)
    (h : compare "<" a b = .ok true) (h' : compare "<" b c = .ok true) :
    compare "<" a c = .ok true := by
  have hab : a.kind.Pairs b.kind := pairs_of_compare (k := .less) rfl h
  have hbc : b.kind.Pairs c.kind := pairs_of_compare (k := .less) rfl h'
  obtain ⟨x, y, rfl, rfl⟩ | ⟨s, t, rfl, rfl⟩ := exists_of_pairs hab
  · obtain ⟨z, rfl⟩ := exists_of_kind_number hbc.1.symm
    exact (ranked_numbers ha hb).less_trans (ranked_numbers hb hc) (ranked_numbers ha hc) h h'
  · obtain ⟨u, rfl⟩ := exists_of_kind_text hbc.1.symm
    exact (ranked_texts s t).less_trans (ranked_texts t u) (ranked_texts s u) h h'

/-- Comparisons follow one order for each kind.  Equality is an equivalence that keeps kinds apart,
and `!=` denies it.  Numbers are in a linear order, and texts in that of their code points.  Any
other two values are refused, with their kinds. -/
theorem compare_laws (ha : a.IsProper) (hb : b.IsProper) (hc : c.IsProper) :
    EqualityLaws a b c ∧
    (a.kind.Pairs b.kind → OrderLaws a b) ∧
    (compare "<" a b = .ok true → compare "<" b c = .ok true → compare "<" a c = .ok true) ∧
    (∀ s t, compare "<" (.text s) (.text t) = .ok true ↔ IsBefore s t) ∧
    (¬ a.kind.Pairs b.kind → ∀ symbol ∈ ["<", "<=", ">", ">="], ∃ cause,
      compare symbol a b = .error cause ∧ cause.className = "TypeMismatchError" ∧
        cause = .kindMismatch symbol [a.kind, b.kind]) := by
  refine ⟨equalityLaws ha hb hc, fun h => orderLaws_of_pairs h ha hb, less_trans ha hb hc, ?_, ?_⟩
  · intro s t
    rw [(ranked_texts s t).less_iff]
    exact lt_iff_isBefore
  · intro hab symbol hsymbol
    have hknown : ∃ k, Comparator.ofSymbol? symbol = some k := by
      simp only [List.mem_cons, List.not_mem_nil, or_false] at hsymbol
      obtain rfl | rfl | rfl | rfl := hsymbol <;> exact ⟨_, rfl⟩
    obtain ⟨k, h⟩ := hknown
    exact ⟨_, compare_mismatch h hab, rfl, rfl⟩

/-- The two zeros are equal and below infinity, and neither is below the other. -/
theorem compare_zeros :
    EqualityLaws (.number (.zero true)) (.number (.zero false)) (.number (.infinite false)) ∧
      OrderLaws (.number (.zero true)) (.number (.zero false)) ∧
      compare "==" (.number (.zero true)) (.number (.zero false)) = .ok true ∧
      compare "<" (.number (.zero false)) (.number (.infinite false)) = .ok true := by
  have hzero : ∀ s, (Value.number (.zero s)).IsProper := by
    intro s h
    cases h
  have hinfinite : (Value.number (.infinite false)).IsProper := by
    intro h
    cases h
  have hlaws := compare_laws (hzero true) (hzero false) hinfinite
  exact ⟨hlaws.1, hlaws.2.1 ⟨rfl, .inl rfl⟩, rfl, rfl⟩

end Value

end Reckon
