import Reckon.Proofs.Completeness

/-!
# The grammar is unambiguous

Tokens have at most one derivation as a program.  The work is in expressions: a phrase of a level
is fixed by the text it starts, provided that the token behind it does not continue a phrase of
that level (`Unique`).  This is proved level by level for phrases of a given length; sums and
products, whose rules recur on the left, are taken apart into their first operand and the list of
operators and operands behind it.
-/

namespace Reckon

/-! ## Where a phrase stops -/

/-- Whether the first token, if there is one, is not of a class. -/
def StopsAt (p : Terminal → Bool) (rest : List Token) : Prop :=
  ∀ token ∈ rest.head?, p token.kind = false

/-- Whether a token behind a phrase of a level can continue the phrase. -/
def Level.continues : Level → Terminal → Bool
  | .atom, _ => false
  | .pow, kind | .unary, kind => kind == .caret
  | .mul, kind => kind == .caret || kind.isProduct
  | .add, kind => kind == .caret || kind.isProduct || kind.isSum
  | .expr, kind => kind == .caret || kind.isProduct || kind.isSum || kind == .comparison

theorem StopsAt.mono {p q : Terminal → Bool} {rest : List Token} (h : StopsAt q rest)
    (hpq : ∀ kind, p kind → q kind) : StopsAt p rest := by
  intro token ht
  by_contra hp
  have hq := hpq token.kind (by simpa using hp)
  rw [h token ht] at hq
  cases hq

theorem stopsAt_cons {p : Terminal → Bool} {token : Token} {rest : List Token}
    (h : p token.kind = false) : StopsAt p (token :: rest) := by
  intro t ht
  cases ht
  exact h

theorem StopsAt.head {p : Terminal → Bool} {token : Token} {rest : List Token}
    (h : StopsAt p (token :: rest)) : p token.kind = false := h token rfl

/-- Phrases of a level with at most `k` tokens are fixed by any text that they start. -/
def Unique (l : Level) (k : ℕ) : Prop :=
  ∀ (d e : Derivation (.rule l.nonterminal)) (r s : List Token), d.tokens.length ≤ k →
    d.tokens ++ r = e.tokens ++ s → StopsAt l.continues r → StopsAt l.continues s →
      d = e ∧ r = s

/-! ## Atoms, powers and signs -/

theorem unique_atom {k : ℕ} (ih : ∀ j < k, Unique .expr j) : Unique .atom k := by
  intro d e r s hk h _ _
  obtain ⟨t, ht, rfl⟩ | ⟨opening, closing, ho, hc, d, rfl⟩ := d.atom_cases <;>
    obtain ⟨u, hu, rfl⟩ | ⟨opening', closing', ho', hc', e, rfl⟩ := e.atom_cases
  · simp only [Derivation.tokens_leaf, List.singleton_append, List.cons.injEq] at h
    obtain ⟨rfl, rfl⟩ := h
    exact ⟨rfl, rfl⟩
  · simp only [Derivation.tokens_leaf, Derivation.tokens_group, List.cons_append,
      List.cons.injEq] at h
    rw [h.1, ho'] at ht
    cases ht
  · simp only [Derivation.tokens_leaf, Derivation.tokens_group, List.cons_append,
      List.cons.injEq] at h
    rw [← h.1, ho] at hu
    cases hu
  · simp only [Derivation.tokens_group, List.cons_append, List.append_assoc, List.cons.injEq,
      List.nil_append] at h
    obtain ⟨rfl, h⟩ := h
    have length : d.tokens.length < k := by
      simp only [Derivation.tokens_group, List.length_cons, List.length_append] at hk
      omega
    obtain ⟨rfl, hrest⟩ := ih _ length d e _ _ le_rfl h (stopsAt_cons (by rw [hc]; rfl))
      (stopsAt_cons (by rw [hc']; rfl))
    cases hrest
    exact ⟨rfl, rfl⟩

theorem unique_pow {k : ℕ} (atom : Unique .atom k) (ih : ∀ j < k, Unique .unary j) :
    Unique .pow k := by
  intro d e r s hk h hr hs
  obtain ⟨d, rfl⟩ | ⟨base, caret, hc, exponent, rfl⟩ := d.pow_cases <;>
    obtain ⟨e, rfl⟩ | ⟨base', caret', hc', exponent', rfl⟩ := e.pow_cases
  · obtain ⟨rfl, rfl⟩ := atom d e r s hk h (hr.mono (by simp [Level.continues]))
      (hs.mono (by simp [Level.continues]))
    exact ⟨rfl, rfl⟩
  · rw [Derivation.tokens_power, List.append_assoc] at h
    obtain ⟨-, rfl⟩ := atom d base' r _ hk h (hr.mono (by simp [Level.continues]))
      (stopsAt_cons rfl)
    have := hr.head
    rw [hc'] at this
    cases this
  · rw [Derivation.tokens_power, List.append_assoc] at h
    have length : base.tokens.length ≤ k := by
      simp only [Derivation.tokens_power, List.length_append] at hk
      omega
    obtain ⟨-, rfl⟩ := atom base e _ s length h (stopsAt_cons rfl)
      (hs.mono (by simp [Level.continues]))
    have := hs.head
    rw [hc] at this
    cases this
  · simp only [Derivation.tokens_power, List.append_assoc] at h
    simp only [Derivation.tokens_power, List.length_append, List.length_cons] at hk
    obtain ⟨rfl, hrest⟩ := atom base base' _ _ (by omega) h (stopsAt_cons rfl) (stopsAt_cons rfl)
    simp only [List.cons_append, List.cons.injEq] at hrest
    obtain ⟨rfl, hrest⟩ := hrest
    obtain ⟨rfl, rfl⟩ :=
      ih exponent.tokens.length (by omega) exponent exponent' r s le_rfl hrest hr hs
    exact ⟨rfl, rfl⟩

/-- An atom or a power does not start with a minus sign. -/
theorem Derivation.exists_tokens_pow (d : Derivation (.rule .pow)) :
    ∃ token rest, d.tokens = token :: rest ∧ token.kind ≠ .minus := by
  have atom : ∀ e : Derivation (.rule .atom), ∃ token rest, e.tokens = token :: rest ∧
      token.kind ≠ .minus := by
    intro e
    obtain ⟨t, ht, rfl⟩ | ⟨opening, closing, ho, hc, e, rfl⟩ := e.atom_cases
    · refine ⟨t, [], rfl, ?_⟩
      intro hk
      rw [hk] at ht
      cases ht
    · exact ⟨opening, _, rfl, by rw [ho]; decide⟩
  obtain ⟨e, rfl⟩ | ⟨base, caret, hc, exponent, rfl⟩ := d.pow_cases
  · exact atom e
  · obtain ⟨token, rest, hb, hk⟩ := atom base
    exact ⟨token, _, by rw [tokens_power, hb]; rfl, hk⟩

theorem unique_unary {k : ℕ} (pow : Unique .pow k) (ih : ∀ j < k, Unique .unary j) :
    Unique .unary k := by
  intro d e r s hk h hr hs
  obtain ⟨d, rfl⟩ | ⟨minus, hm, d, rfl⟩ := d.unary_cases <;>
    obtain ⟨e, rfl⟩ | ⟨minus', hm', e, rfl⟩ := e.unary_cases
  · obtain ⟨rfl, rfl⟩ := pow d e r s hk h hr hs
    exact ⟨rfl, rfl⟩
  · obtain ⟨token, rest, hd, hn⟩ := d.exists_tokens_pow
    rw [Derivation.tokens_ofPow, hd, Derivation.tokens_negative, List.cons_append,
      List.cons_append, List.cons.injEq] at h
    rw [h.1] at hn
    exact absurd hm' hn
  · obtain ⟨token, rest, he, hn⟩ := e.exists_tokens_pow
    rw [Derivation.tokens_ofPow, he, Derivation.tokens_negative, List.cons_append,
      List.cons_append, List.cons.injEq] at h
    rw [← h.1] at hn
    exact absurd hm hn
  · simp only [Derivation.tokens_negative, List.cons_append, List.cons.injEq] at h
    simp only [Derivation.tokens_negative, List.length_cons] at hk
    obtain ⟨rfl, h⟩ := h
    obtain ⟨rfl, rfl⟩ := ih d.tokens.length (by omega) d e r s le_rfl h hr hs
    exact ⟨rfl, rfl⟩

/-! ## Chains of operators and operands -/

section Chain

variable {A B : Type} {q : Terminal → Bool} (f : B → List Token)

/-- The tokens of operators with operands behind them. -/
def chainTokens (links : List ({ token : Token // q token.kind } × B)) : List Token :=
  links.flatMap fun link => link.1.val :: f link.2

variable {f} {p : Terminal → Bool} {links links' : List ({ token : Token // q token.kind } × B)}
  {r s : List Token}

theorem stopsAt_chain (hpq : ∀ kind, q kind → p kind = false)
    (hr : StopsAt (fun kind => p kind || q kind) r) : StopsAt p (chainTokens f links ++ r) := by
  cases links with
  | nil => exact hr.mono fun kind hp => by simp [hp]
  | cons link links => exact stopsAt_cons (hpq _ link.1.property)

/-- A chain is fixed by the text it starts, if its operands are. -/
theorem chain_unique {k : ℕ} (hpq : ∀ kind, q kind → p kind = false)
    (unique : ∀ m m' r s, (f m).length ≤ k → f m ++ r = f m' ++ s → StopsAt p r → StopsAt p s →
      m = m' ∧ r = s)
    (hk : (chainTokens f links).length ≤ k)
    (h : chainTokens f links ++ r = chainTokens f links' ++ s)
    (hr : StopsAt (fun kind => p kind || q kind) r)
    (hs : StopsAt (fun kind => p kind || q kind) s) : links = links' ∧ r = s := by
  have not_operator : ∀ (link : { token : Token // q token.kind } × B) (rest : List Token),
      ¬ StopsAt (fun kind => p kind || q kind) (link.1.val :: rest) := by
    intro link rest hstop
    have := hstop.head
    simp [link.1.property] at this
  induction links generalizing links' with
  | nil =>
    cases links' with
    | nil => exact ⟨rfl, h⟩
    | cons link' links' =>
      simp only [chainTokens, List.flatMap_nil, List.nil_append, List.flatMap_cons,
        List.cons_append] at h
      rw [h] at hr
      exact absurd hr (not_operator link' _)
  | cons link links ih =>
    cases links' with
    | nil =>
      simp only [chainTokens, List.flatMap_nil, List.nil_append, List.flatMap_cons,
        List.cons_append] at h
      rw [← h] at hs
      exact absurd hs (not_operator link _)
    | cons link' links' =>
      simp only [chainTokens, List.flatMap_cons, List.cons_append, List.append_assoc,
        List.cons.injEq] at h
      simp only [chainTokens, List.flatMap_cons, List.length_append, List.length_cons] at hk
      obtain ⟨hoperator, h⟩ := h
      obtain ⟨hoperand, hrest⟩ := unique link.2 link'.2 _ _ (by omega) h
        (stopsAt_chain hpq hr) (stopsAt_chain hpq hs)
      obtain ⟨rfl, rfl⟩ := ih (by simp only [chainTokens]; omega) hrest
      exact ⟨by rw [Prod.ext (Subtype.ext hoperator) hoperand], rfl⟩

/-- Phrases that are a single operand, or a phrase with an operator and an operand behind it. -/
structure LeftRecursive (f : B → List Token) (g : A → List Token) (single : B → A)
    (join : A → { token : Token // q token.kind } → B → A) : Prop where
  cases : ∀ d, (∃ e, d = single e) ∨
    ∃ left operator right, d = join left operator right ∧ (g left).length < (g d).length
  tokens_single : ∀ e, g (single e) = f e
  tokens_join : ∀ left operator right,
    g (join left operator right) = g left ++ operator.val :: f right

namespace LeftRecursive

variable {g : A → List Token} {single : B → A}
  {join : A → { token : Token // q token.kind } → B → A}

theorem exists_chain (h : LeftRecursive f g single join) (d : A) :
    ∃ (first : B) (links : List ({ token : Token // q token.kind } × B)),
      d = links.foldl (fun d link => join d link.1 link.2) (single first) := by
  induction hk : (g d).length using Nat.strong_induction_on generalizing d with
  | _ k ih =>
    subst hk
    obtain ⟨e, rfl⟩ | ⟨left, operator, right, rfl, hshorter⟩ := h.cases d
    · exact ⟨e, [], rfl⟩
    · obtain ⟨first, links, hleft⟩ := ih _ hshorter left rfl
      refine ⟨first, links ++ [(operator, right)], ?_⟩
      rw [List.foldl_append, ← hleft]
      rfl

theorem tokens_chain (h : LeftRecursive f g single join) (d : A)
    (links : List ({ token : Token // q token.kind } × B)) :
    g (links.foldl (fun d link => join d link.1 link.2) d) = g d ++ chainTokens f links := by
  induction links generalizing d with
  | nil => simp [chainTokens]
  | cons link links ih =>
    rw [List.foldl_cons, ih, h.tokens_join]
    simp [chainTokens]

/-- Such phrases are fixed by the text they start, if their operands are. -/
theorem unique (h : LeftRecursive f g single join) {k : ℕ}
    (hpq : ∀ kind, q kind → p kind = false)
    (operands : ∀ m m' r s, (f m).length ≤ k → f m ++ r = f m' ++ s → StopsAt p r → StopsAt p s →
      m = m' ∧ r = s)
    {d e : A} (hk : (g d).length ≤ k) (htokens : g d ++ r = g e ++ s)
    (hr : StopsAt (fun kind => p kind || q kind) r)
    (hs : StopsAt (fun kind => p kind || q kind) s) : d = e ∧ r = s := by
  obtain ⟨first, links, rfl⟩ := h.exists_chain d
  obtain ⟨first', links', rfl⟩ := h.exists_chain e
  simp only [h.tokens_chain, h.tokens_single, List.append_assoc, List.length_append] at htokens hk
  obtain ⟨rfl, hrest⟩ := operands first first' _ _ (by omega) htokens (stopsAt_chain hpq hr)
    (stopsAt_chain hpq hs)
  obtain ⟨rfl, rfl⟩ := chain_unique hpq operands (by omega) hrest hr hs
  exact ⟨rfl, rfl⟩

end LeftRecursive

end Chain

/-! ## Products, sums and comparisons -/

theorem leftRecursive_mul :
    LeftRecursive Derivation.tokens Derivation.tokens Derivation.ofUnary
      fun left (operator : { token : Token // token.kind.isProduct }) right =>
        Derivation.product left operator operator.property right where
  cases d := by
    obtain ⟨e, rfl⟩ | ⟨left, operator, h, right, rfl⟩ := d.mul_cases
    · exact .inl ⟨e, rfl⟩
    · exact .inr ⟨left, ⟨operator, h⟩, right, rfl, by simp⟩
  tokens_single _ := rfl
  tokens_join _ _ _ := Derivation.tokens_product ..

theorem leftRecursive_add :
    LeftRecursive Derivation.tokens Derivation.tokens Derivation.ofMul
      fun left (operator : { token : Token // token.kind.isSum }) right =>
        Derivation.sum left operator operator.property right where
  cases d := by
    obtain ⟨e, rfl⟩ | ⟨left, operator, h, right, rfl⟩ := d.add_cases
    · exact .inl ⟨e, rfl⟩
    · exact .inr ⟨left, ⟨operator, h⟩, right, rfl, by simp⟩
  tokens_single _ := rfl
  tokens_join _ _ _ := Derivation.tokens_sum ..

theorem unique_mul {k : ℕ} (unary : Unique .unary k) : Unique .mul k := by
  intro d e r s hk h hr hs
  refine leftRecursive_mul.unique (fun kind => ?_) unary hk h hr hs
  cases kind <;> simp [Terminal.isProduct, Level.continues]

theorem unique_add {k : ℕ} (mul : Unique .mul k) : Unique .add k := by
  intro d e r s hk h hr hs
  refine leftRecursive_add.unique (fun kind => ?_) mul hk h hr hs
  cases kind <;> simp [Terminal.isSum, Terminal.isProduct, Level.continues]

theorem unique_expr {k : ℕ} (add : Unique .add k) : Unique .expr k := by
  intro d e r s hk h hr hs
  have weaker : ∀ kind, Level.add.continues kind → Level.expr.continues kind := by
    intro kind hkind
    simp only [Level.continues, Bool.or_eq_true] at hkind ⊢
    exact .inl hkind
  have stops : ∀ {token : Token} (rest : List Token), token.kind = .comparison →
      StopsAt Level.add.continues (token :: rest) :=
    fun rest hc => stopsAt_cons (by rw [hc]; rfl)
  obtain ⟨d, rfl⟩ | ⟨left, operator, hc, right, rfl⟩ := d.expr_cases <;>
    obtain ⟨e, rfl⟩ | ⟨left', operator', hc', right', rfl⟩ := e.expr_cases
  · obtain ⟨rfl, rfl⟩ := add d e r s hk h (hr.mono weaker) (hs.mono weaker)
    exact ⟨rfl, rfl⟩
  · rw [Derivation.tokens_comparison, List.append_assoc] at h
    obtain ⟨-, rfl⟩ := add d left' r _ hk h (hr.mono weaker) (stops _ hc')
    have := hr.head
    rw [hc'] at this
    cases this
  · rw [Derivation.tokens_comparison, List.append_assoc] at h
    simp only [Derivation.tokens_comparison, List.length_append] at hk
    obtain ⟨-, rfl⟩ := add left e _ s (by omega) h (stops _ hc) (hs.mono weaker)
    have := hs.head
    rw [hc] at this
    cases this
  · simp only [Derivation.tokens_comparison, List.append_assoc] at h
    simp only [Derivation.tokens_comparison, List.length_append, List.length_cons] at hk
    obtain ⟨rfl, hrest⟩ := add left left' _ _ (by omega) h (stops _ hc) (stops _ hc')
    simp only [List.cons_append, List.cons.injEq] at hrest
    obtain ⟨rfl, hrest⟩ := hrest
    obtain ⟨rfl, rfl⟩ := add right right' r s (by omega) hrest (hr.mono weaker) (hs.mono weaker)
    exact ⟨rfl, rfl⟩

/-- An expression is fixed by any text that it starts and that does not continue it. -/
theorem Derivation.expr_unique {d e : Derivation (.rule .expr)} {r s : List Token}
    (h : d.tokens ++ r = e.tokens ++ s) (hr : StopsAt Level.expr.continues r)
    (hs : StopsAt Level.expr.continues s) : d = e ∧ r = s := by
  have all : ∀ k, Unique .unary k ∧ Unique .expr k := by
    intro k
    induction k using Nat.strong_induction_on with
    | _ k ih =>
      have pow := unique_pow (unique_atom fun j hj => (ih j hj).2) fun j hj => (ih j hj).1
      have unary := unique_unary pow fun j hj => (ih j hj).1
      exact ⟨unary, unique_expr (unique_add (unique_mul unary))⟩
  exact (all _).2 d e r s le_rfl h hr hs

/-! ## Statements and programs -/

/-- Whether a token can stand inside a statement. -/
def Terminal.inStatement (kind : Terminal) : Bool := kind != .separator

namespace Derivation

variable {r s : List Token}

theorem expr_continues_le {kind : Terminal} (h : Level.expr.continues kind) :
    kind.inStatement := by
  cases kind <;> simp [Level.continues, Terminal.isProduct, Terminal.isSum,
    Terminal.inStatement] at h ⊢

/-- An equals sign is not part of an expression, nor does it stand behind a statement. -/
theorem expr_ne_assignment (d : Derivation (.rule .expr)) {name equals : Token}
    {rest : List Token} (he : equals.kind = .equals) (hr : StopsAt Terminal.inStatement r) :
    d.tokens ++ r ≠ name :: equals :: rest := by
  intro h
  rcases hd : d.tokens with _ | ⟨first, _ | ⟨second, more⟩⟩
  · exact d.tokens_ne_nil (by decide) hd
  · rw [hd, List.singleton_append, List.cons.injEq] at h
    rw [h.2] at hr
    have := hr.head
    rw [he] at this
    cases this
  · rw [hd] at h
    simp only [List.cons_append, List.cons.injEq] at h
    have inside := inExpression_of_mem .expr d second (by rw [hd]; simp)
    rw [h.2.1, he] at inside
    cases inside

/-- Nor is the word `print`. -/
theorem expr_ne_printing (d : Derivation (.rule .expr)) {keyword : Token} {rest : List Token}
    (hk : keyword.kind = .print) : d.tokens ++ r ≠ keyword :: rest := by
  intro h
  rcases hd : d.tokens with _ | ⟨first, more⟩
  · exact d.tokens_ne_nil (by decide) hd
  · rw [hd, List.cons_append, List.cons.injEq] at h
    have inside := inExpression_of_mem .expr d first (by rw [hd]; simp)
    rw [h.1, hk] at inside
    cases inside

theorem assign_unique {d e : Derivation (.rule .assign)} (h : d.tokens ++ r = e.tokens ++ s)
    (hr : StopsAt Terminal.inStatement r) (hs : StopsAt Terminal.inStatement s) :
    d = e ∧ r = s := by
  induction d using assign_induction generalizing e with
  | last name equals hn he value =>
    obtain ⟨name', equals', hn', he', value', rfl⟩ := e.assign_cases
    simp only [tokens_assignment, List.cons_append, List.cons.injEq] at h
    obtain ⟨rfl, rfl, h⟩ := h
    cases value' with
    | left value' =>
      obtain ⟨name', equals', hn', he', value', rfl⟩ := value'.assign_cases
      exact absurd h (expr_ne_assignment value he' hr)
    | right value' =>
      obtain ⟨rfl, rfl⟩ := expr_unique h (hr.mono fun _ => expr_continues_le)
        (hs.mono fun _ => expr_continues_le)
      exact ⟨rfl, rfl⟩
  | chain name equals hn he value ih =>
    obtain ⟨name', equals', hn', he', value', rfl⟩ := e.assign_cases
    simp only [tokens_assignment, List.cons_append, List.cons.injEq] at h
    obtain ⟨rfl, rfl, h⟩ := h
    cases value' with
    | left value' =>
      obtain ⟨rfl, rfl⟩ := ih h
      exact ⟨rfl, rfl⟩
    | right value' =>
      obtain ⟨name, equals, hn, he, value, rfl⟩ := value.assign_cases
      exact absurd h.symm (expr_ne_assignment value' he hs)

theorem stmt_unique {d e : Derivation (.rule .stmt)} (h : d.tokens ++ r = e.tokens ++ s)
    (hr : StopsAt Terminal.inStatement r) (hs : StopsAt Terminal.inStatement s) :
    d = e ∧ r = s := by
  obtain ⟨d, rfl⟩ | ⟨keyword, hk, d, rfl⟩ | ⟨d, rfl⟩ := d.stmt_cases <;>
    obtain ⟨e, rfl⟩ | ⟨keyword', hk', e, rfl⟩ | ⟨e, rfl⟩ := e.stmt_cases
  · obtain ⟨rfl, rfl⟩ := assign_unique h hr hs
    exact ⟨rfl, rfl⟩
  · obtain ⟨name, equals, hn, he, value, rfl⟩ := d.assign_cases
    simp only [tokens_ofAssign, tokens_assignment, tokens_ofPrint, tokens_printing,
      List.cons_append, List.cons.injEq] at h
    rw [h.1, hk'] at hn
    cases hn
  · obtain ⟨name, equals, hn, he, value, rfl⟩ := d.assign_cases
    exact absurd h.symm (expr_ne_assignment e he hs)
  · obtain ⟨name, equals, hn, he, value, rfl⟩ := e.assign_cases
    simp only [tokens_ofAssign, tokens_assignment, tokens_ofPrint, tokens_printing,
      List.cons_append, List.cons.injEq] at h
    rw [← h.1, hk] at hn
    cases hn
  · simp only [tokens_ofPrint, tokens_printing, List.cons_append, List.cons.injEq] at h
    obtain ⟨rfl, h⟩ := h
    obtain ⟨rfl, rfl⟩ := expr_unique h (hr.mono fun _ => expr_continues_le)
      (hs.mono fun _ => expr_continues_le)
    exact ⟨rfl, rfl⟩
  · exact absurd h.symm (expr_ne_printing e hk)
  · obtain ⟨name, equals, hn, he, value, rfl⟩ := e.assign_cases
    exact absurd h (expr_ne_assignment d he hr)
  · exact absurd h (expr_ne_printing d hk')
  · obtain ⟨rfl, rfl⟩ := expr_unique h (hr.mono fun _ => expr_continues_le)
      (hs.mono fun _ => expr_continues_le)
    exact ⟨rfl, rfl⟩

/-- A statement that may be missing is fixed by what it starts, up to a separator or the end. -/
theorem optional_unique {d e : Derivation (.optional (.rule .stmt))}
    (h : d.tokens ++ r = e.tokens ++ s) (hr : StopsAt Terminal.inStatement r)
    (hs : StopsAt Terminal.inStatement s) : d = e ∧ r = s := by
  have missing : ∀ (d : Derivation (.rule .stmt)) {r s : List Token},
      StopsAt Terminal.inStatement s → s ≠ d.tokens ++ r := by
    intro d r s hs h
    obtain ⟨first, more, hd⟩ := List.exists_cons_of_ne_nil (d.tokens_ne_nil (by decide))
    rw [h, hd, List.cons_append] at hs
    have separator : first.kind = .separator := by simpa [Terminal.inStatement] using hs.head
    exact d.ne_separator_of_mem first (by rw [hd]; simp) separator
  cases d with
  | absent =>
    cases e with
    | absent => exact ⟨rfl, h⟩
    | present e => exact absurd h (missing e hr)
  | present d =>
    cases e with
    | absent => exact absurd h.symm (missing d hs)
    | present e =>
      obtain ⟨rfl, rfl⟩ := stmt_unique h hr hs
      exact ⟨rfl, rfl⟩

theorem ne_separator_of_mem_optional (d : Derivation (.optional (.rule .stmt))) :
    ∀ token ∈ d.tokens, token.kind ≠ .separator := by
  cases d with
  | absent => simp [tokens]
  | present d => exact d.ne_separator_of_mem

theorem lines_unique {last last' : Derivation (.optional (.rule .stmt))} :
    (lines lines' : Derivation Pattern.lines) →
      lines.tokens ++ last.tokens = lines'.tokens ++ last'.tokens → lines = lines' ∧ last = last'
  | .stop, .stop, h => by
    have stop : StopsAt Terminal.inStatement [] := by simp [StopsAt]
    have h : last.tokens ++ [] = last'.tokens ++ [] := by simpa [tokens] using h
    exact ⟨rfl, (optional_unique h stop stop).1⟩
  | .stop, .more (.seq line' (.terminal separator' hs')) rest', h => by
    have : separator' ∈ last.tokens := by
      have h : last.tokens = _ := h
      rw [h]
      simp [tokens]
    exact absurd hs' (last.ne_separator_of_mem_optional _ this)
  | .more (.seq line (.terminal separator hs)) rest, .stop, h => by
    have : separator ∈ last'.tokens := by
      have h : _ = last'.tokens := h
      rw [← h]
      simp [tokens]
    exact absurd hs (last'.ne_separator_of_mem_optional _ this)
  | .more (.seq line (.terminal separator hs)) rest,
    .more (.seq line' (.terminal separator' hs')) rest', h => by
    simp only [tokens, List.append_assoc, List.singleton_append] at h
    obtain ⟨rfl, hrest⟩ := optional_unique h (stopsAt_cons (by rw [hs]; rfl))
      (stopsAt_cons (by rw [hs']; rfl))
    rw [List.cons_append, List.cons_append, List.cons.injEq] at hrest
    obtain ⟨rfl, hrest⟩ := hrest
    obtain ⟨rfl, rfl⟩ := lines_unique rest rest' hrest
    exact ⟨rfl, rfl⟩

/-- The grammar is unambiguous. -/
theorem eq_of_tokens_eq {d e : Derivation (.rule .program)} (h : d.tokens = e.tokens) : d = e := by
  obtain ⟨lines, last, rfl⟩ := d.program_cases
  obtain ⟨lines', last', rfl⟩ := e.program_cases
  obtain ⟨rfl, rfl⟩ := lines_unique lines lines' h
  rfl

end Derivation

end Reckon
