import Reckon.Proofs.Escapes

/-!
# Literals run together

The body of a literal is a row of units: characters that stand for themselves, and backslashes each
with the character behind it.  The lexicon ends a literal behind whole units
(`Literal.isToken_ofBody_iff`), and escapes are resolved unit by unit
(`Literal.unescape_append`), so that neither joins the end of one body with the start of another.
Bodies run together are a body again, and its text is the texts of the two joined:
`interpret_concatenated`.
-/

open Computability

namespace Reckon

open Lexeme Lexicon

namespace Literal

variable {engine : Engine} {body u v : List Char}

/-! ## Units -/

theorem unescape_unit_append {unit : List Char} (h : unit ∈ stringUnit) (rest : List Char) :
    unescape (unit ++ rest) = unescape unit ++ unescape rest := by
  obtain ⟨c, hc, rfl⟩ | hescape := h
  · have hslash : c ≠ '\\' := by
      rintro rfl
      cases hc
    rw [List.singleton_append, unescape_cons hslash, unescape_cons hslash]
    rfl
  · obtain ⟨_, ⟨c, -, rfl⟩, rfl⟩ := mem_word_mul.1 hescape
    show unescape ('\\' :: c :: rest) = unescape ['\\', c] ++ unescape rest
    rw [unescape, unescape]
    cases escape? c <;> rfl

/-- No escape reaches over the end of a body. -/
theorem unescape_append (h : u ∈ stringUnit∗) (v : List Char) :
    unescape (u ++ v) = unescape u ++ unescape v := by
  obtain ⟨units, rfl, hunits⟩ := h
  induction units with
  | nil => rfl
  | cons unit units ih =>
    rw [List.forall_mem_cons] at hunits
    rw [List.flatten_cons, List.append_assoc, unescape_unit_append hunits.1, ih hunits.2,
      unescape_unit_append hunits.1, List.append_assoc]

theorem append_mem_stringUnits (hu : u ∈ stringUnit∗) (hv : v ∈ stringUnit∗) :
    u ++ v ∈ stringUnit∗ := by
  obtain ⟨units, rfl, hunits⟩ := hu
  obtain ⟨others, rfl, hothers⟩ := hv
  exact ⟨units ++ others, List.flatten_append.symm, List.forall_mem_append.2 ⟨hunits, hothers⟩⟩

/-! ## Literals of a body -/

/-- The literal with a body between its quotes. -/
def ofBody (body : List Char) : String := .ofList (quote body)

theorem toList_ofBody (body : List Char) : (ofBody body).toList = quote body := String.toList_ofList

theorem string_ofBody (body : List Char) :
    Literal.string (ofBody body) = .ofList (unescape body) := by
  rw [Literal.string, toList_ofBody, unquote_quote]

theorem quote_mem_string_iff : quote body ∈ Lexicon.string ↔ body ∈ stringUnit∗ := by
  constructor
  · intro h
    obtain ⟨_, ⟨units, hunits, last, hlast, rfl⟩, hquote⟩ := mem_word_mul.1 h
    obtain rfl : last = ['"'] := hlast
    obtain rfl : body = units := List.append_cancel_right (List.cons.inj hquote).2
    exact hunits
  · intro h
    exact mem_word_mul.2 ⟨_, Language.append_mem_mul h rfl, rfl⟩

/-- Whether a text is read as a single string token. -/
def IsToken (engine : Engine) (literal : String) : Prop :=
  Scan.ofText engine literal = ⟨[⟨.string, literal, {}⟩], none⟩

theorem isToken_ofBody_iff : IsToken engine (ofBody body) ↔ body ∈ stringUnit∗ := by
  rw [← quote_mem_string_iff, ← toList_ofBody]
  constructor
  · intro h
    obtain ⟨mark, rest, hlexed, -⟩ := Scan.exists_lexed engine (ofBody body)
    rw [h, ← List.nil_append [_]] at hlexed
    exact hlexed.token_text.1
  · exact Scan.ofText_string

end Literal

/-! ## Programs of two literals -/

/-- Two strings with a plus between them are three tokens. -/
theorem Scan.ofText_sum (engine : Engine) {a b : String}
    (ha : a.toList ∈ Terminal.string.language) (hb : b.toList ∈ Terminal.string.language) :
    ∃ sign second, ofText engine (a ++ " + " ++ b) =
      ⟨[⟨.string, a, {}⟩, ⟨.plus, "+", sign⟩, ⟨.string, b, second⟩], none⟩ := by
  have hsource : (a ++ " + " ++ b).toList =
      a.toList ++ ([' '] ++ (['+'] ++ ([' '] ++ b.toList))) := by
    simp
  have hstart : Lexed engine (a ++ " + " ++ b).toList [] {}
      (a.toList ++ ([' '] ++ (['+'] ++ ([' '] ++ b.toList)))) := by
    rw [← hsource]
    exact .start
  have hblank : [' '] ∈ language none :=
    .inl (mem_oneOf_mul_star.2 ⟨' ', [], rfl, by simp, rfl⟩)
  have hplus : ['+'] ∈ Terminal.plus.language := rfl
  have hbefore : first? ([' '] ++ (['+'] ++ ([' '] ++ b.toList))) = some (none, 1) := rfl
  have hsign : first? (['+'] ++ ([' '] ++ b.toList)) = some (some .plus, 1) := rfl
  have hbehind : first? ([' '] ++ b.toList) = some (none, 1) := by
    obtain ⟨body, -, hbody⟩ := mem_word_mul.1 hb
    rw [hbody]
    rfl
  have hfirst := (hstart.string ha).skip hblank (first?_eq_some_iff.1 hbefore).2.2.2
  have hmiddle := hfirst.token hplus (first?_eq_some_iff.1 hsign).2.2.2
    (iff_of_false (by simp) (by simp))
  have hlast := hmiddle.skip hblank (first?_eq_some_iff.1 hbehind).2.2.2
  rw [← List.append_nil b.toList] at hlast
  exact ⟨_, _, (hlast.string hb).ofText_eq⟩

/-- Bodies that each make a literal make one when they are run together.  Its text is the texts of
the two joined, and so is the sum of the two literals. -/
theorem interpret_concatenated {engine : Engine} {u v : List Char}
    (hu : Literal.IsToken engine (Literal.ofBody u))
    (hv : Literal.IsToken engine (Literal.ofBody v)) (env : Environment) :
    Literal.IsToken engine (Literal.ofBody (u ++ v)) ∧
      ∃ first second : String,
        interpret engine.name (Literal.ofBody u) env = (.ok (.text first), env) ∧
        interpret engine.name (Literal.ofBody v) env = (.ok (.text second), env) ∧
        interpret engine.name (Literal.ofBody (u ++ v)) env =
          (.ok (.text (first ++ second)), env) ∧
        interpret engine.name (Literal.ofBody u ++ " + " ++ Literal.ofBody v) env =
          (.ok (.text (first ++ second)), env) := by
  have hunits := Literal.isToken_ofBody_iff.1 hu
  have hothers := Literal.isToken_ofBody_iff.1 hv
  have hjoined : Literal.IsToken engine (Literal.ofBody (u ++ v)) :=
    Literal.isToken_ofBody_iff.2 (Literal.append_mem_stringUnits hunits hothers)
  have hvalue {literal : String} (h : Literal.IsToken engine literal) :
      interpret engine.name literal env = (.ok (.text (Literal.string literal)), env) :=
    interpret_eq h rfl env
  have htext : Literal.string (Literal.ofBody (u ++ v)) =
      Literal.string (Literal.ofBody u) ++ Literal.string (Literal.ofBody v) := by
    simp only [Literal.string_ofBody, Literal.unescape_append hunits, String.ofList_append]
  refine ⟨hjoined, _, _, hvalue hu, hvalue hv, ?_, ?_⟩
  · rw [hvalue hjoined, htext]
  · have hmem {body : List Char} (h : body ∈ stringUnit∗) :
        (Literal.ofBody body).toList ∈ Terminal.string.language := by
      rw [Literal.toList_ofBody]
      exact Literal.quote_mem_string_iff.2 h
    obtain ⟨sign, second, hscan⟩ := Scan.ofText_sum engine (hmem hunits) (hmem hothers)
    exact interpret_eq hscan rfl env

/-- A body that ends in an escaped backslash. -/
def slashBody : List Char := ['a', '\\', '\\']

/-- A body that starts like the end of an escape, and has an unknown escape and a return. -/
def letterBody : List Char := ['n', '\\', 'q', '\r']

theorem interpret_slashBody :
    Literal.IsToken .lalr (Literal.ofBody slashBody) ∧
      Literal.IsToken .lalr (Literal.ofBody letterBody) ∧
      ∃ first second : String,
        interpret "lalr" "\"a\\\\n\\q\r\"" {} = (.ok (.text (first ++ second)), {}) ∧
        interpret "lalr" "\"a\\\\\" + \"n\\q\r\"" {} = (.ok (.text (first ++ second)), {}) := by
  have hslash : Literal.IsToken .lalr (Literal.ofBody slashBody) := by cbv
  have hletter : Literal.IsToken .lalr (Literal.ofBody letterBody) := by cbv
  obtain ⟨-, first, second, -, -, hjoined, hsum⟩ := interpret_concatenated hslash hletter {}
  exact ⟨hslash, hletter, first, second, hjoined, hsum⟩

end Reckon
