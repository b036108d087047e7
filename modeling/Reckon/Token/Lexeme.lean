import Reckon.Terminal

/-!
# Lexemes

`Lexeme.first?` finds the piece at the front of a text: the number of characters that belong to a
terminal, or to blanks or a comment, which are skipped.  Numbers and names take as many characters
as they can, and a string ends at its first quote that is not escaped.
-/

namespace Reckon.Lexeme

/-- Blanks between tokens. -/
def isSkipped (c : Char) : Bool := c == ' ' || c == '\t' || c == '\x0c'

/-- The characters a name starts with. -/
def isNameStart (c : Char) : Bool := c.isAlpha || c == '_'

/-- The characters a name goes on with. -/
def isNameRest (c : Char) : Bool := c.isAlphanum || c == '_'

/-- The number of characters of a class at the front of a text. -/
def run (p : Char → Bool) (cs : List Char) : Nat := (cs.takeWhile p).length

/-- The length of an exponent: a mark, an optional sign and digits; none without a digit. -/
def exponentLength : List Char → Nat
  | [] => 0
  | c :: rest =>
    if c = 'e' ∨ c = 'E' then
      let sign := if rest.head? = some '+' ∨ rest.head? = some '-' then 1 else 0
      let digits := run Char.isDigit (rest.drop sign)
      if digits = 0 then 0 else 1 + sign + digits
    else 0

/-- The length of a number: digits with an optional point, at least one in all, and an optional
exponent. -/
def numberLength (cs : List Char) : Nat :=
  let whole := run Char.isDigit cs
  match cs.drop whole with
  | '.' :: rest =>
    let fraction := run Char.isDigit rest
    if whole + fraction = 0 then 0
    else whole + 1 + fraction + exponentLength (rest.drop fraction)
  | rest => if whole = 0 then 0 else whole + exponentLength rest

/-- The length of the rest of a string after its opening quote, up to and with the closing one.  A
backslash takes the next character with it, and a string does not go beyond its line. -/
def stringRest? : List Char → Option Nat
  | [] => none
  | '"' :: _ => some 1
  | '\n' :: _ => none
  | '\\' :: c :: rest => if c = '\n' then none else (stringRest? rest).map (· + 2)
  | _ :: rest => (stringRest? rest).map (· + 1)

/-- An operator, a parenthesis or a separator, given by its first character and the next. -/
def symbol? (c : Char) (next : Option Char) : Option (Terminal × Nat) :=
  match c with
  | '=' => if next = some '=' then some (.comparison, 2) else some (.equals, 1)
  | '!' => if next = some '=' then some (.comparison, 2) else none
  | '<' | '>' => if next = some '=' then some (.comparison, 2) else some (.comparison, 1)
  | '+' => some (.plus, 1)
  | '-' => some (.minus, 1)
  | '*' => some (.star, 1)
  | '/' => some (.slash, 1)
  | '%' => some (.percent, 1)
  | '^' => some (.caret, 1)
  | '(' => some (.lparen, 1)
  | ')' => some (.rparen, 1)
  | ';' => some (.separator, 1)
  | '\n' => some (.separator, 1)
  | '\r' => if next = some '\n' then some (.separator, 2) else none
  | _ => none

/-- The piece at the front of a text: its terminal, or `none` for what is skipped, and its
length. -/
def first? : List Char → Option (Option Terminal × Nat)
  | [] => none
  | c :: rest =>
    if isSkipped c then some (none, 1 + run isSkipped rest)
    else if c = '#' then some (none, 1 + run (· != '\n') rest)
    else if isNameStart c then some (some .name, 1 + run isNameRest rest)
    else if c.isDigit || c == '.' then
      if numberLength (c :: rest) = 0 then none
      else some (some .number, numberLength (c :: rest))
    else if c = '"' then (stringRest? rest).map fun n => (some .string, 1 + n)
    else (symbol? c rest.head?).map fun (kind, n) => (some kind, n)

theorem symbol?_pos {c : Char} {next : Option Char} {kind : Terminal} {n : Nat}
    (h : symbol? c next = some (kind, n)) : 0 < n := by
  unfold symbol? at h
  repeat' split at h
  all_goals simp_all <;> omega

/-- A piece takes at least one character. -/
theorem first?_pos {cs : List Char} {kind : Option Terminal} {n : Nat}
    (h : first? cs = some (kind, n)) : 0 < n := by
  unfold first? at h
  repeat' split at h
  all_goals try simp only [Option.some.injEq, Prod.mk.injEq, reduceCtorEq] at h
  · omega
  · omega
  · omega
  · omega
  · obtain ⟨m, -, hm⟩ := Option.map_eq_some_iff.1 h
    simp only [Prod.mk.injEq] at hm
    omega
  · obtain ⟨⟨k, m⟩, hs, hm⟩ := Option.map_eq_some_iff.1 h
    simp only [Prod.mk.injEq] at hm
    exact hm.2 ▸ symbol?_pos hs

/-- What follows a piece is shorter than the text. -/
theorem length_drop_lt {cs : List Char} {kind : Option Terminal} {n : Nat}
    (h : first? cs = some (kind, n)) : (cs.drop n).length < cs.length := by
  have hpos := first?_pos h
  cases cs with
  | nil => simp [first?] at h
  | cons c rest => simp only [List.length_drop, List.length_cons]; omega

end Reckon.Lexeme
