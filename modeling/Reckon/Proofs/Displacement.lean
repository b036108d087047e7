import Reckon.Proofs.Safety
import Reckon.Tree.Outline

/-!
# Moving down

What changes when a text stands some lines further down: the lines of its marks, of its tokens and
of the positions in its tree, and nothing else.  Reading characters, deriving trees from tokens
(`Derivation.part_down`) and evaluating statements (`Node.IsStatement.moves`) all commute with it;
a fault moves along with the tree.
-/

namespace Reckon

/-! ## Marks and tokens -/

/-- The position some lines further down. -/
def Position.down (lines : Nat) (position : Position) : Position :=
  ⟨position.line + lines, position.column⟩

namespace Mark

/-- The mark some lines further down. -/
def down (lines : Nat) (mark : Mark) : Mark := ⟨mark.line + lines, mark.column⟩

theorem position_down (lines : Nat) (mark : Mark) :
    (mark.down lines).position = mark.position.down lines := by
  simp [position, down, Position.down]

theorem next_down (lines : Nat) (mark : Mark) (c : Char) :
    (mark.down lines).next c = (mark.next c).down lines := by
  unfold next
  split
  · simp [down, Nat.add_right_comm]
  · rfl

theorem after_down (lines : Nat) (mark : Mark) (cs : List Char) :
    (mark.down lines).after cs = (mark.after cs).down lines := by
  induction cs generalizing mark with
  | nil => rfl
  | cons c cs ih =>
    show ((mark.down lines).next c).after cs = ((mark.next c).after cs).down lines
    rw [next_down, ih]

/-- A newline leads to the start of the next line. -/
theorem after_newline (mark : Mark) (cs : List Char) :
    mark.after (cs ++ ['\n']) = ⟨mark.line + cs.count '\n' + 1, 1⟩ := by
  have hline (mark : Mark) : (mark.after cs).line = mark.line + cs.count '\n' := by
    induction cs generalizing mark with
    | nil => rfl
    | cons c cs ih =>
      show ((mark.next c).after cs).line = _
      rw [ih, List.count_cons, next]
      by_cases hc : c = '\n'
      · simp [hc]
        omega
      · simp [hc]
  rw [after_append, ← hline]
  rfl

end Mark

/-- The token some lines further down. -/
def Token.down (lines : Nat) (token : Token) : Token := { token with mark := token.mark.down lines }

/-! ## Trees -/

namespace Node

mutual

/-- The tree some lines further down. -/
def down (lines : Nat) : Node → Node
  | .rule label children position =>
    .rule label (downAll lines children) (position.map (Position.down lines))
  | .token kind text position => .token kind text (position.map (Position.down lines))
  | .foreign value => .foreign value

/-- Some trees, all of them some lines further down. -/
def downAll (lines : Nat) : List Node → List Node
  | [] => []
  | node :: rest => node.down lines :: downAll lines rest

end

theorem downAll_eq_map (lines : Nat) (nodes : List Node) :
    downAll lines nodes = nodes.map (down lines) := by
  induction nodes with
  | nil => rfl
  | cons node nodes ih => rw [downAll, ih, List.map_cons]

theorem children_down (lines : Nat) (node : Node) :
    (node.down lines).children = node.children.map (down lines) := by
  cases node with
  | rule label children position =>
    rw [down]
    exact downAll_eq_map lines children
  | token | foreign => rfl

mutual

theorem down_down (first second : Nat) :
    (node : Node) → (node.down first).down second = node.down (first + second)
  | .rule label children position => by
    have hposition : (position.map (Position.down first)).map (Position.down second) =
        position.map (Position.down (first + second)) := by
      cases position <;> simp [Position.down, add_assoc]
    rw [down, down, down, downAll_downAll, hposition]
  | .token kind text position => by
    cases position <;> simp [down, Position.down, add_assoc]
  | .foreign _ => rfl

theorem downAll_downAll (first second : Nat) :
    (nodes : List Node) → downAll second (downAll first nodes) = downAll (first + second) nodes
  | [] => rfl
  | node :: rest => by
    rw [downAll, downAll, downAll, down_down, downAll_downAll]

end

mutual

theorem down_zero : (node : Node) → node.down 0 = node
  | .rule label children position => by
    cases position <;> simp [down, Position.down, downAll_zero children]
  | .token kind text position => by
    cases position <;> simp [down, Position.down]
  | .foreign _ => rfl

theorem downAll_zero : (nodes : List Node) → downAll 0 nodes = nodes
  | [] => rfl
  | node :: rest => by rw [downAll, down_zero node, downAll_zero rest]

end

mutual

theorem position?_down (lines : Nat) :
    (node : Node) → (node.down lines).position? = node.position?.map (Position.down lines)
  | .rule label children position => by
    rw [down, position?, position?, firstPosition?_downAll lines children]
    cases position <;> rfl
  | .token kind text position => rfl
  | .foreign _ => rfl

theorem firstPosition?_downAll (lines : Nat) : (nodes : List Node) →
    firstPosition? (downAll lines nodes) = (firstPosition? nodes).map (Position.down lines)
  | [] => rfl
  | node :: rest => by
    rw [downAll, firstPosition?, firstPosition?, position?_down lines node,
      firstPosition?_downAll lines rest]
    cases node.position? <;> rfl

end

mutual

theorem reach_down (lines : Nat) : (node : Node) → (node.down lines).reach = node.reach
  | .rule label children none => by
    rw [down, Option.map_none, reach, reach, reaches_downAll lines children]
  | .rule label children (some position) => by
    rw [down, Option.map_some, reach, reach]
  | .token .. => rfl
  | .foreign _ => rfl

theorem reaches_downAll (lines : Nat) :
    (nodes : List Node) → reaches (downAll lines nodes) = reaches nodes
  | [] => rfl
  | node :: rest => by
    rw [downAll, reaches, reaches, reach_down lines node, reaches_downAll lines rest,
      position?_down, Option.isSome_map]

end

end Node

/-! ## Derivations -/

/-- The part some lines further down. -/
def Part.down (lines : Nat) (part : Part) : Part :=
  ⟨part.nodes.map (Node.down lines), part.start.map (Position.down lines)⟩

namespace Part

theorem down_append (lines : Nat) (a b : Part) :
    (a ++ b).down lines = a.down lines ++ b.down lines := by
  have hnodes : ((a ++ b).nodes).map (Node.down lines) =
      a.nodes.map (Node.down lines) ++ b.nodes.map (Node.down lines) := by
    rw [nodes_append, List.map_append]
  have hstart : (a ++ b).start.map (Position.down lines) =
      (a.start.map (Position.down lines)).or (b.start.map (Position.down lines)) := by
    rw [start_append, Option.map_or]
  exact Part.ext hnodes hstart

theorem ofToken_down (lines : Nat) (token : Token) :
    ofToken (token.down lines) = (ofToken token).down lines := by
  have hposition : (token.mark.down lines).position = token.mark.position.down lines :=
    token.mark.position_down lines
  by_cases hkept : token.kind.isKept
  · simp [ofToken, Token.down, down, Token.leaf, Node.down, hkept, hposition]
  · simp [ofToken, Token.down, down, hkept, hposition]

theorem wrap_down (lines : Nat) (n : Nonterminal) (label : Option String) (inner : Part) :
    (inner.down lines).wrap n label = (inner.wrap n label).down lines := by
  have hrule (name : String) (nodes : List Node) (start : Option Position) :
      (⟨[.rule name (nodes.map (Node.down lines)) (start.map (Position.down lines))],
        start.map (Position.down lines)⟩ : Part) =
        Part.down lines ⟨[.rule name nodes start], start⟩ := by
    rw [down, List.map_singleton, Node.down, Node.downAll_eq_map]
  obtain ⟨nodes, start⟩ := inner
  unfold wrap
  cases n.isInlined with
  | false => exact hrule _ _ _
  | true =>
    cases label with
    | some name => exact hrule _ _ _
    | none =>
      match nodes with
      | [.rule _ _ _] => rfl
      | [.token _ _ _] => rfl
      | [] => exact hrule n.label [] start
      | [.foreign value] => exact hrule n.label [.foreign value] start
      | a :: b :: rest =>
        have hmany := hrule n.label (a :: b :: rest) start
        cases a <;> exact hmany

end Part

namespace Derivation

variable {p : Pattern}

/-- The same derivation of tokens some lines further down. -/
def down (lines : Nat) {p : Pattern} : Derivation p → Derivation p
  | .terminal token h => .terminal (token.down lines) h
  | .rule production h inner => .rule production h (inner.down lines)
  | .seq first second => .seq (first.down lines) (second.down lines)
  | .left d => .left (d.down lines)
  | .right d => .right (d.down lines)
  | .absent => .absent
  | .present d => .present (d.down lines)
  | .stop => .stop
  | .more first rest => .more (first.down lines) (rest.down lines)

theorem tokens_down (lines : Nat) (d : Derivation p) :
    (d.down lines).tokens = d.tokens.map (Token.down lines) := by
  induction d with
  | terminal | absent | stop => rfl
  | rule _ _ _ ih | left _ ih | right _ ih | present _ ih => exact ih
  | seq first second ihf ihs | more first second ihf ihs =>
    rw [down, tokens, tokens, ihf, ihs, List.map_append]

theorem part_down (lines : Nat) (d : Derivation p) : (d.down lines).part = d.part.down lines := by
  induction d with
  | terminal token h => exact Part.ofToken_down lines token
  | rule production h inner ih => rw [down, part, part, ih, Part.wrap_down]
  | left _ ih | right _ ih | present _ ih => exact ih
  | absent | stop => rfl
  | seq first second ihf ihs | more first second ihf ihs =>
    rw [down, part, part, ihf, ihs, Part.down_append]

end Derivation

/-! ## Evaluation -/

/-- The fault some lines further down. -/
def Fault.down (lines : Nat) (fault : Fault) : Fault :=
  { fault with position := fault.position.map (Position.down lines) }

theorem Fault.locate_down (lines : Nat) (room : Room) (node : Node) (fault : Fault) :
    (fault.locate room node).down lines = (fault.down lines).locate room (node.down lines) := by
  have hcause : (fault.down lines).cause = fault.cause := rfl
  have hplaced : (fault.down lines).position.isSome = fault.position.isSome := Option.isSome_map
  rw [locate, locate, hcause, hplaced, node.reach_down, node.position?_down]
  split
  · rfl
  split <;> rfl

namespace Outcome

variable {α β : Type}

/-- The outcome with its fault some lines further down. -/
def down (lines : Nat) : Outcome α → Outcome α
  | ⟨.ok a, env⟩ => ⟨.ok a, env⟩
  | ⟨.error fault, env⟩ => ⟨.error (fault.down lines), env⟩

theorem andThen_down (lines : Nat) (outcome : Outcome α) (next : α → Environment → Outcome β) :
    (outcome.andThen next).down lines =
      (outcome.down lines).andThen fun a env => (next a env).down lines := by
  obtain ⟨result, env⟩ := outcome
  cases result <;> rfl

theorem locate_down (lines : Nat) (room : Room) (node : Node) (outcome : Outcome α) :
    (outcome.locate room node).down lines =
      (outcome.down lines).locate room (node.down lines) := by
  obtain ⟨result, env⟩ := outcome
  cases result with
  | ok a => rfl
  | error fault =>
    simp only [locate, down]
    rw [Fault.locate_down]

theorem ofExcept_down (lines : Nat) (env : Environment) (result : Except Cause α) :
    (ofExcept env result).down lines = ofExcept env result := by
  cases result <;> rfl

end Outcome

theorem Rule.finish_down (lines : Nat) (rule : Rule) (room : Room) (children : List Node)
    (values : List Value) (env : Environment) :
    (rule.finish room children values env).down lines = rule.finish room children values env := by
  unfold finish
  split <;> rfl

namespace Node

variable {lines : Nat} {node : Node}

/-- A tree that is evaluated alike some lines further down, but for the place of its fault. -/
def Moves (lines : Nat) (node : Node) : Prop :=
  ∀ room env, (node.down lines).eval room env = (node.eval room env).down lines

theorem evalChildren_down {r : Rule} {children : List Node} {index : Nat}
    (h : ∀ child ∈ evaluated r index children, child.Moves lines) (room : Room)
    (env : Environment) :
    evalChildren r room env index (downAll lines children) =
      (evalChildren r room env index children).down lines := by
  induction children generalizing index env with
  | nil => rfl
  | cons child rest ih =>
    rw [evaluated] at h
    rw [downAll, evalChildren, evalChildren]
    split
    · rename_i hevaluates
      rw [if_pos hevaluates, List.forall_mem_cons] at h
      rw [h.1, Outcome.andThen_down]
      congr 1
      funext value env
      rw [ih h.2, Outcome.andThen_down]
      rfl
    · rename_i hskips
      rw [if_neg hskips] at h
      exact ih h env

/-- A rule node moves if its operands do and its own step does not look at positions. -/
theorem moves_rule {rule : Rule} {children : List Node} (hcheck : rule.check children = .ok ())
    (hsame : rule.check (downAll lines children) = .ok ())
    (hchildren : ∀ child ∈ evaluated rule 0 children, child.Moves lines)
    (hfinish : ∀ room values env, rule.finish room (downAll lines children) values env =
      rule.finish room children values env) (position : Option Position) :
    (Node.rule rule.label children position).Moves lines := by
  intro room env
  have hlocate (outcome : Outcome Value) :=
    outcome.locate_down lines room (.rule rule.label children position)
  rw [down] at hlocate ⊢
  rw [eval_rule hcheck, eval_rule hsame]
  cases room.enter? rule.label with
  | none => rfl
  | some inner =>
    simp only [hlocate, Outcome.andThen_down, evalChildren_down hchildren, hfinish,
      Rule.finish_down]

theorem finish_binary_down {rule : Rule} {kind : Terminal} (hj : rule.joins kind)
    (a b : Node) (text : String) (place : Option Position) (room : Room) (values : List Value)
    (env : Environment) :
    rule.finish room (downAll lines [a, .token kind.label text place, b]) values env =
      rule.finish room [a, .token kind.label text place, b] values env := by
  cases rule <;> first | cases hj | skip
  all_goals rcases values with _ | ⟨v, _ | ⟨w, _ | _⟩⟩ <;> rfl

theorem IsExpr.moves {texts : Terminal → String → Prop} {places : Option Position → Prop}
    (h : node.IsExpr texts places) : node.Moves lines := by
  induction h with
  | @token kind text position _ _ _ =>
    intro room env
    rw [eval, Outcome.locate_down, Outcome.ofExcept_down]
    rfl
  | binary hj _ _ _ _ _ iha ihb =>
    refine moves_rule (Rule.check_binary hj) (Rule.check_binary hj) ?_ ?_ _
    · rw [Rule.evaluated_binary hj]
      simpa using ⟨iha, ihb⟩
    · exact finish_binary_down hj _ _ _ _
  | neg _ _ _ _ ih =>
    refine moves_rule rfl rfl (by simpa [evaluated, Rule.evaluates] using ih) ?_ _
    intro room values env
    rcases values with _ | ⟨v, _ | _⟩ <;> rfl

theorem IsValue.moves {texts : Terminal → String → Prop} {places : Option Position → Prop}
    (h : node.IsValue texts places) : node.Moves lines := by
  induction h with
  | expr h => exact h.moves
  | assign _ _ _ _ ih =>
    refine moves_rule rfl rfl (by simpa [evaluated, Rule.evaluates] using ih) ?_ _
    intro room values env
    rcases values with _ | ⟨v, _ | _⟩ <;> rfl

theorem IsStatement.moves {texts : Terminal → String → Prop} {places : Option Position → Prop}
    (h : node.IsStatement texts places) : node.Moves lines := by
  cases h with
  | value h => exact h.moves
  | print hx _ =>
    refine moves_rule rfl rfl (by simpa [evaluated, Rule.evaluates] using hx.moves) ?_ _
    intro room values env
    rcases values with _ | ⟨v, _ | _⟩ <;> rfl

end Node

end Reckon
