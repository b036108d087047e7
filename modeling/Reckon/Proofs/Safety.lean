import Reckon.Evaluation.Basic
import Reckon.Proofs.Numerals
import Reckon.Proofs.Parsing
import Reckon.Proofs.Shape

/-!
# Evaluating programs that parse

A tree that parsing gives has the shape that evaluation expects.  In an environment of finite
numbers and texts, each step then gives such a value again, or one of the faults that a program may
have; nothing else is ever bound.
-/

namespace Reckon

/-- A finite number or a text. -/
def Value.isPlain : Value → Bool
  | .number x => x.isFinite
  | .text _ => true
  | _ => false

/-- Every name is bound to a finite number or a text. -/
def Environment.Plain (env : Environment) : Prop :=
  ∀ name value, env.bindings.get? name = some value → value.isPlain

namespace Environment.Plain

variable {env : Environment}

theorem define (h : env.Plain) {value : Value} (hv : value.isPlain) (name : String) :
    (env.define name value).Plain := by
  intro other found hfound
  rw [Environment.define, Bindings.get?_define] at hfound
  split at hfound
  · cases hfound
    exact hv
  · exact h other found hfound

theorem writeLine (h : env.Plain) (line : String) : (env.writeLine line).Plain := h

/-- A rule node with a plain value leaves a plain environment. -/
theorem effect (h : env.Plain) {value : Value} (hv : value.isPlain) (rule : Rule)
    (children : List Node) : (rule.effect children value env).Plain := by
  unfold Rule.effect
  split
  · exact h.define hv _
  · exact h.writeLine _
  · exact h

end Environment.Plain

/-! ## Faults -/

/-- The causes that a program may have. -/
def Cause.IsOrdinary : Cause → Prop
  | .undefinedName _ | .divisionByZero _ | .operatorRange _ | .literalRange _ => True
  | .nestedTooDeeply => True
  | .kindMismatch _ kinds => ∀ kind ∈ kinds, kind = .number ∨ kind = .text
  | _ => False

namespace Fault

/-- A fault that a program may have, perhaps not yet placed. -/
def IsOrdinary (fault : Fault) : Prop :=
  fault.cause.IsOrdinary ∧ (fault.position = none ∨ IsMarked fault.position)

/-- A fault that a program may have, at its place. -/
def IsPlaced (fault : Fault) : Prop :=
  fault.IsOrdinary ∧ (fault.cause ≠ .nestedTooDeeply → IsMarked fault.position)

theorem isOrdinary_of_cause {cause : Cause} (h : cause.IsOrdinary) : IsOrdinary ⟨cause, none⟩ :=
  ⟨h, .inl rfl⟩

theorem eq_nestedTooDeeply {cause : Cause} (h : cause.IsOrdinary) (hp : cause.isPlaceless) :
    cause = .nestedTooDeeply := by
  cases cause <;> simp_all [Cause.IsOrdinary, Cause.isPlaceless]

theorem isPlaced_nestedTooDeeply : IsPlaced ⟨.nestedTooDeeply, none⟩ :=
  ⟨isOrdinary_of_cause trivial, fun h => absurd rfl h⟩

theorem IsOrdinary.locate {fault : Fault} (h : fault.IsOrdinary) (room : Room) {node : Node}
    (hn : IsMarked node.position?) : (fault.locate room node).IsPlaced := by
  unfold Fault.locate
  split
  case isTrue hkept =>
    rw [Bool.or_eq_true] at hkept
    refine ⟨h, fun hdeep => ?_⟩
    obtain hplaceless | hsome := hkept
    · exact absurd (eq_nestedTooDeeply h.1 hplaceless) hdeep
    · exact h.2.resolve_left fun hnone => by simp [hnone] at hsome
  case isFalse =>
    split
    · exact ⟨⟨h.1, .inr hn⟩, fun _ => hn⟩
    · exact isPlaced_nestedTooDeeply

theorem IsPlaced.locate {fault : Fault} (h : fault.IsPlaced) (room : Room) (node : Node) :
    fault.locate room node = fault := by
  refine if_pos ?_
  by_cases hdeep : fault.cause = .nestedTooDeeply
  · simp [hdeep, Cause.isPlaceless]
  · obtain ⟨mark, hmark⟩ := h.2 hdeep
    simp [hmark]

end Fault

/-! ## Outcomes -/

/-- What holds of every result of a step that may fail. -/
def Cause.Sound {α : Type} (P : α → Prop) : Except Cause α → Prop
  | .ok a => P a
  | .error cause => cause.IsOrdinary

namespace Outcome

variable {α β : Type} {P : α → Prop} {Q : β → Prop} {F : Fault → Prop} {outcome : Outcome α}

/-- A plain environment, with a good value or a good fault. -/
def Holds (P : α → Prop) (F : Fault → Prop) (outcome : Outcome α) : Prop :=
  outcome.env.Plain ∧
    match outcome.result with
    | .ok a => P a
    | .error fault => F fault

theorem Holds.andThen {next : α → Environment → Outcome β} (h : outcome.Holds P F)
    (hnext : ∀ a env, P a → env.Plain → (next a env).Holds Q F) :
    (outcome.andThen next).Holds Q F := by
  obtain ⟨result, env⟩ := outcome
  cases result with
  | ok a => exact hnext a env h.2 h.1
  | error fault => exact h

theorem Holds.mono {P' : α → Prop} {F' : Fault → Prop} (h : outcome.Holds P F)
    (hP : ∀ a, P a → P' a) (hF : ∀ fault, F fault → F' fault) : outcome.Holds P' F' := by
  obtain ⟨result, env⟩ := outcome
  cases result with
  | ok a => exact ⟨h.1, hP a h.2⟩
  | error fault => exact ⟨h.1, hF fault h.2⟩

theorem Holds.locate {node : Node} (h : outcome.Holds P Fault.IsOrdinary) (room : Room)
    (hn : IsMarked node.position?) : (outcome.locate room node).Holds P Fault.IsPlaced := by
  obtain ⟨result, env⟩ := outcome
  cases result with
  | ok a => exact h
  | error fault => exact ⟨h.1, h.2.locate room hn⟩

theorem Holds.locate_placed (h : outcome.Holds P Fault.IsPlaced) (room : Room) (node : Node) :
    (outcome.locate room node).Holds P Fault.IsPlaced := by
  obtain ⟨result, env⟩ := outcome
  cases result with
  | ok a => exact h
  | error fault =>
    refine ⟨h.1, ?_⟩
    change (fault.locate room node).IsPlaced
    rw [h.2.locate]
    exact h.2

theorem holds_ofExcept {env : Environment} (henv : env.Plain) {e : Except Cause α}
    (h : Cause.Sound P e) : (ofExcept env e).Holds P Fault.IsOrdinary := by
  cases e with
  | ok a => exact ⟨henv, h⟩
  | error cause => exact ⟨henv, Fault.isOrdinary_of_cause h⟩

end Outcome

/-! ## Operators -/

namespace Value

theorem kind_of_isPlain {a : Value} (h : a.isPlain) : a.kind = .number ∨ a.kind = .text := by
  cases a <;> simp_all [isPlain, kind]

theorem kinds_of_isPlain {a b : Value} (ha : a.isPlain) (hb : b.isPlain) :
    ∀ kind ∈ [a.kind, b.kind], kind = .number ∨ kind = .text := by
  simpa using ⟨kind_of_isPlain ha, kind_of_isPlain hb⟩

theorem isPlain_ofBool (b : Bool) : (ofBool b).isPlain := by
  cases b <;> rfl

theorem sound_negate {a : Value} (h : a.isPlain) : Cause.Sound (Value.isPlain ·) a.negate := by
  cases a with
  | number x => simpa [negate, Cause.Sound, isPlain] using h
  | text s => simp [negate, Cause.Sound, Cause.IsOrdinary, kind]
  | _ => simp [isPlain] at h

end Value

theorem Operator.sound_apply (op : Operator) {a b : Value} (ha : a.isPlain) (hb : b.isPlain) :
    Cause.Sound (Value.isPlain ·) (op.apply a b) := by
  unfold apply
  split
  · split
    · trivial
    · simp only
      split
      · assumption
      · trivial
  · split
    · rfl
    · simp [Cause.Sound, Cause.IsOrdinary]
  · exact Value.kinds_of_isPlain ha hb

/-- The texts of tokens that scanning gives. -/
def Terminal.Lexes (kind : Terminal) (text : String) : Prop := text.toList ∈ kind.language

theorem eq_ofList_of_toList {text : String} {cs : List Char} (h : text.toList = cs) :
    text = String.ofList cs := by
  rw [← h, String.ofList_toList]

theorem Operator.exists_ofSymbol? {rule : Rule} {kind : Terminal} {text : String}
    (hj : rule.joins kind) (hc : rule ≠ .compare) (h : kind.Lexes text) :
    ∃ op, ofSymbol? text = some op := by
  cases rule <;> cases kind <;> cases hj
  · exact absurd rfl hc
  all_goals
    rw [eq_ofList_of_toList h]
    exact ⟨_, rfl⟩

/-- The symbols of comparisons. -/
theorem Comparator.symbol_cases {text : String} (h : Terminal.comparison.Lexes text) :
    text = "==" ∨ text = "!=" ∨ ∃ c, ofSymbol? text = some c := by
  obtain h | h | h | h | h | h := Terminal.mem_comparison.1 h
  · exact .inl (eq_ofList_of_toList h)
  · exact .inr (.inl (eq_ofList_of_toList h))
  all_goals
    rw [eq_ofList_of_toList h]
    exact .inr (.inr ⟨_, rfl⟩)

theorem Value.sound_compare {text : String} (h : Terminal.comparison.Lexes text) {a b : Value}
    (ha : a.isPlain) (hb : b.isPlain) : Cause.Sound (fun _ => True) (Value.compare text a b) := by
  unfold Value.compare
  split
  · trivial
  split
  · trivial
  case isFalse hequal hdiffer =>
    obtain heq | hne | ⟨c, hc⟩ := Comparator.symbol_cases h
    · exact absurd heq hequal
    · exact absurd hne hdiffer
    · split
      · simp [Comparator.applyText, hc, Cause.Sound]
      · simp [Comparator.applyText, hc, Cause.Sound]
      · exact Value.kinds_of_isPlain ha hb

theorem sound_tokenValue {env : Environment} (henv : env.Plain) {kind : Terminal} {text : String}
    (hk : kind.isOperand) (h : kind.Lexes text) :
    Cause.Sound (Value.isPlain ·) (tokenValue env.bindings kind.label text) := by
  cases kind <;> cases hk
  case number =>
    obtain ⟨x, hx⟩ := Option.isSome_iff_exists.1 (Numeral.toBinary64?_isSome h)
    simp only [tokenValue, if_true, Literal.number, hx]
    split
    · assumption
    · trivial
  case string => simp [tokenValue, Terminal.label, Cause.Sound, Value.isPlain]
  case name =>
    simp only [tokenValue, Terminal.label, String.reduceEq, if_false, if_true]
    cases hget : env.bindings.get? text with
    | none => trivial
    | some value => exact henv text value hget

/-! ## Nodes -/

namespace Node

/-- A tree that is evaluated without a surprise, in whatever room and plain environment. -/
def Safe (node : Node) : Prop :=
  ∀ room env, env.Plain → (node.eval room env).Holds (Value.isPlain ·) Fault.IsPlaced

/-- The children, from an index on, that a rule evaluates. -/
def evaluated (r : Rule) : Nat → List Node → List Node
  | _, [] => []
  | index, node :: rest =>
    if r.evaluates index then node :: evaluated r (index + 1) rest else evaluated r (index + 1) rest

theorem holds_evalChildren {r : Rule} {children : List Node} {index : Nat}
    (h : ∀ node ∈ evaluated r index children, node.Safe) (room : Room) {env : Environment}
    (henv : env.Plain) :
    (evalChildren r room env index children).Holds
      (fun values => values.length = (evaluated r index children).length ∧
        ∀ value ∈ values, value.isPlain) Fault.IsPlaced := by
  induction children generalizing index env with
  | nil =>
    rw [evalChildren]
    exact ⟨henv, rfl, by simp⟩
  | cons node rest ih =>
    rw [evalChildren]
    rw [evaluated] at h ⊢
    split
    case isTrue heval =>
      rw [if_pos heval, List.forall_mem_cons] at h
      refine (h.1 room env henv).andThen fun value env hvalue henv => ?_
      refine (ih h.2 henv).andThen fun values env hvalues henv => ?_
      exact ⟨henv, by simp [hvalues.1], List.forall_mem_cons.2 ⟨hvalue, hvalues.2⟩⟩
    case isFalse heval =>
      rw [if_neg heval] at h
      exact ih h henv

theorem holds_finish {rule : Rule} {room : Room} {children : List Node} {values : List Value}
    {env : Environment} (henv : env.Plain)
    (h : Cause.Sound (Value.isPlain ·) (rule.value room children values)) :
    (rule.finish room children values env).Holds (Value.isPlain ·) Fault.IsOrdinary := by
  unfold Rule.finish
  cases hvalue : rule.value room children values with
  | ok value =>
    rw [hvalue] at h
    exact ⟨henv.effect h rule children, h⟩
  | error cause =>
    rw [hvalue] at h
    exact ⟨henv, Fault.isOrdinary_of_cause h⟩

theorem eval_rule {rule : Rule} {children : List Node} (hcheck : rule.check children = .ok ())
    (position : Option Position) (room : Room) (env : Environment) :
    (Node.rule rule.label children position).eval room env =
      match room.enter? rule.label with
      | none => .ofExcept env (.error .nestedTooDeeply)
      | some inner =>
        Outcome.locate room (.rule rule.label children position) <|
          (evalChildren rule inner env 0 children).andThen fun values env =>
            rule.finish inner children values env := by
  rw [eval]
  cases room.enter? rule.label with
  | none => rfl
  | some inner =>
    simp only [Rule.ofLabel?_label, hcheck]
    rfl

/-- A rule node is safe if its operands are and its own step is sound. -/
theorem safe_rule {rule : Rule} {children : List Node} {position : Option Position}
    (hcheck : rule.check children = .ok ()) (hp : IsMarked position)
    (hchildren : ∀ node ∈ evaluated rule 0 children, node.Safe)
    (hvalue : ∀ room values, values.length = (evaluated rule 0 children).length →
      (∀ value ∈ values, value.isPlain) →
        Cause.Sound (Value.isPlain ·) (rule.value room children values)) :
    (Node.rule rule.label children position).Safe := by
  intro room env henv
  rw [eval_rule hcheck]
  cases room.enter? rule.label with
  | none => exact ⟨henv, Fault.isPlaced_nestedTooDeeply⟩
  | some inner =>
    have hoperands := (holds_evalChildren hchildren inner henv).mono (fun _ h => h)
      (fun fault (h : fault.IsPlaced) => h.1)
    refine (hoperands.andThen ?_).locate room ?_
    · intro values env hvalues henv
      exact holds_finish henv (hvalue inner values hvalues.1 hvalues.2)
    · obtain ⟨mark, rfl⟩ := hp
      exact ⟨mark, rfl⟩

end Node

namespace Rule

variable {a b : Node} {kind text : String} {place : Option Position} {v w : Value} {room : Room}

theorem value_arithmetic {rule : Rule} (h : rule = .add ∨ rule = .mul ∨ rule = .pow) :
    rule.value room [a, .token kind text place, b] [v, w] = Operator.applyText text v w := by
  have happly : applyInfix [text] [v, w] = Operator.applyText text v w := by
    simp only [applyInfix, applyAll, List.length_singleton, if_true, List.zip_cons_cons,
      List.zip_nil_left]
    cases Operator.applyText text v w <;> rfl
  obtain rfl | rfl | rfl := h <;> exact happly

theorem value_compare :
    Rule.compare.value room [a, .token kind text place, b] [v, w] =
      (Value.compare text v w).map Value.ofBool := by
  change (do return Value.ofBool (← Value.compare text v w)) = _
  cases Value.compare text v w <;> rfl

theorem sound_value_binary {rule : Rule} {kind : Terminal} (hj : rule.joins kind)
    (h : kind.Lexes text) (hv : v.isPlain) (hw : w.isPlain) :
    Cause.Sound (Value.isPlain ·)
      (rule.value room [a, .token kind.label text place, b] [v, w]) := by
  by_cases hc : rule = .compare
  · subst hc
    obtain rfl : kind = .comparison := by simpa [joins_compare] using hj
    have hsound := Value.sound_compare h hv hw
    rw [value_compare]
    cases hcompare : Value.compare text v w with
    | ok result => exact Value.isPlain_ofBool result
    | error cause =>
      rw [hcompare] at hsound
      exact hsound
  · obtain ⟨op, hop⟩ := Operator.exists_ofSymbol? hj hc h
    have hrule : rule = .add ∨ rule = .mul ∨ rule = .pow := by
      cases rule <;> first | contradiction | simp
    rw [value_arithmetic hrule, Operator.applyText, hop]
    exact op.sound_apply hv hw

theorem evaluated_binary {rule : Rule} {kind : Terminal} (hj : rule.joins kind) {operator : Node} :
    Node.evaluated rule 0 [a, operator, b] = [a, b] := by
  cases rule <;> first | rfl | cases hj

theorem check_binary {rule : Rule} {kind : Terminal} (hj : rule.joins kind) {operator : Node} :
    rule.check [a, operator, b] = .ok () := by
  cases rule <;> first | rfl | cases hj

end Rule

namespace Node

variable {node : Node}

theorem IsExpr.safe (h : node.IsExpr Terminal.Lexes IsMarked) : node.Safe := by
  induction h with
  | token hk ht hp =>
    intro room env henv
    rw [eval]
    exact (Outcome.holds_ofExcept henv (sound_tokenValue henv hk ht)).locate room hp
  | binary hj _ ht _ _ hp iha ihb =>
    refine safe_rule (Rule.check_binary hj) hp ?_ ?_
    · rw [Rule.evaluated_binary hj]
      simpa using ⟨iha, ihb⟩
    · intro room values hlength hvalues
      rw [Rule.evaluated_binary hj] at hlength
      obtain ⟨v, w, rfl⟩ := List.length_eq_two.1 hlength
      exact Rule.sound_value_binary hj ht (hvalues v (by simp)) (hvalues w (by simp))
  | neg ht _ _ hp ih =>
    refine safe_rule rfl hp (by simpa [evaluated, Rule.evaluates] using ih) ?_
    intro room values hlength hvalues
    obtain ⟨v, rfl⟩ := List.length_eq_one_iff.1 hlength
    exact Value.sound_negate (hvalues v (by simp))

theorem IsValue.safe (h : node.IsValue Terminal.Lexes IsMarked) : node.Safe := by
  induction h with
  | expr h => exact h.safe
  | assign ht _ _ hp ih =>
    refine safe_rule rfl hp (by simpa [evaluated, Rule.evaluates] using ih) ?_
    intro room values hlength hvalues
    obtain ⟨v, rfl⟩ := List.length_eq_one_iff.1 hlength
    exact hvalues v (by simp)

theorem IsStatement.safe (h : node.IsStatement Terminal.Lexes IsMarked) : node.Safe := by
  cases h with
  | value h => exact h.safe
  | print hx hp =>
    refine safe_rule rfl hp (by simpa [evaluated, Rule.evaluates] using hx.safe) ?_
    intro room values hlength hvalues
    obtain ⟨v, rfl⟩ := List.length_eq_one_iff.1 hlength
    have hv : v.isPlain := hvalues v (by simp)
    cases v with
    | number | text => exact hv
    | nil | foreign => cases hv

theorem evaluated_program (index : Nat) (statements : List Node) :
    evaluated .program index statements = statements := by
  induction statements generalizing index with
  | nil => rfl
  | cons statement statements ih =>
    have heval : Rule.program.evaluates index := rfl
    rw [evaluated, if_pos heval, ih]

/-- A program may have any value, and nil if it has no statements. -/
theorem holds_program {statements : List Node}
    (h : ∀ statement ∈ statements, statement.IsStatement Terminal.Lexes IsMarked)
    (position : Option Position) (room : Room) {env : Environment} (henv : env.Plain) :
    ((Node.rule Rule.program.label statements position).eval room env).Holds (fun _ => True)
      Fault.IsPlaced := by
  rw [eval_rule rfl]
  cases room.enter? Rule.program.label with
  | none => exact ⟨henv, Fault.isPlaced_nestedTooDeeply⟩
  | some inner =>
    have hsafe : ∀ statement ∈ evaluated .program 0 statements, statement.Safe := by
      rw [evaluated_program]
      exact fun statement hs => (h statement hs).safe
    refine ((holds_evalChildren hsafe inner henv).andThen ?_).locate_placed room _
    intro values env _ henv
    exact ⟨henv, trivial⟩

end Node

theorem isProgram_of_parse {engine : Engine} {source : String} {tree : Node}
    (h : parse engine source = .ok tree) : tree.IsProgram Terminal.Lexes IsMarked := by
  obtain ⟨tokens, mark, hlexed, d, rfl, hd⟩ := parse_eq_ok_iff.1 h
  refine d.isProgram hd fun token htoken => ?_
  obtain ⟨before, after, hsplit⟩ := List.append_of_mem htoken
  rw [hsplit] at hlexed
  exact hlexed.token_text.1

theorem Cause.className_of_isOrdinary {cause : Cause} (h : cause.IsOrdinary) :
    cause.className ∈ ["UndefinedVariableError", "DivisionByZeroError", "TypeMismatchError",
      "NumericRangeError", "NestingDepthError"] := by
  cases cause <;> simp_all [className, IsOrdinary]

/-- A program that parses is evaluated to a value, or to a fault of one of five classes.  The fault
has a place unless the nesting was too deep, and a mismatch is one of numbers and texts.  After each
statement every name is bound to a finite number or a text. -/
theorem evaluate_of_parse {engine : Engine} {source : String} {tree : Node} {env : Environment}
    (hparse : parse engine source = .ok tree) (henv : env.Plain) :
    (∀ fault, (evaluate tree env).result = .error fault →
      fault.cause.className ∈ ["UndefinedVariableError", "DivisionByZeroError",
        "TypeMismatchError", "NumericRangeError", "NestingDepthError"] ∧
      (fault.cause.className ≠ "NestingDepthError" →
        ∃ line column, fault.position = some ⟨line, some column⟩) ∧
      ∀ operator kinds, fault.cause = .kindMismatch operator kinds →
        ∀ kind ∈ kinds, kind.name = "number" ∨ kind.name = "text") ∧
    ∃ statements position, tree = .rule Rule.program.label statements position ∧
      ∀ count, (evaluate (.rule Rule.program.label (statements.take count) position)
        env).env.Plain := by
  obtain ⟨hstatements⟩ := isProgram_of_parse hparse
  rename_i statements position
  constructor
  · intro fault hfault
    have hholds := (Node.holds_program hstatements position (some nestingLimit) henv).2
    rw [evaluate] at hfault
    rw [hfault] at hholds
    refine ⟨Cause.className_of_isOrdinary hholds.1.1, fun hclass => ?_, ?_⟩
    · obtain ⟨mark, hmark⟩ := hholds.2 fun hdeep => hclass (by rw [hdeep]; rfl)
      exact ⟨_, _, hmark⟩
    · intro operator kinds hcause kind hkind
      have hkinds := hholds.1.1
      rw [hcause] at hkinds
      obtain rfl | rfl := hkinds kind hkind
      · exact .inl rfl
      · exact .inr rfl
  · refine ⟨statements, position, rfl, fun count => ?_⟩
    exact (Node.holds_program (fun statement hs => hstatements statement (List.mem_of_mem_take hs))
      position (some nestingLimit) henv).1

/-- Two texts, multiplied. -/
def textProduct : Node :=
  .rule Rule.program.label
    [.rule Rule.print.label
      [.rule Rule.mul.label
        [.token Terminal.string.label "\"a\"" (some ⟨1, some 7⟩),
          .token Terminal.star.label "*" (some ⟨1, some 10⟩),
          .token Terminal.string.label "\"b\"" (some ⟨1, some 11⟩)] (some ⟨1, some 7⟩)]
      (some ⟨1, some 1⟩)] (some ⟨1, some 1⟩)

theorem evaluate_textProduct :
    parse .earley "print \"a\"*\"b\"" = .ok textProduct ∧ Environment.Plain {} ∧
      ∃ fault, (evaluate textProduct {}).result = .error fault ∧
        (∃ line column, fault.position = some ⟨line, some column⟩) ∧
        ∀ operator kinds, fault.cause = .kindMismatch operator kinds →
          ∀ kind ∈ kinds, kind.name = "number" ∨ kind.name = "text" := by
  have hparse : parse .earley "print \"a\"*\"b\"" = .ok textProduct := by cbv
  have henv : Environment.Plain {} := by
    intro name value h
    cases h
  have hfault : (evaluate textProduct {}).result =
      .error ⟨.kindMismatch "*" [.text, .text], some ⟨1, some 7⟩⟩ := by cbv
  obtain ⟨-, hplace, hkinds⟩ := (evaluate_of_parse hparse henv).1 _ hfault
  exact ⟨hparse, henv, _, hfault, hplace (by decide), hkinds⟩

end Reckon
