import Reckon.Proofs.Displacement
import Reckon.Proofs.Sequence

/-!
# Joining programs

Programs joined by newlines are a program.  No piece but a separator runs over the end of a line, so
that each text is cut into the same pieces as it is alone, and its tokens stand further down
(`Lexed.newline`, `Lexed.behind`).  The joined program has the statements of all programs, and it is
evaluated like the programs one after another in one environment (`evaluate_joined`).
-/

open Computability

namespace Reckon

open Lexeme Lexicon

/-! ## Pieces at the end of a line -/

theorem Lexicon.newline_not_mem_stringUnits {body : List Char} (h : body ∈ stringUnit∗) :
    '\n' ∉ body := by
  intro hn
  obtain ⟨units, rfl, hunits⟩ := Language.mem_kstar.1 h
  obtain ⟨unit, hunit, hn⟩ := List.mem_flatten.1 hn
  obtain ⟨c, hc, rfl⟩ | hescape := hunits unit hunit
  · rw [List.mem_singleton] at hn
    subst hn
    cases hc
  · obtain ⟨_, ⟨c, hc, rfl⟩, rfl⟩ := mem_word_mul.1 hescape
    have hnewline : '\n' = c := by simpa using hn
    simp [← hnewline] at hc

theorem Lexicon.not_mem_of_class {p q : Char → Bool} {cs : List Char} {c : Char}
    (h : cs ∈ oneOf p * (oneOf q)∗) (hp : p c = false) (hq : q c = false) : c ∉ cs := by
  obtain ⟨d, rest, hd, hrest, rfl⟩ := mem_oneOf_mul_star.1 h
  intro hc
  obtain rfl | hc := List.mem_cons.1 hc
  · rw [hp] at hd
    cases hd
  · have hclass := hrest _ hc
    rw [hq] at hclass
    cases hclass

/-- Only a separator runs over the end of a line. -/
theorem Lexeme.eq_lineEnd_of_mem {kind : Option Terminal} {piece : List Char}
    (h : piece ∈ language kind) (hn : '\n' ∈ piece) : piece = ['\n'] ∨ piece = ['\r', '\n'] := by
  cases kind with
  | none =>
    obtain h | h := h
    · exact absurd hn (not_mem_of_class h rfl rfl)
    · obtain ⟨rest, hrest, rfl⟩ := mem_word_mul.1 h
      rw [mem_oneOf_star] at hrest
      have hnewline : '\n' ∈ rest := by simpa using hn
      exact absurd (hrest _ hnewline) (by decide)
  | some kind =>
    cases kind with
    | number => exact absurd (mem_numerals h _ hn) (by decide)
    | name => exact absurd hn (not_mem_of_class h rfl rfl)
    | string =>
      obtain ⟨_, ⟨body, hbody, quote, hquote, rfl⟩, rfl⟩ := mem_word_mul.1 h
      obtain rfl : quote = ['"'] := hquote
      have hnewline : '\n' ∈ body := by simpa using hn
      exact absurd hnewline (newline_not_mem_stringUnits hbody)
    | comparison =>
      obtain rfl | rfl | rfl | rfl | rfl | rfl := Terminal.mem_comparison.1 h <;> simp at hn
    | separator =>
      obtain rfl | rfl | rfl := Terminal.mem_separator.1 h
      · simp at hn
      · exact .inl rfl
      · exact .inr rfl
    | _ =>
      have hword : piece = String.toList _ := h
      rw [hword] at hn
      exact absurd hn (by decide)

/-- A piece does not grow when a line follows its own. -/
theorem Lexeme.NoLonger.before_newline {kind : Option Terminal} {piece rest : List Char}
    (hpiece : piece ∈ language kind) (h : NoLonger piece.length (piece ++ rest))
    (more : List Char) : NoLonger piece.length (piece ++ (rest ++ '\n' :: more)) := by
  intro other longer hlonger hfront
  have hnone (text : List Char) (htext : first? text = none) : piece ++ rest ≠ text := by
    rintro rfl
    exact first?_eq_none_iff.1 htext kind piece hpiece (List.prefix_append _ _)
  have hlonger' := h other longer hlonger
  rw [← List.append_assoc] at hfront
  generalize piece ++ rest = line at hfront hnone hlonger'
  by_cases hlength : longer.length ≤ line.length
  · exact hlonger' (List.prefix_of_prefix_length_le hfront (List.prefix_append _ _) hlength)
  · -- A piece that goes beyond the line is a separator, and no piece starts its line.
    have hstart : line ++ ['\n'] <+: line ++ '\n' :: more := by simp
    have hover : line ++ ['\n'] <+: longer :=
      List.prefix_of_prefix_length_le hstart hfront (by simp; omega)
    obtain rfl | rfl := eq_lineEnd_of_mem hlonger (hover.subset (by simp))
    · have hline : line = [] := by simpa using hlength
      exact absurd hline (hnone [] rfl)
    · have hline : line = ['\r'] := by
        match line with
        | [] => simp at hover
        | [c] => simpa using hover
        | _ :: _ :: _ => simp at hlength
      exact absurd hline (hnone ['\r'] rfl)

theorem Engine.expectsKeyword_append {engine : Engine} {base tokens : List Token} {lines : Nat}
    (hbase : ∃ last ∈ base.getLast?, last.kind = .separator) :
    engine.ExpectsKeyword (base ++ tokens.map (Token.down lines)) ↔
      engine.ExpectsKeyword tokens := by
  obtain rfl | ⟨earlier, last, rfl⟩ := tokens.eq_nil_or_concat'
  · rw [List.map_nil, List.append_nil]
    exact iff_of_true (.inr (.inr hbase)) (.inr (.inl rfl))
  · rw [List.map_append, ← List.append_assoc]
    simp [ExpectsKeyword, Token.down]

namespace Lexed

variable {engine : Engine} {source rest : List Char} {tokens base : List Token} {mark : Mark}

theorem before_newline (h : Lexed engine source tokens mark rest) (more : List Char) :
    Lexed engine (source ++ '\n' :: more) tokens mark (rest ++ '\n' :: more) := by
  induction h with
  | start => exact .start
  | skip _ hpiece hlongest ih =>
    rw [List.append_assoc] at ih
    exact ih.skip hpiece (hlongest.before_newline hpiece more)
  | @token _ _ _ _ kind _ hpiece hlongest hprint ih =>
    rw [List.append_assoc] at ih
    have hlexeme : _ ∈ language (some kind) := hpiece
    exact ih.token hpiece (hlongest.before_newline hlexeme more) hprint

theorem exists_front (h : Lexed engine source tokens mark rest) :
    ∃ front, source = front ++ rest ∧ mark = ({} : Mark).after front := by
  induction h with
  | start => exact ⟨[], rfl, rfl⟩
  | @skip _ _ piece _ _ _ _ ih | @token _ _ piece _ _ _ _ _ _ ih =>
    obtain ⟨front, hfront, rfl⟩ := ih
    refine ⟨front ++ piece, ?_, (Mark.after_append ..).symm⟩
    rw [hfront, List.append_assoc]

/-- The end of a line is a separator, with or without a return. -/
theorem lineEnd {piece : List Char} (h : Lexed engine source tokens mark (piece ++ rest))
    (hpiece : piece = ['\n'] ∨ piece = ['\r', '\n']) :
    Lexed engine source (tokens ++ [⟨.separator, .ofList piece, mark⟩])
      ⟨mark.line + 1, 1⟩ rest := by
  have hlexeme : piece ∈ Terminal.separator.language := Terminal.mem_separator.2 (.inr hpiece)
  have hfirst : first? (piece ++ rest) = some (some .separator, piece.length) := by
    obtain rfl | rfl := hpiece <;> rfl
  have hmark : mark.after piece = ⟨mark.line + 1, 1⟩ := by
    obtain rfl | rfl := hpiece <;> rfl
  have hprint : piece ≠ "print".toList := by
    obtain rfl | rfl := hpiece <;> decide
  rw [← hmark]
  exact h.token hlexeme (first?_eq_some_iff.1 hfirst).2.2.2
    (iff_of_false (by decide) fun hword => hprint hword.1)

/-- A newline behind a text is a separator, and the next line starts behind it. -/
theorem newline (h : Lexed engine source tokens mark []) (more : List Char) :
    Lexed engine (source ++ '\n' :: more) (tokens ++ [⟨.separator, "\n", mark⟩])
      (({} : Mark).down (source.count '\n' + 1)) more := by
  obtain ⟨front, hfront, hmark⟩ := h.exists_front
  rw [List.append_nil] at hfront
  have hline : Lexed engine (source ++ '\n' :: more) tokens mark (['\n'] ++ more) :=
    h.before_newline more
  have hlexed := hline.lineEnd (.inl rfl)
  have hnext : mark.after ['\n'] = ({} : Mark).down (source.count '\n' + 1) := by
    rw [hmark, hfront, ← Mark.after_append, Mark.after_newline]
    simp [Mark.down, Nat.add_assoc]
  rwa [← hnext]

/-- Behind a separator that ends a line, a text has the tokens that it has alone, further down. -/
theorem behind {text : List Char} {lines : Nat}
    (hbase : Lexed engine source base (({} : Mark).down lines) text)
    (hlast : ∃ last ∈ base.getLast?, last.kind = .separator)
    (h : Lexed engine text tokens mark rest) :
    Lexed engine source (base ++ tokens.map (Token.down lines)) (mark.down lines) rest := by
  induction h with
  | start => simpa using hbase
  | skip _ hpiece hlongest ih =>
    rw [← Mark.after_down]
    exact ih.skip hpiece hlongest
  | token _ hpiece hlongest hprint ih =>
    rw [← Mark.after_down, List.map_append, ← List.append_assoc]
    refine ih.token hpiece hlongest ?_
    rw [hprint, Engine.expectsKeyword_append hlast]

end Lexed

/-! ## Derivations -/

namespace Derivation

/-- Statements that end in separators, followed by others. -/
def appendLines (first : Derivation Pattern.lines) (second : Derivation Pattern.lines) :
    Derivation Pattern.lines :=
  match first with
  | .stop => second
  | .more line rest => .more line (appendLines rest second)

theorem tokens_appendLines (second : Derivation Pattern.lines) :
    (first : Derivation Pattern.lines) →
      (first.appendLines second).tokens = first.tokens ++ second.tokens
  | .stop => by simp [appendLines, tokens]
  | .more line rest => by simp [appendLines, tokens, tokens_appendLines second rest]

theorem part_appendLines (second : Derivation Pattern.lines) :
    (first : Derivation Pattern.lines) →
      (first.appendLines second).part = first.part ++ second.part
  | .stop => by simp [appendLines, part, Part.ext_iff]
  | .more line rest => by
    simp [appendLines, part, part_appendLines second rest, Part.ext_iff, Option.or_assoc]

theorem nodes_program (lines : Derivation Pattern.lines)
    (last : Derivation (.optional (.rule .stmt))) :
    ∃ position, (program lines last).part.nodes =
      [.rule Rule.program.label (lines.part.nodes ++ last.part.nodes) position] :=
  ⟨_, rfl⟩

/-- A program, a separator and another program are a program. -/
theorem exists_append (d e : Derivation (.rule .program)) {a b : Node} (hd : d.part.nodes = [a])
    (he : e.part.nodes = [b]) (separator : Token) (hk : separator.kind = .separator) :
    ∃ (f : Derivation (.rule .program)) (position : Option Position),
      f.tokens = d.tokens ++ separator :: e.tokens ∧
        f.part.nodes = [.rule Rule.program.label (a.children ++ b.children) position] := by
  obtain ⟨lines, last, rfl⟩ := program_cases d
  obtain ⟨lines', last', rfl⟩ := program_cases e
  obtain ⟨_, ha⟩ := nodes_program lines last
  obtain ⟨_, hb⟩ := nodes_program lines' last'
  rw [ha] at hd
  rw [hb] at he
  cases hd
  cases he
  obtain ⟨position, hnodes⟩ :=
    nodes_program ((lines.snoc last separator hk).appendLines lines') last'
  refine ⟨program ((lines.snoc last separator hk).appendLines lines') last', position, ?_, ?_⟩
  · simp [tokens_appendLines, tokens_snoc]
  · rw [hnodes, part_appendLines, part_snoc]
    simp [Part.ofToken, hk, Terminal.isKept, Node.children]

end Derivation

/-! ## Joined texts -/

/-- The number of newlines in a text. -/
def newlines (text : String) : Nat := text.toList.count '\n'

/-- The second of two programs moves down by the lines of the first. -/
theorem parse_newline {engine : Engine} {first second : String} {a b : Node}
    (ha : parse engine first = .ok a) (hb : parse engine second = .ok b) :
    ∃ position, parse engine (first ++ "\n" ++ second) =
      .ok (.rule Rule.program.label
        (a.children ++ b.children.map (Node.down (newlines first + 1))) position) := by
  obtain ⟨tokens, mark, hfirst, d, rfl, hd⟩ := parse_eq_ok_iff.1 ha
  obtain ⟨more, reached, hsecond, e, rfl, he⟩ := parse_eq_ok_iff.1 hb
  let separator : Token := ⟨.separator, "\n", mark⟩
  have hlast : ∃ last ∈ (d.tokens ++ [separator]).getLast?, last.kind = .separator :=
    ⟨separator, List.getLast?_concat, rfl⟩
  have hlexed := (hfirst.newline second.toList).behind hlast hsecond
  have hmoved : (e.down (newlines first + 1)).part.nodes = [b.down (newlines first + 1)] := by
    rw [e.part_down, Part.down, he, List.map_singleton]
  obtain ⟨f, position, htokens, hnodes⟩ :=
    d.exists_append (e.down (newlines first + 1)) hd hmoved separator rfl
  rw [Node.children_down] at hnodes
  refine ⟨position, parse_eq_ok_iff.2
    ⟨_, reached.down (newlines first + 1), ?_, f, htokens, hnodes⟩⟩
  have htext : (first ++ "\n" ++ second).toList = first.toList ++ '\n' :: second.toList := by simp
  rw [htext, e.tokens_down, List.append_cons d.tokens separator]
  exact hlexed

/-- The text in front of one of some sources that are joined by newlines. -/
def textBefore (sources : List String) (index : Nat) : String :=
  String.join ((sources.take index).map (· ++ "\n"))

/-- The number of lines in front of one of some sources that are joined by newlines. -/
def linesBefore (sources : List String) (index : Nat) : Nat := newlines (textBefore sources index)

theorem newlines_append (a b : String) : newlines (a ++ b) = newlines a + newlines b := by
  rw [newlines, String.toList_append, List.count_append]
  rfl

theorem textBefore_succ (source : String) (sources : List String) (index : Nat) :
    textBefore (source :: sources) (index + 1) = source ++ "\n" ++ textBefore sources index := by
  rw [textBefore, List.take_succ_cons, List.map_cons, String.join_cons]
  rfl

theorem intercalate_eq_textBefore {sources : List String} {index : Nat}
    (h : index < sources.length) :
    "\n".intercalate sources =
      textBefore sources index ++ "\n".intercalate (sources.drop index) := by
  induction index generalizing sources with
  | zero => exact String.empty_append.symm
  | succ index ih =>
    obtain ⟨source, rest, rfl⟩ := List.exists_cons_of_length_pos (Nat.zero_lt_of_lt h)
    have hindex : index < rest.length := Nat.lt_of_succ_lt_succ h
    have hrest : rest ≠ [] := List.ne_nil_of_length_pos (Nat.zero_lt_of_lt hindex)
    rw [String.intercalate_cons_of_ne_nil hrest, ih hindex, textBefore_succ, List.drop_succ_cons]
    exact String.append_assoc.symm

theorem linesBefore_succ (source : String) (sources : List String) (index : Nat) :
    linesBefore (source :: sources) (index + 1) =
      linesBefore sources index + (newlines source + 1) := by
  have hline : newlines "\n" = 1 := rfl
  rw [linesBefore, textBefore_succ, newlines_append, newlines_append, hline, linesBefore]
  exact Nat.add_comm _ _

/-- Programs with the number of lines in front of each. -/
def placed (sources : List String) (trees : List Node) : List (Node × Nat) :=
  trees.mapIdx fun index tree => (tree, linesBefore sources index)

theorem placed_cons (source : String) (sources : List String) (tree : Node) (trees : List Node) :
    placed (source :: sources) (tree :: trees) =
      (tree, 0) :: (placed sources trees).map fun piece =>
        (piece.1, piece.2 + (newlines source + 1)) := by
  have hzero : linesBefore (source :: sources) 0 = 0 := rfl
  rw [placed, List.mapIdx_cons, hzero]
  simp only [placed, linesBefore_succ, List.mapIdx_eq_zipIdx_map, List.map_map, Function.comp_def]

/-- The statements of some programs, each moved down by the lines in front of its program. -/
def statementsOf (pieces : List (Node × Nat)) : List Node :=
  pieces.flatMap fun piece => piece.1.children.map (Node.down piece.2)

theorem statementsOf_cons (tree : Node) (lines : Nat) (pieces : List (Node × Nat)) :
    statementsOf ((tree, 0) :: pieces.map fun piece => (piece.1, piece.2 + lines)) =
      tree.children ++ (statementsOf pieces).map (Node.down lines) := by
  have hzero : tree.children.map (Node.down 0) = tree.children := by
    rw [List.map_congr_left fun node _ => node.down_zero, List.map_id']
  have hdown (piece : Node × Nat) : (piece.1.children.map (Node.down piece.2)).map
      (Node.down lines) = piece.1.children.map (Node.down (piece.2 + lines)) := by
    rw [List.map_map]
    exact List.map_congr_left fun node _ => node.down_down piece.2 lines
  simp only [statementsOf, List.flatMap_cons, List.flatMap_map, List.map_flatMap, hzero, hdown]

/-- Programs joined by newlines are a program that has the statements of all of them. -/
theorem parse_joined {engine : Engine} {sources : List String} {trees : List Node}
    (h : List.Forall₂ (fun source tree => parse engine source = .ok tree) sources trees) :
    ∃ position, parse engine ("\n".intercalate sources) =
      .ok (.rule Rule.program.label (statementsOf (placed sources trees)) position) := by
  induction h with
  | nil => exact ⟨none, by cases engine <;> cbv⟩
  | @cons source tree sources trees hsource hrest ih =>
    obtain ⟨position, hjoined⟩ := ih
    rw [placed_cons, statementsOf_cons]
    cases hrest with
    | nil =>
      obtain ⟨-⟩ := isProgram_of_parse hsource
      rename_i statements position
      refine ⟨position, ?_⟩
      rw [String.intercalate_singleton, hsource]
      show _ = Except.ok (Node.rule Rule.program.label (statements ++ []) position)
      rw [List.append_nil]
    | cons hnext hrest =>
      rw [String.intercalate_cons_cons]
      exact parse_newline hsource hjoined

/-! ## Evaluation -/

theorem Outcome.map_down {α β : Type} (lines : Nat) (f : α → β) (outcome : Outcome α) :
    (outcome.map f).down lines = (outcome.down lines).map f :=
  outcome.andThen_down lines _

/-- A row of steps that each move down moves down. -/
theorem Outcome.inOrder_down {α β : Type} {step : α → Environment → Outcome β} {lines : Nat}
    {move : α → α} {xs : List α}
    (h : ∀ a ∈ xs, ∀ env, step (move a) env = (step a env).down lines) (env : Environment) :
    inOrder step (xs.map move) env = (inOrder step xs env).down lines := by
  induction xs generalizing env with
  | nil => rfl
  | cons a rest ih =>
    rw [List.forall_mem_cons] at h
    rw [List.map_cons, inOrder, inOrder, andThen_down, h.1]
    congr 1
    funext b env
    rw [ih h.2, map_down]

/-- A program moved down is the row of its statements moved down. -/
theorem Node.IsProgram.evaluate_down {tree : Node} {texts : Terminal → String → Prop}
    (h : tree.IsProgram texts IsMarked) (lines : Nat) (env : Environment) :
    (evaluate tree env).down lines =
      (Outcome.inOrder evaluateStatement (tree.children.map (Node.down lines)) env).map
        fun values => values.getLast?.getD .nil := by
  have hmoves : ∀ statement ∈ tree.children, ∀ env,
      evaluateStatement (statement.down lines) env =
        (evaluateStatement statement env).down lines :=
    fun statement hs => (h.isStatement_of_mem statement hs).moves _
  rw [h.evaluate_eq, Outcome.map_down, ← Outcome.inOrder_down hmoves]

/-- Among the values of some programs, that of the last program that has a statement. -/
def lastValue (trees : List Node) (values : List Value) : Value :=
  (((trees.zip values).filter fun program => !program.1.children.isEmpty).getLast?.map
    Prod.snd).getD .nil

/-- The last of all values is the last value of the last program that has one. -/
theorem getLast?_flatten {trees : List Node} {rows : List (List Value)}
    (h : List.Forall₂ (fun tree values => values.length = tree.children.length) trees rows) :
    rows.flatten.getLast?.getD .nil =
      lastValue trees (rows.map fun values => values.getLast?.getD .nil) := by
  suffices hlast : rows.flatten.getLast? = ((trees.zip (rows.map fun values =>
      values.getLast?.getD .nil)).filter fun program => !program.1.children.isEmpty).getLast?.map
        Prod.snd by
    rw [hlast, lastValue]
  induction h with
  | nil => rfl
  | @cons tree values trees rows hlength _ ih =>
    rw [List.flatten_cons, List.getLast?_append, ih, List.map_cons, List.zip_cons_cons]
    cases values using List.reverseRecOn with
    | nil =>
      have hempty : tree.children = [] := List.eq_nil_of_length_eq_zero hlength.symm
      rw [List.filter_cons_of_neg (by simp [hempty]), List.getLast?_nil, Option.or_none]
    | append_singleton values value =>
      have hfull : tree.children.isEmpty = false := by
        cases hchildren : tree.children with
        | nil => simp [hchildren] at hlength
        | cons => rfl
      rw [List.filter_cons_of_pos (by simp [hfull]), List.getLast?_cons, List.getLast?_concat]
      cases List.getLast? _ <;> rfl

theorem map_fst_placed (sources : List String) (trees : List Node) :
    (placed sources trees).map Prod.fst = trees := by
  simp [placed, List.mapIdx_eq_zipIdx_map, Function.comp_def]

theorem isProgram_of_mem_placed {engine : Engine} {sources : List String} {trees : List Node}
    (h : List.Forall₂ (fun source tree => parse engine source = .ok tree) sources trees) :
    ∀ piece ∈ placed sources trees, piece.1.IsProgram Terminal.Lexes IsMarked := by
  have htrees : ∀ tree ∈ trees, tree.IsProgram Terminal.Lexes IsMarked := by
    induction h with
    | nil => simp
    | cons hsource _ ih => exact List.forall_mem_cons.2 ⟨isProgram_of_parse hsource, ih⟩
  intro piece hpiece
  apply htrees
  rw [← map_fst_placed sources trees]
  exact List.mem_map_of_mem hpiece

/-- Sources that parse can be joined by newlines.  The joined text parses, and its program has the
statements of all sources, moved down by the newlines in the text in front of each.  It is evaluated
like the sources one after another in one environment, up to the first that fails, with the fault
moved down likewise; its value is that of the last source that has a statement. -/
theorem evaluate_joined {engine : Engine} {sources : List String} {trees : List Node}
    (h : List.Forall₂ (fun source tree => parse engine source = .ok tree) sources trees) :
    (∀ index < sources.length, "\n".intercalate sources =
      textBefore sources index ++ "\n".intercalate (sources.drop index)) ∧
    ∃ position,
      let joined : Node :=
        .rule Rule.program.label (statementsOf (placed sources trees)) position
      parse engine ("\n".intercalate sources) = .ok joined ∧
        ∀ env, evaluate joined env =
          (Outcome.inOrder (fun piece env => (evaluate piece.1 env).down piece.2)
            (placed sources trees) env).map (lastValue trees) := by
  obtain ⟨position, hjoined⟩ := parse_joined h
  refine ⟨fun _ => intercalate_eq_textBefore, position, hjoined, fun env => ?_⟩
  have hprograms := isProgram_of_mem_placed h
  let row (piece : Node × Nat) (env : Environment) : Outcome (List Value) :=
    Outcome.inOrder evaluateStatement (piece.1.children.map (Node.down piece.2)) env
  have hrow : ∀ piece ∈ placed sources trees, ∀ env, (evaluate piece.1 env).down piece.2 =
      (row piece env).map fun values => values.getLast?.getD .nil :=
    fun piece hpiece env => (hprograms piece hpiece).evaluate_down piece.2 env
  rw [(isProgram_of_parse hjoined).evaluate_eq, Outcome.inOrder_congr hrow, Outcome.inOrder_map]
  show (Outcome.inOrder evaluateStatement (statementsOf (placed sources trees)) env).map _ = _
  rw [statementsOf, Outcome.inOrder_flatMap, Outcome.map_map, Outcome.map_map]
  apply Outcome.map_congr
  intro rows after hrows
  have hlengths : List.Forall₂ (fun (piece : Node × Nat) values =>
      values.length = piece.1.children.length) (placed sources trees) rows := by
    refine (Outcome.forall₂_of_inOrder hrows).imp ?_
    rintro piece values ⟨_, _, hvalues⟩
    rw [← (Outcome.forall₂_of_inOrder hvalues).length_eq, List.length_map]
  apply getLast?_flatten
  rw [← map_fst_placed sources trees, List.forall₂_map_left_iff]
  exact hlengths

/-- A binding with a comment that ends in a return, an empty text, and a product of texts. -/
def seamSources : List String := ["a = \"x\" # text\r", "", "print a * a"]

/-- The programs of these texts. -/
def seamTrees : List Node :=
  [.rule Rule.program.label
      [.rule Rule.assign.label
        [.token Terminal.name.label "a" (some ⟨1, some 1⟩),
          .token Terminal.string.label "\"x\"" (some ⟨1, some 5⟩)] (some ⟨1, some 1⟩)]
      (some ⟨1, some 1⟩),
    .rule Rule.program.label [] none,
    .rule Rule.program.label
      [.rule Rule.print.label
        [.rule Rule.mul.label
          [.token Terminal.name.label "a" (some ⟨1, some 7⟩),
            .token Terminal.star.label "*" (some ⟨1, some 9⟩),
            .token Terminal.name.label "a" (some ⟨1, some 11⟩)] (some ⟨1, some 7⟩)]
        (some ⟨1, some 1⟩)] (some ⟨1, some 1⟩)]

theorem evaluate_seamSources :
    List.Forall₂ (fun source tree => parse .lalr source = .ok tree) seamSources seamTrees ∧
      ∃ position,
        let joined : Node :=
          .rule Rule.program.label (statementsOf (placed seamSources seamTrees)) position
        parse .lalr "a = \"x\" # text\r\n\nprint a * a" = .ok joined ∧
          (evaluate joined {}).result =
            .error ⟨.kindMismatch "*" [.text, .text], some ⟨3, some 7⟩⟩ := by
  have hsources :
      List.Forall₂ (fun source tree => parse .lalr source = .ok tree) seamSources seamTrees :=
    .cons (by cbv) (.cons (by cbv) (.cons (by cbv) .nil))
  obtain ⟨-, position, hparse, heval⟩ := evaluate_joined hsources
  refine ⟨hsources, position, hparse, ?_⟩
  rw [heval]
  cbv

end Reckon
