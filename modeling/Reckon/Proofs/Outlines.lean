import Reckon.Command.Report
import Reckon.Proofs.Joining
import Reckon.Proofs.Spelling

/-!
# Outlines of parsed trees

The lines of an outline are those of the nodes in reading order (`Outline.lines_eq`).  With an
indent of spaces each line tells the depth and the label of its node again
(`Outline.readLine_line`), and the depths and the labels tell the tree
(`Outline.readsBack_of_legible`): a name may read like a rule, but only rules have deeper lines
behind them, and the text of a token tells its terminal.
So an outline loses nothing of a parsed tree but the positions (`outline_eq_iff`).
-/

namespace Reckon

open Lexeme Lexicon

namespace Node

theorem preorder_eq (depth : Int) (node : Node) :
    node.preorder depth = (depth, node) :: preorders (depth + 1) node.children := by
  cases node <;> simp [preorder, children, preorders]

theorem preorders_eq_flatMap (depth : Int) (nodes : List Node) :
    preorders depth nodes =
      (nodes.map fun node => (depth, node)).flatMap fun entry => entry.2.preorder entry.1 := by
  induction nodes with
  | nil => rfl
  | cons node rest ih => rw [preorders, ih, List.map_cons, List.flatMap_cons]

end Node

namespace Outline

variable (outline : Outline)

/-- The lines of some nodes at their depths. -/
def linesOf (entries : List (Int × Node)) : Except Fault (List String) :=
  entries.mapM fun entry => outline.line entry.1 entry.2

theorem linesOf_nil : outline.linesOf [] = .ok [] := rfl

theorem linesOf_cons (entry : Int × Node) (entries : List (Int × Node)) :
    outline.linesOf (entry :: entries) = (do
      let line ← outline.line entry.1 entry.2
      let lines ← outline.linesOf entries
      return line :: lines) := List.mapM_cons

/-- The lines of the trees that wait come behind those that are done. -/
theorem list_eq (done : List String) (waiting : List (Int × Node)) :
    outline.list done waiting =
      (outline.linesOf (waiting.flatMap fun entry => entry.2.preorder entry.1)).map
        (done.reverse ++ ·) := by
  fun_induction list outline done waiting with
  | case1 done => simp [linesOf_nil, Except.map]
  | case2 done depth node waiting fault hline =>
    rw [List.flatMap_cons, Node.preorder_eq, List.cons_append, linesOf_cons, hline]
    rfl
  | case3 done depth node waiting line hline ih =>
    rw [ih, List.flatMap_cons, Node.preorder_eq, List.cons_append, linesOf_cons, hline,
      List.flatMap_append, ← Node.preorders_eq_flatMap]
    cases outline.linesOf (Node.preorders (depth + 1) node.children ++
        waiting.flatMap fun entry => entry.2.preorder entry.1) with
    | error fault => rfl
    | ok lines => simp [Except.map, bind, Except.bind, pure, Except.pure]

theorem lines_eq (depth : Int) (tree : Node) :
    outline.lines depth tree = outline.linesOf (tree.preorder depth) := by
  rw [lines, list_eq, List.flatMap_singleton]
  cases outline.linesOf (tree.preorder depth) <;> rfl

/-! ## One line -/

/-- What the line of a node shows behind its margin. -/
def shown : Node → String
  | .rule label _ _ => label
  | .token kind text _ => (if outline.showTerminals then lowercase kind ++ "  " else "") ++ text
  | .foreign _ => ""

variable {outline}

theorem exists_margin {depth : Int} {node : Node} {line : String}
    (h : outline.line depth node = .ok line) :
    ∃ margin, outline.margin depth = .ok margin ∧ line = margin ++ outline.shown node := by
  rw [Outline.line] at h
  cases hmargin : outline.margin depth with
  | error fault =>
    rw [hmargin] at h
    cases h
  | ok margin =>
    rw [hmargin] at h
    cases node with
    | foreign value => cases h
    | rule | token =>
      cases h
      exact ⟨margin, rfl, rfl⟩

/-- An indent of spaces makes margins of spaces. -/
theorem toList_margin {n : Nat} (hindent : outline.indent.get = repeated " " n) {depth : Nat}
    {margin : String} (h : outline.margin depth = .ok margin) :
    margin.toList = List.replicate (depth * n) ' ' := by
  have hspaces : outline.indent.get.toList = List.replicate n ' ' := by
    rw [hindent, toList_repeated]
    exact List.flatten_replicate_singleton
  rw [Outline.margin, repeat?] at h
  split at h
  · cases h
  split at h
  · cases h
    have hdepth : depth = 0 := by omega
    simp [hdepth]
  split at h
  · cases h
    have hdepth : depth = 1 := by omega
    rw [hspaces, hdepth, Nat.one_mul]
  split at h
  · cases h
  split at h
  · cases h
  · cases h
    show (repeated outline.indent.get (depth : Int).toNat).toList = _
    rw [toList_repeated, hspaces, List.flatten_replicate_replicate, Int.toNat_natCast]

/-- The depth and the label that a line shows, when every depth is indented by `n` spaces. -/
def readLine (n : Nat) (line : String) : Int × String :=
  ((line.toList.takeWhile (· == ' ')).length / n, String.ofList (line.toList.dropWhile (· == ' ')))

/-- A text that can be told from a margin and ends before its line does. -/
structure Clear (text : String) : Prop where
  start : ∃ c cs, text.toList = c :: cs ∧ c ≠ ' '
  oneLine : '\n' ∉ text.toList

theorem readLine_line {n : Nat} (hn : 1 ≤ n) (hindent : outline.indent.get = repeated " " n)
    {depth : Int} (hdepth : 0 ≤ depth) {node : Node} (hnode : Clear (outline.shown node))
    {line : String} (h : outline.line depth node = .ok line) :
    readLine n line = (depth, outline.shown node) := by
  obtain ⟨margin, hmargin, rfl⟩ := exists_margin h
  obtain ⟨depth, rfl⟩ := Int.eq_ofNat_of_zero_le hdepth
  obtain ⟨c, cs, hshown, hc⟩ := hnode.start
  have hspaces : ∀ d ∈ List.replicate (depth * n) ' ', (d == ' ') = true := by
    intro d hd
    rw [List.eq_of_mem_replicate hd]
    rfl
  have hstop : (c == ' ') = false := by simpa using hc
  rw [readLine, String.toList_append, toList_margin hindent hmargin, hshown,
    List.takeWhile_append_of_pos hspaces, List.dropWhile_append_of_pos hspaces,
    List.takeWhile_cons_of_neg (by simp [hstop]), List.dropWhile_cons_of_neg (by simp [hstop]),
    List.append_nil, List.length_replicate, ← hshown, String.ofList_toList]
  rw [Nat.cast_mul, Int.mul_ediv_cancel _ (by omega)]

theorem newline_notMem_line {n : Nat} (hindent : outline.indent.get = repeated " " n)
    {depth : Int} (hdepth : 0 ≤ depth) {node : Node} (hnode : Clear (outline.shown node))
    {line : String} (h : outline.line depth node = .ok line) : '\n' ∉ line.toList := by
  obtain ⟨margin, hmargin, rfl⟩ := exists_margin h
  obtain ⟨depth, rfl⟩ := Int.eq_ofNat_of_zero_le hdepth
  rw [String.toList_append, toList_margin hindent hmargin, List.mem_append]
  rintro (hn | hn)
  · cases List.eq_of_mem_replicate hn
  · exact hnode.oneLine hn

/-! ## All lines -/

/-- The depths and the labels of some nodes. -/
def entriesOf (outline : Outline) (nodes : List (Int × Node)) : List (Int × String) :=
  nodes.map fun entry => (entry.1, outline.shown entry.2)

theorem exists_of_linesOf_cons {entry : Int × Node} {nodes : List (Int × Node)}
    {lines : List String} (h : outline.linesOf (entry :: nodes) = .ok lines) :
    ∃ line rest, outline.line entry.1 entry.2 = .ok line ∧ outline.linesOf nodes = .ok rest ∧
      lines = line :: rest := by
  rw [linesOf_cons] at h
  cases hline : outline.line entry.1 entry.2 with
  | error fault =>
    rw [hline] at h
    cases h
  | ok line =>
    cases hrest : outline.linesOf nodes with
    | error fault =>
      rw [hline, hrest] at h
      cases h
    | ok rest =>
      rw [hline, hrest] at h
      cases h
      exact ⟨line, rest, rfl, rfl, rfl⟩

/-- Lines are of one piece, and they tell the depths and the labels of the nodes. -/
theorem map_readLine {n : Nat} (hn : 1 ≤ n) (hindent : outline.indent.get = repeated " " n)
    {nodes : List (Int × Node)} (hnodes : ∀ e ∈ nodes, 0 ≤ e.1 ∧ Clear (outline.shown e.2))
    {lines : List String} (h : outline.linesOf nodes = .ok lines) :
    lines.map (readLine n) = outline.entriesOf nodes ∧ ∀ line ∈ lines, '\n' ∉ line.toList := by
  induction nodes generalizing lines with
  | nil =>
    cases h
    exact ⟨rfl, by simp⟩
  | cons entry nodes ih =>
    rw [List.forall_mem_cons] at hnodes
    obtain ⟨⟨hdepth, hclear⟩, hnodes⟩ := hnodes
    obtain ⟨line, rest, hline, hrest, rfl⟩ := exists_of_linesOf_cons h
    obtain ⟨hread, hlines⟩ := ih hnodes hrest
    constructor
    · rw [List.map_cons, readLine_line hn hindent hdepth hclear hline, hread]
      rfl
    · rw [List.forall_mem_cons]
      exact ⟨newline_notMem_line hindent hdepth hclear hline, hlines⟩

end Outline

/-- Two texts that go on behind the same mark agree before it and behind it. -/
theorem eq_of_append_cons_eq {α : Type} {mark : α} {as bs cs ds : List α} (ha : mark ∉ as)
    (hb : mark ∉ bs) (h : as ++ mark :: cs = bs ++ mark :: ds) : as = bs ∧ cs = ds := by
  induction as generalizing bs with
  | nil =>
    cases bs with
    | nil => exact ⟨rfl, (List.cons.inj h).2⟩
    | cons b bs =>
      obtain ⟨rfl, -⟩ := List.cons.inj h
      exact absurd List.mem_cons_self hb
  | cons a as ih =>
    rw [List.mem_cons, not_or] at ha
    cases bs with
    | nil => exact absurd (List.cons.inj h).1.symm ha.1
    | cons b bs =>
      rw [List.mem_cons, not_or] at hb
      obtain ⟨rfl, htail⟩ := List.cons.inj h
      obtain ⟨rfl, hcs⟩ := ih ha.2 hb.2 htail
      exact ⟨rfl, hcs⟩

theorem Command.joinLines_cons (line : String) (lines : List String) :
    (Command.joinLines (line :: lines)).toList =
      line.toList ++ '\n' :: (Command.joinLines lines).toList := by
  simp [Command.joinLines, String.join_cons]

theorem Command.joinLines_inj {xs ys : List String} (hx : ∀ x ∈ xs, '\n' ∉ x.toList)
    (hy : ∀ y ∈ ys, '\n' ∉ y.toList) (h : Command.joinLines xs = Command.joinLines ys) :
    xs = ys := by
  induction xs generalizing ys with
  | nil =>
    cases ys with
    | nil => rfl
    | cons y ys =>
      have hlist := congrArg String.toList h
      rw [joinLines_cons] at hlist
      simp [joinLines] at hlist
  | cons x xs ih =>
    have hlist := congrArg String.toList h
    rw [joinLines_cons] at hlist
    cases ys with
    | nil => simp [joinLines] at hlist
    | cons y ys =>
      rw [joinLines_cons] at hlist
      rw [List.forall_mem_cons] at hx hy
      obtain ⟨hxy, hrest⟩ := eq_of_append_cons_eq hx.1 hy.1 hlist
      rw [String.toList_inj.1 hxy, ih hx.2 hy.2 (String.toList_inj.1 hrest)]

/-! ## Legible trees -/

/-- The text of a token tells its terminal. -/
theorem Terminal.Lexes.first?_eq {kind : Terminal} {text : String} (h : kind.Lexes text)
    (hprint : kind ≠ .print) :
    Lexeme.first? text.toList = some (some kind, text.toList.length) := by
  obtain ⟨found, n, hfirst, hle, hkind⟩ :=
    reaches_of_mem h (fun he => hprint (Option.some.inj he)) []
  rw [List.append_nil] at hfirst
  have hn : n = text.toList.length := Nat.le_antisymm (first?_eq_some_iff.1 hfirst).2.2.1 hle
  rw [hfirst, hkind hn, hn]

theorem Terminal.isKept_of_isOperand {kind : Terminal} (h : kind.isOperand) : kind.isKept := by
  cases kind <;> first | rfl | cases h

theorem Terminal.isKept_of_joins {r : Rule} {kind : Terminal} (h : r.joins kind) : kind.isKept := by
  cases kind <;> first | rfl | (cases r <;> cases h)

theorem Terminal.ne_print_of_isKept {kind : Terminal} (h : kind.isKept) : kind ≠ .print := by
  rintro rfl
  cases h

/-- The text of a token in a tree starts with no blank, and there is no newline in it. -/
theorem Terminal.Lexes.clear {kind : Terminal} {text : String} (h : kind.Lexes text)
    (hk : kind.isKept) : Outline.Clear text := by
  have hfirst := h.first?_eq (ne_print_of_isKept hk)
  constructor
  · cases hcs : text.toList with
    | nil =>
      rw [hcs] at hfirst
      cases hfirst
    | cons c cs =>
      refine ⟨c, cs, rfl, ?_⟩
      rintro rfl
      rw [hcs, first?, if_pos (show isSkipped ' ' = true from rfl)] at hfirst
      cases hfirst
  · intro hn
    obtain hline | hline := eq_lineEnd_of_mem (show _ ∈ Lexeme.language (some kind) from h) hn
    all_goals
      rw [hline] at hfirst
      cases hfirst
      cases hk

namespace Node

/-- A tree whose tokens can be told apart by their texts, and whose rules all have subtrees. -/
inductive Legible : Node → Prop
  | token {kind : Terminal} {text : String} {position : Option Position} (hk : kind.isKept)
      (ht : kind.Lexes text) : Legible (.token kind.label text position)
  | rule {r : Rule} {children : List Node} {position : Option Position} (hne : children ≠ [])
      (h : ∀ child ∈ children, Legible child) : Legible (.rule r.label children position)

variable {places : Option Position → Prop} {node : Node}

theorem IsExpr.legible (h : node.IsExpr Terminal.Lexes places) : node.Legible := by
  induction h with
  | token operand ht hp => exact .token (Terminal.isKept_of_isOperand operand) ht
  | binary joins hl ht ho hr hp ihl ihr =>
    refine .rule (List.cons_ne_nil _ _) ?_
    simp only [List.forall_mem_cons, List.not_mem_nil, false_implies, implies_true, and_true]
    exact ⟨ihl, .token (Terminal.isKept_of_joins joins) ht, ihr⟩
  | neg ht ho hx hp ih =>
    refine .rule (List.cons_ne_nil _ _) ?_
    simp only [List.forall_mem_cons, List.not_mem_nil, false_implies, implies_true, and_true]
    exact ⟨.token rfl ht, ih⟩

theorem IsValue.legible (h : node.IsValue Terminal.Lexes places) : node.Legible := by
  induction h with
  | expr h => exact h.legible
  | assign ht ho hv hp ih =>
    refine .rule (List.cons_ne_nil _ _) ?_
    simp only [List.forall_mem_cons, List.not_mem_nil, false_implies, implies_true, and_true]
    exact ⟨.token rfl ht, ih⟩

theorem IsStatement.legible (h : node.IsStatement Terminal.Lexes places) : node.Legible := by
  cases h with
  | value h => exact h.legible
  | print hx hp => exact .rule (List.cons_ne_nil _ _) (List.forall_mem_singleton.2 hx.legible)

/-- The tree of a source is a list of legible statements. -/
theorem exists_legible_of_parse {engine : Engine} {source : String} {tree : Node}
    (h : parse engine source = .ok tree) :
    ∃ statements position, tree = .rule Rule.program.label statements position ∧
      ∀ statement ∈ statements, statement.Legible := by
  obtain ⟨hstatements⟩ := isProgram_of_parse h
  exact ⟨_, _, rfl, fun statement hs => (hstatements statement hs).legible⟩

end Node

namespace Outline

open Node

variable {outline : Outline} {depth : Int} {a b : Node} {as bs : List Node}
  {rest rest' : List (Int × String)}

theorem clear_label (r : Rule) : Clear r.label := by
  cases r <;> exact ⟨⟨_, _, rfl, by decide⟩, by decide⟩

/-- The words for terminals have no blank in them. -/
theorem lowercase_label (kind : Terminal) :
    (lowercase kind.label).toList ≠ [] ∧ ' ' ∉ (lowercase kind.label).toList ∧
      '\n' ∉ (lowercase kind.label).toList := by
  cases kind <;> decide +kernel

theorem toList_shown_token (kind text : String) (position : Option Position)
    (h : outline.showTerminals = true) :
    (outline.shown (.token kind text position)).toList =
      (lowercase kind).toList ++ ' ' :: ' ' :: text.toList := by
  simp [shown, h]

theorem shown_token (kind text : String) (position : Option Position)
    (h : outline.showTerminals = false) : outline.shown (.token kind text position) = text := by
  simp [shown, h]

theorem clear_shown (h : a.Legible) : Clear (outline.shown a) := by
  cases h with
  | rule => exact clear_label _
  | @token kind text position hk ht =>
    cases hshow : outline.showTerminals with
    | false =>
      rw [shown_token _ _ _ hshow]
      exact ht.clear hk
    | true =>
      obtain ⟨hne, hblank, hline⟩ := lowercase_label kind
      obtain ⟨c, word, hword⟩ := List.exists_cons_of_ne_nil hne
      constructor
      · refine ⟨c, word ++ ' ' :: ' ' :: text.toList, ?_, ?_⟩
        · rw [toList_shown_token _ _ _ hshow, hword, List.cons_append]
        · rintro rfl
          exact hblank (hword ▸ List.mem_cons_self)
      · rw [toList_shown_token _ _ _ hshow]
        simp only [List.mem_append, List.mem_cons, not_or]
        exact ⟨hline, by decide, by decide, (ht.clear hk).oneLine⟩

/-- What is shown of a token tells its text, and the text tells its terminal. -/
theorem shown_token_inj {kind kind' : Terminal} {text text' : String}
    {position position' : Option Position} (hk : kind.isKept) (hk' : kind'.isKept)
    (ht : kind.Lexes text) (ht' : kind'.Lexes text')
    (h : outline.shown (.token kind.label text position) =
      outline.shown (.token kind'.label text' position')) : kind = kind' ∧ text = text' := by
  have htext : text = text' := by
    cases hshow : outline.showTerminals with
    | false => rwa [shown_token _ _ _ hshow, shown_token _ _ _ hshow] at h
    | true =>
      have hlist := congrArg String.toList h
      rw [toList_shown_token _ _ _ hshow, toList_shown_token _ _ _ hshow] at hlist
      obtain ⟨-, hrest⟩ :=
        eq_of_append_cons_eq (lowercase_label kind).2.1 (lowercase_label kind').2.1 hlist
      exact String.toList_inj.1 (List.cons.inj hrest).2
  subst htext
  have hfirst := ht.first?_eq (Terminal.ne_print_of_isKept hk)
  rw [ht'.first?_eq (Terminal.ne_print_of_isKept hk')] at hfirst
  simp only [Option.some.injEq, Prod.mk.injEq, and_true] at hfirst
  exact ⟨hfirst.symm, rfl⟩

/-! ## Reading a listing back -/

/-- A listing that does not go on at a depth. -/
def Above (depth : Int) (entries : List (Int × String)) : Prop :=
  ∀ entry ∈ entries.head?, entry.1 < depth

theorem entriesOf_preorder (outline : Outline) (depth : Int) (node : Node) :
    outline.entriesOf (node.preorder depth) =
      (depth, outline.shown node) :: outline.entriesOf (preorders (depth + 1) node.children) := by
  rw [preorder_eq]
  rfl

theorem entriesOf_preorders_cons (outline : Outline) (depth : Int) (node : Node)
    (nodes : List Node) :
    outline.entriesOf (preorders depth (node :: nodes)) =
      outline.entriesOf (node.preorder depth) ++ outline.entriesOf (preorders depth nodes) := by
  rw [preorders]
  exact List.map_append

theorem not_above_preorders (hne : as ≠ []) (rest : List (Int × String)) :
    ¬ Above depth (outline.entriesOf (preorders depth as) ++ rest) := by
  obtain ⟨a, as, rfl⟩ := List.exists_cons_of_ne_nil hne
  rw [entriesOf_preorders_cons, entriesOf_preorder]
  intro h
  exact absurd (h _ rfl) (Int.lt_irrefl depth)

theorem above_preorders (h : Above depth rest) :
    Above (depth + 1) (outline.entriesOf (preorders depth as) ++ rest) := by
  cases as with
  | nil =>
    intro entry hentry
    have hlt := h entry hentry
    omega
  | cons a as =>
    rw [entriesOf_preorders_cons, entriesOf_preorder]
    rintro entry ⟨⟩
    exact Int.lt_succ depth

/-- A tree that can be told from its listing, whatever follows that is not deeper. -/
def ReadsBack (outline : Outline) (depth : Int) (a : Node) : Prop :=
  ∀ {b : Node} {rest rest' : List (Int × String)}, b.Legible → Above (depth + 1) rest →
    Above (depth + 1) rest' →
    outline.entriesOf (a.preorder depth) ++ rest = outline.entriesOf (b.preorder depth) ++ rest' →
    a.unplaced = b.unplaced ∧ rest = rest'

theorem readsBack_all (has : ∀ a ∈ as, outline.ReadsBack depth a) (hbs : ∀ b ∈ bs, b.Legible)
    (hrest : Above depth rest) (hrest' : Above depth rest')
    (h : outline.entriesOf (preorders depth as) ++ rest =
      outline.entriesOf (preorders depth bs) ++ rest') :
    as.map unplaced = bs.map unplaced ∧ rest = rest' := by
  induction as generalizing bs with
  | nil =>
    cases bs with
    | nil => exact ⟨rfl, h⟩
    | cons b bs =>
      replace h : rest = _ := h
      rw [h] at hrest
      exact absurd hrest (not_above_preorders (List.cons_ne_nil b bs) rest')
  | cons a as ih =>
    cases bs with
    | nil =>
      replace h : _ = rest' := h
      rw [← h] at hrest'
      exact absurd hrest' (not_above_preorders (List.cons_ne_nil a as) rest)
    | cons b bs =>
      rw [List.forall_mem_cons] at has hbs
      rw [entriesOf_preorders_cons, entriesOf_preorders_cons, List.append_assoc,
        List.append_assoc] at h
      obtain ⟨hab, htail⟩ := has.1 hbs.1 (above_preorders hrest) (above_preorders hrest') h
      obtain ⟨hlists, hends⟩ := ih has.2 hbs.2 htail
      exact ⟨by rw [List.map_cons, List.map_cons, hab, hlists], hends⟩

theorem readsBack_of_legible (ha : a.Legible) : outline.ReadsBack depth a := by
  induction ha generalizing depth with
  | token hk ht =>
    intro b rest rest' hb hrest hrest' h
    rw [entriesOf_preorder, entriesOf_preorder] at h
    obtain ⟨hentry, htail⟩ := List.cons.inj h
    cases hb with
    | token hk' ht' =>
      obtain ⟨rfl, rfl⟩ := shown_token_inj hk hk' ht ht' (Prod.mk.inj hentry).2
      exact ⟨rfl, htail⟩
    | rule hne =>
      -- A rule may show the name of a variable, but below it there is a deeper line.
      replace htail : rest = _ := htail
      rw [htail] at hrest
      exact absurd hrest (not_above_preorders hne rest')
  | rule hne hchildren ih =>
    intro b rest rest' hb hrest hrest' h
    rw [entriesOf_preorder, entriesOf_preorder] at h
    obtain ⟨hentry, htail⟩ := List.cons.inj h
    cases hb with
    | token =>
      replace htail : _ = rest' := htail
      rw [← htail] at hrest'
      exact absurd hrest' (not_above_preorders hne rest)
    | @rule r children position hne' hchildren' =>
      obtain ⟨hlists, hends⟩ :=
        readsBack_all (fun child hc => ih child hc) hchildren' hrest hrest' htail
      refine ⟨?_, hends⟩
      rw [unplaced, unplaced, unplacedAll_eq_map, unplacedAll_eq_map, hlists]
      exact congrArg (Node.rule · _ none) (Prod.mk.inj hentry).2

theorem map_unplaced_eq (has : ∀ a ∈ as, a.Legible) (hbs : ∀ b ∈ bs, b.Legible)
    (h : outline.entriesOf (preorders depth as) = outline.entriesOf (preorders depth bs)) :
    as.map unplaced = bs.map unplaced := by
  have hend : Above depth [] := by rintro _ ⟨⟩
  exact (readsBack_all (fun a ha => readsBack_of_legible (has a ha)) hbs hend hend
    (congrArg (· ++ []) h)).1

/-! ## Whole trees -/

theorem mem_preorder_of_legible (ha : a.Legible) {entry : Int × Node}
    (he : entry ∈ a.preorder depth) : depth ≤ entry.1 ∧ entry.2.Legible := by
  induction ha generalizing depth with
  | token hk ht =>
    rw [preorder, List.mem_singleton] at he
    rw [he]
    exact ⟨le_rfl, .token hk ht⟩
  | rule hne hchildren ih =>
    rw [preorder, preorders_eq_flatMap, List.flatMap_map, List.mem_cons, List.mem_flatMap] at he
    obtain rfl | ⟨child, hc, he⟩ := he
    · exact ⟨le_rfl, .rule hne hchildren⟩
    · obtain ⟨hdepth, hlegible⟩ := ih child hc he
      exact ⟨by omega, hlegible⟩

theorem clear_of_mem_preorder {r : Rule} {position : Option Position}
    (has : ∀ a ∈ as, a.Legible) {entry : Int × Node}
    (he : entry ∈ (Node.rule r.label as position).preorder 0) :
    0 ≤ entry.1 ∧ Clear (outline.shown entry.2) := by
  rw [preorder, preorders_eq_flatMap, List.flatMap_map, List.mem_cons, List.mem_flatMap] at he
  obtain rfl | ⟨a, ha, he⟩ := he
  · exact ⟨le_rfl, clear_label r⟩
  · obtain ⟨hdepth, hlegible⟩ := mem_preorder_of_legible (has a ha) he
    exact ⟨by omega, clear_shown hlegible⟩

theorem line_unplaced (outline : Outline) (depth : Int) (node : Node) :
    outline.line depth node.unplaced = outline.line depth node := by
  cases node <;> rfl

mutual

theorem preorder_unplaced (depth : Int) : (node : Node) →
    node.unplaced.preorder depth = (node.preorder depth).map (Prod.map id unplaced)
  | .rule label children position => by
    rw [unplaced, preorder, preorder, preorders_unplaced (depth + 1) children, List.map_cons,
      Prod.map_apply, unplaced]
    rfl
  | .token .. => rfl
  | .foreign _ => rfl

theorem preorders_unplaced (depth : Int) : (nodes : List Node) →
    preorders depth (unplacedAll nodes) = (preorders depth nodes).map (Prod.map id unplaced)
  | [] => rfl
  | node :: rest => by
    rw [unplacedAll, preorders, preorders, preorder_unplaced depth node,
      preorders_unplaced depth rest, List.map_append]

end

theorem lines_unplaced (outline : Outline) (depth : Int) (tree : Node) :
    outline.lines depth tree.unplaced = outline.lines depth tree := by
  rw [lines_eq, lines_eq, preorder_unplaced, linesOf, linesOf, List.mapM_map]
  exact congrArg (fun f => List.mapM f _) (funext fun entry => line_unplaced outline _ _)

end Outline

/-- An outline whose indent is of spaces tells all of a parsed tree but its positions: it is written
the same for two sources just if its lines are the same, and just if the trees are. -/
theorem outline_eq_iff {outline : Outline} {n : Nat} (hn : 1 ≤ n)
    (hindent : outline.indent.get = repeated " " n) {engine engine' : Engine}
    {source source' : String} {tree tree' : Node} (hparse : parse engine source = .ok tree)
    (hparse' : parse engine' source' = .ok tree') {lines lines' : List String}
    (hlines : outline.lines 0 tree = .ok lines) (hlines' : outline.lines 0 tree' = .ok lines') :
    (Command.joinLines lines = Command.joinLines lines' ↔ lines = lines') ∧
      (lines = lines' ↔ tree.unplaced = tree'.unplaced) := by
  obtain ⟨statements, position, rfl, hlegible⟩ := Node.exists_legible_of_parse hparse
  obtain ⟨statements', position', rfl, hlegible'⟩ := Node.exists_legible_of_parse hparse'
  have hlist := outline.lines_eq 0 _ ▸ hlines
  have hlist' := outline.lines_eq 0 _ ▸ hlines'
  obtain ⟨hread, hclean⟩ := Outline.map_readLine hn hindent
    (fun entry he => Outline.clear_of_mem_preorder hlegible he) hlist
  obtain ⟨hread', hclean'⟩ := Outline.map_readLine hn hindent
    (fun entry he => Outline.clear_of_mem_preorder hlegible' he) hlist'
  refine ⟨⟨Command.joinLines_inj hclean hclean', congrArg _⟩, ?_, ?_⟩
  · rintro rfl
    rw [hread, Outline.entriesOf_preorder, Outline.entriesOf_preorder] at hread'
    have hentries := (List.cons.inj hread').2
    rw [Node.unplaced, Node.unplaced, Node.unplacedAll_eq_map, Node.unplacedAll_eq_map,
      Outline.map_unplaced_eq hlegible hlegible' hentries]
  · intro h
    rw [← Outline.lines_unplaced, h, Outline.lines_unplaced, hlines'] at hlines
    exact (Except.ok.inj hlines).symm

/-- The sum of one and a variable that has the name of a rule, with blanks around the sign. -/
def addedName (blanks : Nat) : Node :=
  .rule Rule.program.label
    [.rule Rule.add.label
      [.token Terminal.name.label "add" (some ⟨1, some 1⟩),
        .token Terminal.plus.label "+" (some ⟨1, some (4 + blanks)⟩),
        .token Terminal.number.label "1" (some ⟨1, some (5 + 2 * blanks)⟩)] (some ⟨1, some 1⟩)]
    (some ⟨1, some 1⟩)

theorem outline_addedName :
    parse .lalr "add+1" = .ok (addedName 0) ∧ parse .earley "add + 1" = .ok (addedName 1) ∧
      Outline.lines { indent := repeated " " 3, memory := 6 } 0 (addedName 0) =
        .ok ["program", "   add", "      add", "      +", "      1"] ∧
      (addedName 0).unplaced = (addedName 1).unplaced := by
  have hparse : parse .lalr "add+1" = .ok (addedName 0) := by cbv
  have hparse' : parse .earley "add + 1" = .ok (addedName 1) := by cbv
  have hlines : ∀ blanks,
      Outline.lines { indent := repeated " " 3, memory := 6 } 0 (addedName blanks) =
        .ok ["program", "   add", "      add", "      +", "      1"] := by
    intro blanks
    rw [Outline.lines_eq]
    rfl
  exact ⟨hparse, hparse', hlines 0,
    (outline_eq_iff (by decide) rfl hparse hparse' (hlines 0) (hlines 1)).2.1 rfl⟩

end Reckon
