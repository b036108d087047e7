import Reckon.Proofs.Outlines

/-!
# Listings

An outline is made by a loop over the trees that wait to be listed.  The loop ends
(`Outline.ends_list`), and its lines are those of the plain recursion over the tree: the line of a
node, and then the listings of its subtrees, one level deeper (`Outline.listing`).  A node has no
line if its indentation cannot be written, or if it is foreign; the first such node in reading order
gives the fault (`Outline.lines_listing`).
-/

namespace Reckon

/-! ## Repeated texts -/

theorem repeated_zero (text : String) : repeated text 0 = "" := by
  unfold repeated
  split <;> rfl

theorem repeated_one (text : String) : repeated text 1 = text := by
  rw [← String.toList_inj, toList_repeated, List.replicate_one, List.flatten_singleton]

/-- Whether the copies of a text of some length can be counted: their number fits a machine word,
and so does the length of the new text, if one is made. -/
def FitsWord (length : Nat) (count : Int) : Prop :=
  -wordLimit ≤ count ∧ count < wordLimit ∧ (count ≤ 1 ∨ length * count < wordLimit)

/-- Whether there is memory for the copies of a text of some length.  One copy is the text
itself. -/
def FitsMemory (memory length : Nat) (count : Int) : Prop :=
  count ≤ 1 ∨ length * count ≤ memory

/-- Whether a text of some length can be repeated. -/
def Repeatable (memory length : Nat) (count : Int) : Prop :=
  FitsWord length count ∧ FitsMemory memory length count

instance (length : Nat) (count : Int) : Decidable (FitsWord length count) :=
  inferInstanceAs (Decidable (_ ∧ _ ∧ (_ ∨ _)))

instance (memory length : Nat) (count : Int) : Decidable (FitsMemory memory length count) :=
  inferInstanceAs (Decidable (_ ∨ _))

instance (memory length : Nat) (count : Int) : Decidable (Repeatable memory length count) :=
  inferInstanceAs (Decidable (_ ∧ _))

/-- Whether a fault says why a text of some length cannot be repeated. -/
def RepeatFault.Explains (fault : RepeatFault) (length : Nat) (count : Int) : Prop :=
  (FitsWord length count ∧ fault.className = "MemoryError") ∨
    ¬ FitsWord length count ∧ fault.className = "OverflowError"

section

variable {memory : Nat} {text : Thunk String} {count : Int}

theorem Repeatable.exists_copies (h : Repeatable memory text.get.length count) :
    ∃ copies, repeat? memory text count = .ok copies ∧
      copies.get = repeated text.get count.toNat := by
  obtain ⟨⟨hlow, hhigh, hword⟩, hmemory⟩ := h
  rw [repeat?, if_neg (by omega)]
  by_cases hcount : count ≤ 0
  · refine ⟨"", if_pos hcount, ?_⟩
    rw [Int.toNat_of_nonpos hcount, repeated_zero]
    rfl
  by_cases hone : count = 1
  · refine ⟨text, by rw [if_neg hcount, if_pos hone], ?_⟩
    rw [hone]
    exact (repeated_one _).symm
  · have hmany : ¬ count ≤ 1 := by omega
    have hless := hword.resolve_left hmany
    have hfits := hmemory.resolve_left hmany
    rw [if_neg hcount, if_neg hone, if_neg (by omega), if_neg (by omega)]
    exact ⟨_, rfl, rfl⟩

theorem exists_repeatFault (h : ¬ Repeatable memory text.get.length count) :
    ∃ fault, repeat? memory text count = .error fault ∧ fault.Explains text.get.length count := by
  by_cases hword : FitsWord text.get.length count
  · have hfits : ¬ FitsMemory memory text.get.length count := fun hfits => h ⟨hword, hfits⟩
    refine ⟨.outOfMemory, ?_, .inl ⟨hword, rfl⟩⟩
    obtain ⟨hlow, hhigh, hless⟩ := hword
    rw [FitsMemory] at hfits
    rw [repeat?, if_neg (by omega), if_neg (by omega), if_neg (by omega), if_neg (by omega),
      if_pos (by omega)]
  · by_cases hcount : count < -wordLimit ∨ wordLimit ≤ count
    · exact ⟨.uncountable, if_pos hcount, .inr ⟨hword, rfl⟩⟩
    · refine ⟨.tooLong, ?_, .inr ⟨hword, rfl⟩⟩
      rw [FitsWord] at hword
      rw [repeat?, if_neg hcount, if_neg (by omega), if_neg (by omega), if_pos (by omega)]

end

/-! ## Foreign values -/

namespace Node

/-- The foreign value that a node is. -/
def foreign? : Node → Option Foreign
  | .foreign value => some value
  | _ => none

mutual

/-- The foreign values in a tree, in reading order. -/
def foreigns : Node → List Foreign
  | .rule _ children _ => foreignsOf children
  | .token .. => []
  | .foreign value => [value]

/-- The foreign values in a list of trees. -/
def foreignsOf : List Node → List Foreign
  | [] => []
  | node :: rest => node.foreigns ++ foreignsOf rest

end

mutual

theorem foreigns_eq (depth : Int) : (node : Node) →
    node.foreigns = (node.preorder depth).filterMap fun entry => entry.2.foreign?
  | .rule label children position => by
    rw [foreigns, preorder, foreignsOf_eq (depth + 1) children]
    rfl
  | .token .. => rfl
  | .foreign _ => rfl

theorem foreignsOf_eq (depth : Int) : (nodes : List Node) →
    foreignsOf nodes = (preorders depth nodes).filterMap fun entry => entry.2.foreign?
  | [] => rfl
  | node :: rest => by
    rw [foreignsOf, preorders, foreigns_eq depth node, foreignsOf_eq depth rest,
      List.filterMap_append]

end

mutual

theorem length_preorder (depth : Int) : (node : Node) → (node.preorder depth).length = node.size
  | .rule label children position => by
    rw [preorder, List.length_cons, length_preorders (depth + 1) children, size]
  | .token .. => rfl
  | .foreign _ => rfl

theorem length_preorders (depth : Int) : (nodes : List Node) →
    (preorders depth nodes).length = sizes nodes
  | [] => rfl
  | node :: rest => by
    rw [preorders, List.length_append, length_preorder depth node, length_preorders depth rest,
      sizes]

end

end Node

namespace Outline

/-! ## The recursive listing -/

/-- The line of a node: the indent as often as the node is deep, and what is shown of it. -/
def plainLine (outline : Outline) (depth : Int) (node : Node) : String :=
  repeated outline.indent.get depth.toNat ++ outline.shown node

mutual

/-- The line of a node and the listings of its subtrees behind it, one level deeper. -/
def listing (outline : Outline) (depth : Int) : Node → List String
  | .rule label children position =>
    outline.plainLine depth (.rule label children position) :: outline.listings (depth + 1) children
  | .token kind text position => [outline.plainLine depth (.token kind text position)]
  | .foreign value => [outline.plainLine depth (.foreign value)]

/-- The listings of some trees, one behind the other. -/
def listings (outline : Outline) (depth : Int) : List Node → List String
  | [] => []
  | node :: rest => outline.listing depth node ++ outline.listings depth rest

end

mutual

theorem listing_eq (outline : Outline) (depth : Int) : (node : Node) →
    outline.listing depth node =
      (node.preorder depth).map fun entry => outline.plainLine entry.1 entry.2
  | .rule label children position => by
    rw [listing, Node.preorder, listings_eq outline (depth + 1) children]
    rfl
  | .token .. => rfl
  | .foreign _ => rfl

theorem listings_eq (outline : Outline) (depth : Int) : (nodes : List Node) →
    outline.listings depth nodes =
      (Node.preorders depth nodes).map fun entry => outline.plainLine entry.1 entry.2
  | [] => rfl
  | node :: rest => by
    rw [listings, Node.preorders, listing_eq outline depth node, listings_eq outline depth rest,
      List.map_append]

end

theorem length_listing (outline : Outline) (depth : Int) (tree : Node) :
    (outline.listing depth tree).length = tree.size := by
  rw [listing_eq, List.length_map, Node.length_preorder]

/-! ## The end of the loop -/

/-- The loop, given the lines that it has made, the last first, and the trees that wait, ends after
a number of turns with a result. -/
inductive Ends (outline : Outline) :
    Nat → List String → List (Int × Node) → Except Fault (List String) → Prop
  | done {lines : List String} : Ends outline 0 lines [] (.ok lines.reverse)
  | fault {lines : List String} {depth : Int} {node : Node} {waiting : List (Int × Node)}
      {fault : Fault} (h : outline.line depth node = .error fault) :
      Ends outline 1 lines ((depth, node) :: waiting) (.error fault)
  | turn {lines : List String} {depth : Int} {node : Node} {waiting : List (Int × Node)}
      {line : String} {turns : Nat} {result : Except Fault (List String)}
      (h : outline.line depth node = .ok line)
      (rest : Ends outline turns (line :: lines)
        (node.children.map (fun child => (depth + 1, child)) ++ waiting) result) :
      Ends outline (turns + 1) lines ((depth, node) :: waiting) result

/-- There are at most as many turns as nodes in the trees that wait. -/
theorem ends_list (outline : Outline) (done : List String) (waiting : List (Int × Node)) :
    ∃ turns ≤ pendingSize waiting, outline.Ends turns done waiting (outline.list done waiting) := by
  fun_induction list outline done waiting with
  | case1 done => exact ⟨0, le_rfl, .done⟩
  | case2 done depth node waiting fault hline =>
    refine ⟨1, ?_, .fault hline⟩
    rw [pendingSize, Node.size_eq]
    omega
  | case3 done depth node waiting line hline ih =>
    obtain ⟨turns, hturns, hends⟩ := ih
    refine ⟨turns + 1, ?_, .turn hline hends⟩
    rw [pendingSize_append, pendingSize_map] at hturns
    rw [pendingSize, Node.size_eq]
    omega

/-! ## Margins -/

/-- Whether the indentation of a depth can be written. -/
def HasMargin (outline : Outline) (depth : Int) : Prop :=
  Repeatable outline.memory outline.indent.get.length depth

instance (outline : Outline) (depth : Int) : Decidable (outline.HasMargin depth) :=
  inferInstanceAs (Decidable (Repeatable ..))

variable {outline : Outline} {depth : Int} {node : Node}

theorem margin_of_hasMargin (h : outline.HasMargin depth) :
    outline.margin depth = .ok (repeated outline.indent.get depth.toNat) := by
  obtain ⟨copies, hcopies, hget⟩ := h.exists_copies
  rw [margin, hcopies, ← hget]
  rfl

theorem exists_margin_fault (h : ¬ outline.HasMargin depth) :
    ∃ fault : RepeatFault, outline.margin depth = .error (.margin fault) ∧
      fault.Explains outline.indent.get.length depth := by
  obtain ⟨fault, hfault, hexplains⟩ := exists_repeatFault h
  refine ⟨fault, ?_, hexplains⟩
  rw [margin, hfault]
  rfl

/-! ## Lines -/

/-- Whether a node has a line. -/
def HasLine (outline : Outline) (entry : Int × Node) : Prop :=
  outline.HasMargin entry.1 ∧ entry.2.foreign? = none

theorem line_of_hasLine {entry : Int × Node} (h : outline.HasLine entry) :
    outline.line entry.1 entry.2 = .ok (outline.plainLine entry.1 entry.2) := by
  obtain ⟨depth, node⟩ := entry
  rw [line, margin_of_hasMargin h.1]
  cases node with
  | foreign value => cases h.2
  | rule | token => rfl

theorem line_foreign (h : outline.HasMargin depth) (value : Foreign) :
    outline.line depth (.foreign value) = .error (.foreign value) := by
  rw [line, margin_of_hasMargin h]
  rfl

theorem exists_line_fault (h : ¬ outline.HasMargin depth) (node : Node) :
    ∃ fault : RepeatFault, outline.line depth node = .error (.margin fault) ∧
      fault.Explains outline.indent.get.length depth := by
  obtain ⟨fault, hfault, hexplains⟩ := exists_margin_fault h
  refine ⟨fault, ?_, hexplains⟩
  rw [line, hfault]
  rfl

theorem linesOf_append {before after : List (Int × Node)}
    (h : ∀ entry ∈ before, outline.HasLine entry) :
    outline.linesOf (before ++ after) = (outline.linesOf after).map
      ((before.map fun entry => outline.plainLine entry.1 entry.2) ++ ·) := by
  induction before with
  | nil =>
    rw [List.nil_append]
    cases outline.linesOf after <;> rfl
  | cons entry before ih =>
    rw [List.forall_mem_cons] at h
    rw [List.cons_append, linesOf_cons, line_of_hasLine h.1, ih h.2]
    cases outline.linesOf after <;> rfl

variable {tree : Node}

theorem lines_of_hasLine (h : ∀ entry ∈ tree.preorder depth, outline.HasLine entry) :
    outline.lines depth tree = .ok (outline.listing depth tree) := by
  rw [lines_eq, listing_eq, ← List.append_nil (tree.preorder depth), linesOf_append h, linesOf_nil]
  simp [Except.map]

/-- The first node without a line gives its fault. -/
theorem lines_of_fault {before after : List (Int × Node)} {level : Int} {fault : Fault}
    (hsplit : tree.preorder depth = before ++ (level, node) :: after)
    (hbefore : ∀ entry ∈ before, outline.HasLine entry)
    (h : outline.line level node = .error fault) : outline.lines depth tree = .error fault := by
  rw [lines_eq, hsplit, linesOf_append hbefore, linesOf_cons, h]
  rfl

theorem lines_of_foreign (h : ∀ entry ∈ tree.preorder depth, outline.HasMargin entry.1)
    {value : Foreign} (hvalue : tree.foreigns.head? = some value) :
    outline.lines depth tree = .error (.foreign value) := by
  rw [Node.foreigns_eq depth, List.head?_filterMap, List.findSome?_eq_some_iff] at hvalue
  obtain ⟨before, ⟨level, node⟩, after, hsplit, hnode, hbefore⟩ := hvalue
  rw [hsplit, List.forall_mem_append, List.forall_mem_cons] at h
  cases node with
  | foreign found =>
    cases hnode
    exact lines_of_fault hsplit (fun entry he => ⟨h.1 entry he, hbefore entry he⟩)
      (line_foreign h.2.1 value)
  | rule | token => cases hnode

/-- The loop of an outline ends, with the listing of the tree if every indentation can be written
and nothing in the tree is foreign.  If it can and something is, the fault names the first foreign
value in reading order, or says that this value is not shown.  In general the first node without a
line decides, and at a node the indentation comes first. -/
theorem lines_listing (outline : Outline) (depth : Int) (tree : Node) :
    (∃ turns ≤ tree.size, outline.Ends turns [] [(depth, tree)] (outline.lines depth tree)) ∧
    ((∀ entry ∈ tree.preorder depth, outline.HasMargin entry.1) →
      (tree.foreigns = [] → outline.lines depth tree = .ok (outline.listing depth tree) ∧
        (outline.listing depth tree).length = tree.size) ∧
      ∀ value, tree.foreigns.head? = some value → ∃ fault,
        outline.lines depth tree = .error fault ∧
          (value.isShowable → fault.className = "TypeError" ∧
            fault.message = "not a parse tree node: " ++ value.description) ∧
          (¬ value.isShowable → fault.className = "ValueError" ∧
            fault.message = Foreign.refusal)) ∧
    ∀ before level node after, tree.preorder depth = before ++ (level, node) :: after →
      (∀ entry ∈ before, outline.HasMargin entry.1 ∧ entry.2.foreign? = none) →
      (¬ outline.HasMargin level → ∃ fault : RepeatFault,
        outline.lines depth tree = .error (.margin fault) ∧
          fault.Explains outline.indent.get.length level) ∧
      ∀ value, outline.HasMargin level → node = .foreign value →
        outline.lines depth tree = .error (.foreign value) := by
  refine ⟨?_, ?_, ?_⟩
  · obtain ⟨turns, hturns, hends⟩ := outline.ends_list [] [(depth, tree)]
    exact ⟨turns, hturns, hends⟩
  · intro hmargins
    constructor
    · intro hforeigns
      rw [Node.foreigns_eq depth, List.filterMap_eq_nil_iff] at hforeigns
      exact ⟨lines_of_hasLine fun entry he => ⟨hmargins entry he, hforeigns entry he⟩,
        length_listing outline depth tree⟩
    · intro value hvalue
      exact ⟨_, lines_of_foreign hmargins hvalue, fun hshown => ⟨if_pos hshown, if_pos hshown⟩,
        fun hhidden => ⟨if_neg hhidden, if_neg hhidden⟩⟩
  · intro before level node after hsplit hbefore
    constructor
    · intro hmargin
      obtain ⟨fault, hfault, hexplains⟩ := exists_line_fault hmargin node
      exact ⟨fault, lines_of_fault hsplit hbefore hfault, hexplains⟩
    · rintro value hmargin rfl
      exact lines_of_fault hsplit hbefore (line_foreign hmargin value)

/-- At a depth that does not fit a machine word a name is not listed, though its line would have no
indentation, and whatever memory there is. -/
theorem lines_beyond_word :
    (Node.token Terminal.name.label "x" none).foreigns = [] ∧
      (∀ memory, Outline.listing { indent := "", memory } 9223372036854775808
        (.token Terminal.name.label "x" none) = ["x"]) ∧
      ∀ memory, Outline.lines { indent := "", memory } 9223372036854775808
        (.token Terminal.name.label "x" none) = .error (.margin .uncountable) := by
  refine ⟨rfl, fun memory => ?_, fun memory => ?_⟩
  · have hindent : repeated "" (Int.toNat 9223372036854775808) = "" := if_pos rfl
    rw [listing, plainLine]
    exact congrArg (fun indent => [indent ++ ("" ++ "x")]) hindent
  · rw [lines_eq]
    rfl

end Outline

end Reckon
