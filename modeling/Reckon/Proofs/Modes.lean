import Reckon.Proofs.Listing

/-!
# The three modes of the command

The command shows the value of a program, its tree, or both.  An option for the mode in front of
arguments that leave the mode open changes nothing else that they ask for (`request_longName`), so
the three transcripts of a source fit together (`composed_modes`): both are shown one behind the
other, a failure is reported alike wherever it is met, and the tree alone is not evaluated.

A tree is listed to its end just if all of its margins can be written.  The first that cannot breaks
the command down; an indent can be too wide for that whatever memory there is (`tree_breaks_down`).
-/

namespace Reckon

/-! ## Margins -/

theorem length_repeated (text : String) (count : Nat) :
    (repeated text count).length = text.length * count := by
  rw [← String.length_toList, toList_repeated]
  simp [String.length_toList, Nat.mul_comm]

/-- Nothing in a parsed tree is foreign. -/
theorem Node.foreign?_of_parse {engine : Engine} {source : String} {tree : Node}
    (h : parse engine source = .ok tree) {entry : Int × Node} (he : entry ∈ tree.nodes) :
    entry.2.foreign? = none := by
  obtain ⟨statements, position, rfl, hlegible⟩ := exists_legible_of_parse h
  rw [nodes_eq, preorder, preorders_eq_flatMap, List.flatMap_map, List.mem_cons,
    List.mem_flatMap] at he
  obtain rfl | ⟨statement, hs, he⟩ := he
  · rfl
  · obtain ⟨-, hnode⟩ := Outline.mem_preorder_of_legible (hlegible statement hs) he
    cases hentry : entry.2 with
    | foreign value =>
      rw [hentry] at hnode
      cases hnode
    | rule | token => rfl

end Reckon

namespace Reckon.Command

/-! ## Listings -/

/-- The margins of a tree's outline, in the order in which they are made: the indent, which is one
space many times over, and then that of every node, which is the indent many times over.  A margin
is given by the length of what is repeated and the number of times. -/
def margins (count : Nat) (tree : Node) : List (Nat × Int) :=
  (1, (count : Int)) :: tree.nodes.map fun entry => (count, entry.1)

/-- Whether all margins of a tree's outline can be written. -/
def MarginsFit (memory count : Nat) (tree : Node) : Prop :=
  ∀ margin ∈ margins count tree, Repeatable memory margin.1 margin.2

/-- Whether the fault is that of the first margin that cannot be written. -/
def BreaksOff (memory count : Nat) (tree : Node) (fault : RepeatFault) : Prop :=
  ∃ before length number after, margins count tree = before ++ (length, number) :: after ∧
    (∀ margin ∈ before, Repeatable memory margin.1 margin.2) ∧
    ¬ Repeatable memory length number ∧ fault.Explains length number

theorem lines_cases (outline : Outline) {engine : Engine} {source : String} {tree : Node}
    (h : parse engine source = .ok tree) :
    ((∀ entry ∈ tree.nodes, outline.HasMargin entry.1) ∧
        ∃ lines, outline.lines 0 tree = .ok lines) ∨
      ∃ before level node after fault, tree.nodes = before ++ (level, node) :: after ∧
        (∀ entry ∈ before, outline.HasMargin entry.1) ∧ ¬ outline.HasMargin level ∧
        RepeatFault.Explains fault outline.indent.get.length level ∧
        outline.lines 0 tree = .error (.margin fault) := by
  have hforeign : ∀ entry ∈ tree.nodes, entry.2.foreign? = none :=
    fun entry he => Node.foreign?_of_parse h he
  cases hfind : tree.nodes.find? fun entry => ¬ outline.HasMargin entry.1 with
  | none =>
    have hall : ∀ entry ∈ tree.nodes, outline.HasMargin entry.1 := by
      simpa using List.find?_eq_none.1 hfind
    refine .inl ⟨hall, _, Outline.lines_of_hasLine ?_⟩
    rw [← Node.nodes_eq]
    exact fun entry he => ⟨hall entry he, hforeign entry he⟩
  | some entry =>
    obtain ⟨level, node⟩ := entry
    obtain ⟨hwide, before, after, hsplit, hbefore⟩ := List.find?_eq_some_iff_append.1 hfind
    replace hwide : ¬ outline.HasMargin level := by simpa using hwide
    replace hbefore : ∀ entry ∈ before, outline.HasMargin entry.1 := by simpa using hbefore
    obtain ⟨fault, hfault, hexplains⟩ := Outline.exists_line_fault hwide node
    refine .inr ⟨before, level, node, after, fault, hsplit, hbefore, hwide, hexplains, ?_⟩
    rw [hsplit, List.forall_mem_append] at hforeign
    exact Outline.lines_of_fault (tree.nodes_eq ▸ hsplit)
      (fun entry he => ⟨hbefore entry he, hforeign.1 entry he⟩) hfault

theorem treeLines_cases {memory : Nat} {settings : Settings} {count : Nat} {engine : Engine}
    {source : String} {tree : Node} (hindent : settings.indent = some count)
    (h : parse engine source = .ok tree) :
    (MarginsFit memory count tree ∧ ∃ lines, treeLines memory settings tree = .ok lines) ∨
      ∃ fault, BreaksOff memory count tree fault ∧
        treeLines memory settings tree = .error (.outline (.margin fault)) := by
  have hspace : (" " : Thunk String).get.length = 1 := by decide
  by_cases hfits : Repeatable memory 1 count
  · obtain ⟨indent, hok, hget⟩ : ∃ indent, repeat? memory " " count = .ok indent ∧
        indent.get = repeated " " count := Repeatable.exists_copies (hspace ▸ hfits)
    have hlength : indent.get.length = count := by
      rw [hget, length_repeated]
      exact Nat.one_mul count
    have hlines := lines_cases ⟨indent, settings.tokenTypes, memory⟩ h
    simp only [Outline.HasMargin, hlength] at hlines
    simp only [treeLines, hindent, hok]
    obtain ⟨hall, lines, hlines⟩ | ⟨before, level, node, after, fault, hsplit, hbefore, hwide,
      hexplains, hfault⟩ := hlines
    · refine .inl ⟨?_, lines, congrArg (Except.mapError _) hlines⟩
      rw [MarginsFit, margins, List.forall_mem_cons, List.forall_mem_map]
      exact ⟨hfits, hall⟩
    · refine .inr ⟨fault, ?_, congrArg (Except.mapError _) hfault⟩
      refine ⟨(1, (count : Int)) :: before.map fun entry => (count, entry.1), count, level,
        after.map fun entry => (count, entry.1), ?_, ?_, hwide, hexplains⟩
      · rw [margins, hsplit, List.map_append]
        rfl
      · rw [List.forall_mem_cons, List.forall_mem_map]
        exact ⟨hfits, hbefore⟩
  · have hwide : ¬ Repeatable memory (" " : Thunk String).get.length count := hspace ▸ hfits
    obtain ⟨fault, hfault, hexplains⟩ := exists_repeatFault hwide
    simp only [treeLines, hindent, hfault]
    exact .inr ⟨fault, ⟨[], 1, count, _, rfl, by simp, hfits, hspace ▸ hexplains⟩, rfl⟩

/-! ## The mode among the settings -/

/-- The settings with another mode. -/
def Settings.inMode (settings : Settings) (mode : Mode) : Settings := { settings with mode }

namespace Settings

variable {settings next : Settings} {flag : Flag} {text : String}

/-- Values are set in every mode alike. -/
theorem setValue_inMode (h : settings.setValue flag text = .ok next) (mode : Mode) :
    (settings.inMode mode).setValue flag text = .ok (next.inMode mode) := by
  cases flag with
  | parser =>
    simp only [setValue] at h ⊢
    cases hname : (keepValue text).mapM readEngine with
    | error fault => rw [hname] at h; cases h
    | ok name => rw [hname] at h; cases h; rfl
  | indent =>
    simp only [setValue] at h ⊢
    cases hcount : (keepValue text).mapM readIndent with
    | error fault => rw [hcount] at h; cases h
    | ok count => rw [hcount] at h; cases h; rfl
  | logLevel => cases h; rfl
  | help | noTree | treeOnly | tokenTypes => cases h

/-- A flag that leaves the mode open is set in every mode alike. -/
theorem setFlag_inMode (h : settings.setFlag flag = .ok next) (hopen : next.mode = .valueAndTree)
    (mode : Mode) : (settings.inMode mode).setFlag flag = .ok (next.inMode mode) := by
  cases flag with
  | tokenTypes => cases h; rfl
  | noTree | treeOnly =>
    simp only [setFlag] at h
    split at h <;> cases h
    cases hopen
  | help | parser | indent | logLevel => cases h

end Settings

namespace Progress

/-- The progress with another mode. -/
def inMode (progress : Progress) (mode : Mode) : Progress :=
  { progress with settings := progress.settings.inMode mode }

variable {progress : Progress} {settings : Settings} {behind : Option (List String)}
  {words : List Word}

theorem takeOperand_inMode (progress : Progress) (text : String) (mode : Mode) :
    (progress.inMode mode).takeOperand text = (progress.takeOperand text).inMode mode := by
  obtain ⟨⟨_ | source⟩⟩ := progress <;> rfl

theorem foldl_takeOperand_inMode (texts : List String) (progress : Progress) (mode : Mode) :
    texts.foldl takeOperand (progress.inMode mode) =
      (texts.foldl takeOperand progress).inMode mode := by
  induction texts generalizing progress with
  | nil => rfl
  | cons text rest ih => rw [List.foldl_cons, takeOperand_inMode, ih, List.foldl_cons]

theorem finish_inMode (h : progress.finish behind = .ok (.run settings)) (mode : Mode) :
    (progress.inMode mode).finish behind = .ok (.run (settings.inMode mode)) := by
  have ended : ∀ last : Progress,
      (if last.extras.isEmpty then .ok (.run last.settings)
        else .error (.unrecognized last.extras.reverse) : Except UsageFault Request) =
          .ok (.run settings) →
      (if last.extras.isEmpty then .ok (.run (last.settings.inMode mode))
        else .error (.unrecognized last.extras.reverse) : Except UsageFault Request) =
          .ok (.run (settings.inMode mode)) := by
    intro last hlast
    split at hlast <;> cases hlast
    exact if_pos ‹_›
  cases behind with
  | none => exact ended progress h
  | some rest =>
    have hmarked : (if (progress.inMode mode).settings.source.isNone ||
        (progress.inMode mode).sourceLast then progress.inMode mode
        else (progress.inMode mode).leave "--") =
      (if progress.settings.source.isNone || progress.sourceLast then progress
        else progress.leave "--").inMode mode := by
      change (if progress.settings.source.isNone || progress.sourceLast then progress.inMode mode
        else (progress.leave "--").inMode mode) = _
      split <;> rfl
    have hlast := ended _ h
    unfold finish
    simp only [hmarked, foldl_takeOperand_inMode]
    exact hlast

theorem run_flag {flag : Flag} (hhelp : flag ≠ .help) (htakes : ¬ flag.takesValue) :
    progress.run behind (.option flag none :: words) =
      (progress.settings.setFlag flag >>= fun next => (progress.set next).run behind words) := by
  by_cases hoperand : ∃ text rest, words = .operand text :: rest
  · obtain ⟨text, rest, rfl⟩ := hoperand
    rw [run, if_neg htakes]
    exact hhelp
  · rw [run, if_neg htakes]
    · exact hhelp
    · exact fun text rest hwords => hoperand ⟨text, rest, hwords⟩

/-- A value is set, and the arguments behind it ask for the same in every mode. -/
theorem run_setValue_inMode {flag : Flag} {value : String}
    (ih : ∀ next, (progress.set next).run behind words = .ok (.run settings) → ∀ mode,
      ((progress.set next).inMode mode).run behind words = .ok (.run (settings.inMode mode)))
    (h : (progress.settings.setValue flag value >>= fun next =>
      (progress.set next).run behind words) = .ok (.run settings)) (mode : Mode) :
    ((progress.inMode mode).settings.setValue flag value >>= fun next =>
      ((progress.inMode mode).set next).run behind words) = .ok (.run (settings.inMode mode)) := by
  cases hnext : progress.settings.setValue flag value with
  | error fault =>
    rw [hnext] at h
    cases h
  | ok next =>
    rw [hnext] at h
    have hset : (progress.inMode mode).settings.setValue flag value = .ok (next.inMode mode) :=
      Settings.setValue_inMode hnext mode
    rw [hset]
    exact ih next h mode

/-- Arguments that leave the mode open ask for the same in every mode. -/
theorem run_inMode (h : progress.run behind words = .ok (.run settings))
    (hopen : settings.mode = .valueAndTree) (mode : Mode) :
    (progress.inMode mode).run behind words = .ok (.run (settings.inMode mode)) := by
  fun_induction run progress behind words generalizing mode with
  | case1 progress =>
    rw [run]
    exact finish_inMode h mode
  | case2 progress text rest ih =>
    rw [run, takeOperand_inMode]
    exact ih h mode
  | case3 progress text rest ih => exact ih h mode
  | case4 | case5 | case6 | case9 => cases h
  | case7 progress flag value rest ih =>
    rw [run]
    exact run_setValue_inMode ih h mode
  | case8 progress flag hhelp htakes value rest ih =>
    rw [run, if_pos htakes]
    · exact run_setValue_inMode ih h mode
    · exact hhelp
  | case10 progress flag rest hhelp htakes ih =>
    cases hnext : progress.settings.setFlag flag with
    | error fault =>
      rw [hnext] at h
      cases h
    | ok next =>
      rw [hnext] at h
      replace h : (progress.set next).run behind rest = .ok (.run settings) := h
      -- the mode behind the flag is still open, as the rest asks for the same in that mode
      have hsame : (progress.set next).run behind rest = .ok (.run (settings.inMode next.mode)) :=
        ih next h next.mode
      have hmode : settings = settings.inMode next.mode :=
        Request.run.inj (Except.ok.inj (h.symm.trans hsame))
      have hset : (progress.inMode mode).settings.setFlag flag = .ok (next.inMode mode) :=
        Settings.setFlag_inMode hnext ((congrArg Settings.mode hmode).symm.trans hopen) mode
      rw [run_flag hhelp htakes, hset]
      exact ih next h mode

end Progress

variable {memory : Nat} {surroundings : Surroundings} {arguments : List String}
  {settings : Settings}

theorem sortArguments_cons {argument : String} {word : Word} {words : List Word}
    {behind : Option (List String)} (hword : sortArgument argument = .ok word)
    (h : sortArguments arguments = .ok (words, behind)) :
    sortArguments (argument :: arguments) = .ok (word :: words, behind) := by
  have hmark : argument ≠ "--" := by
    rintro rfl
    cases hword
  rw [sortArguments, if_neg hmark, hword, h]
  rfl

theorem sortArguments_longName {words : List Word} {behind : Option (List String)} (flag : Flag)
    (h : sortArguments arguments = .ok (words, behind)) :
    sortArguments (flag.longName :: arguments) = .ok (.option flag none :: words, behind) :=
  sortArguments_cons (by cases flag <;> rfl) h

/-- An option for the mode in front of arguments that leave the mode open. -/
theorem request_longName (flag : Flag) {mode : Mode} (hhelp : flag ≠ .help)
    (htakes : ¬ flag.takesValue)
    (hset : surroundings.settings.setFlag flag = .ok (surroundings.settings.inMode mode))
    (h : request surroundings arguments = .ok (.run settings))
    (hopen : settings.mode = .valueAndTree) :
    request surroundings (flag.longName :: arguments) = .ok (.run (settings.inMode mode)) := by
  unfold request at h
  cases hsort : sortArguments arguments with
  | error fault =>
    rw [hsort] at h
    cases h
  | ok sorted =>
    obtain ⟨words, behind⟩ := sorted
    rw [hsort] at h
    rw [request, sortArguments_longName flag hsort]
    simp only [Progress.run_flag hhelp htakes, hset]
    exact Progress.run_inMode h hopen mode

/-! ## Transcripts -/

/-- Settings that name an engine and an indent and log nothing, and a source that can be read. -/
structure Settings.Reads (settings : Settings) (folder : Folder) (stdin : List UInt8)
    (engine : Engine) (count : Nat) (source : String) : Prop where
  engine_eq : settings.engineName = some engine.name
  indent_eq : settings.indent = some count
  quiet : settings.logLevel.bind showsLog? = some false
  path : settings.source.any (·.contains '\x00') = false
  text : (sourceBytes folder stdin settings.source).bind sourceText = .ok source

namespace Settings.Reads

variable {memory : Nat} {settings : Settings} {folder : Folder} {stdin : List UInt8}
  {engine : Engine} {count : Nat} {source : String}

theorem inMode (h : settings.Reads folder stdin engine count source) (mode : Mode) :
    (settings.inMode mode).Reads folder stdin engine count source where
  engine_eq := h.engine_eq
  indent_eq := h.indent_eq
  quiet := h.quiet
  path := h.path
  text := h.text

theorem reportRun_eq (h : settings.Reads folder stdin engine count source) :
    reportRun memory settings (sourceBytes folder stdin settings.source) =
      reportText memory settings (fun _ _ => "") source := by
  obtain ⟨level, hlevel, hquiet⟩ := Option.bind_eq_some_iff.1 h.quiet
  rw [reportRun, hlevel]
  dsimp only
  rw [hquiet]
  dsimp only
  rw [reportSource, h.path, h.text]
  rfl

theorem engine_ok (h : settings.Reads folder stdin engine count source) :
    settings.engine = .ok engine := by
  rw [Settings.engine, h.engine_eq]
  dsimp only
  rw [Engine.ofName?_name]

/-- A source that does not parse. -/
theorem reportRun_of_error (h : settings.Reads folder stdin engine count source)
    {fault : ParseFault} (hparse : parse engine source = .error fault) :
    reportRun memory settings (sourceBytes folder stdin settings.source) =
      failed (fun _ _ => "") "" "" (.parse fault) := by
  rw [h.reportRun_eq, reportText, h.engine_ok]
  dsimp only
  rw [hparse]

/-- A source that parses. -/
theorem reportRun_of_ok (h : settings.Reads folder stdin engine count source)
    {tree : Node} (hparse : parse engine source = .ok tree) :
    reportRun memory settings (sourceBytes folder stdin settings.source) =
      reportTree memory settings (fun _ _ => "") "" tree := by
  rw [h.reportRun_eq, reportText, h.engine_ok]
  dsimp only
  rw [hparse]
  simp only [String.append_empty]

end Settings.Reads

@[simp] theorem failed_silent (stdout : String) (failure : Failure) :
    failed (fun _ _ => "") stdout "" failure =
      ⟨stdout, "error: " ++ failure.message ++ "\n", .exit 1⟩ := by
  simp only [failed, String.empty_append]

/-- The listing of a tree does not depend on what was written before. -/
theorem listTree_eq (memory : Nat) (settings : Settings) (stdout stderr : String) (tree : Node) :
    listTree memory settings stdout stderr tree =
      ⟨stdout ++ (listTree memory settings "" "" tree).stdout, stderr,
        (listTree memory settings "" "" tree).ending⟩ := by
  unfold listTree
  cases treeLines memory settings tree <;> simp only [String.empty_append, String.append_assoc]

theorem ending_listTree_ne (memory : Nat) (settings : Settings) (stdout stderr : String)
    (tree : Node) :
    (listTree memory settings stdout stderr tree).ending ≠ .exit 1 := by
  unfold listTree
  cases treeLines memory settings tree <;> simp

theorem listTree_cases {engine : Engine} {count : Nat} {source : String} {tree : Node}
    (hindent : settings.indent = some count) (h : parse engine source = .ok tree) :
    (listTree memory settings "" "" tree).stderr = "" ∧
      (MarginsFit memory count tree ∧ (listTree memory settings "" "" tree).ending = .exit 0 ∨
        ∃ fault, BreaksOff memory count tree fault ∧
          (listTree memory settings "" "" tree).ending =
            .breakdown (.outline (.margin fault))) := by
  unfold listTree
  obtain ⟨hfit, lines, hlines⟩ | ⟨fault, hbreaks, hfault⟩ := treeLines_cases hindent h
  · rw [hlines]
    exact ⟨rfl, .inl ⟨hfit, rfl⟩⟩
  · rw [hfault]
    exact ⟨rfl, .inr ⟨fault, hbreaks, rfl⟩⟩

/-- A failure of evaluation, in the modes that evaluate. -/
theorem reportTree_of_error {tree : Node} {failure : Failure} {env : Environment}
    (hmode : settings.mode ≠ .treeOnly) (heval : evaluateIn {} tree = (.error failure, env)) :
    reportTree memory settings (fun _ _ => "") "" tree =
      ⟨"The result is:\n" ++ env.written, "error: " ++ failure.message ++ "\n", .exit 1⟩ := by
  rw [reportTree, heval]
  cases h : settings.mode with
  | treeOnly => exact absurd h hmode
  | valueAndTree | valueOnly => exact failed_silent ..

theorem reportTree_valueOnly {tree : Node} {value : Value} {env : Environment}
    (hmode : settings.mode = .valueOnly) (heval : evaluateIn {} tree = (.ok value, env)) :
    reportTree memory settings (fun _ _ => "") "" tree =
      ⟨"The result is:\n" ++ env.written ++ value.display ++ "\n", "", .exit 0⟩ := by
  rw [reportTree, heval, hmode]
  simp only [String.append_empty, if_true]

theorem reportTree_valueAndTree {tree : Node} {value : Value} {env : Environment}
    (hmode : settings.mode = .valueAndTree) (heval : evaluateIn {} tree = (.ok value, env)) :
    reportTree memory settings (fun _ _ => "") "" tree =
      listTree memory settings
        ("The result is:\n" ++ env.written ++ value.display ++ "\n" ++ "\n") "" tree := by
  rw [reportTree, heval, hmode]
  simp only [String.append_empty, reduceCtorEq, if_false]

theorem report_of_run {folder : Folder} {stdin : List UInt8}
    (h : request surroundings arguments = .ok (.run settings)) :
    report memory surroundings arguments folder stdin =
      reportRun memory settings (sourceBytes folder stdin settings.source) := by
  rw [report, h]

theorem interpret_of_error {engine : Engine} {source : String} {fault : ParseFault}
    (h : parse engine source = .error fault) (env : Environment) :
    interpret engine.name source env = (.error (.parse fault), env) := by
  rw [interpret, parseNamed, Engine.ofName?_name]
  dsimp only
  rw [h]

theorem interpret_of_ok {engine : Engine} {source : String} {tree : Node}
    (h : parse engine source = .ok tree) (env : Environment) :
    interpret engine.name source env = evaluateIn env tree := by
  rw [interpret, parseNamed, Engine.ofName?_name]
  dsimp only
  rw [h]

/-- How the transcripts of a run without the tree, with the tree alone and with both fit
together. -/
structure Composed (memory : Nat) (engine : Engine) (count : Nat) (source : String)
    (value tree both : Transcript) : Prop where
  /-- Without the tree, the command succeeds or reports a failure. -/
  ends : value.ending = .exit 0 ∨ value.ending = .exit 1
  /-- After a success, what was printed and the value are shown, and the tree is shown behind. -/
  shown : value.ending = .exit 0 → ∃ result env,
    interpret engine.name source {} = (.ok result, env) ∧
      value.stdout = "The result is:\n" ++ env.written ++ result.display ++ "\n" ∧
      value.stderr = "" ∧ both.stdout = value.stdout ++ "\n" ++ tree.stdout ∧ both.stderr = "" ∧
      both.ending = tree.ending
  /-- After a failure no tree is shown, and what was printed before stays. -/
  failed : value.ending = .exit 1 → both = value ∧ ∃ failure env,
    interpret engine.name source {} = (.error failure, env) ∧
      value.stderr = "error: " ++ failure.message ++ "\n" ∧
      value.stdout = match failure with
        | .parse _ => ""
        | _ => "The result is:\n" ++ env.written
  /-- The tree alone fails just if there is none, in the same words. -/
  unparsed : tree.ending = .exit 1 ↔ ∃ fault, parse engine source = .error fault
  unparsed_eq : tree.ending = .exit 1 → tree.stdout = "" ∧ tree.stderr = value.stderr
  /-- A tree is listed to its end if its margins can be written.  If one cannot, the first such
  margin ends the command. -/
  listed : ∀ node, parse engine source = .ok node → tree.stderr = "" ∧
    (MarginsFit memory count node ∧ tree.ending = .exit 0 ∨
      ∃ fault, BreaksOff memory count node fault ∧
        tree.ending = .breakdown (.outline (.margin fault)))

namespace Composed

variable {engine : Engine} {count : Nat} {source : String} {tree : Node}

theorem of_error {fault : ParseFault} (h : parse engine source = .error fault)
    {transcript : Transcript}
    (ht : transcript = ⟨"", "error: " ++ fault.message ++ "\n", .exit 1⟩) :
    Composed memory engine count source transcript transcript transcript where
  ends := .inr (by rw [ht])
  shown hends := by
    rw [ht] at hends
    cases hends
  failed _ := ⟨rfl, .parse fault, {}, interpret_of_error h {}, by rw [ht]; rfl, by rw [ht]⟩
  unparsed := ⟨fun _ => ⟨fault, h⟩, fun _ => by rw [ht]⟩
  unparsed_eq _ := ⟨by rw [ht], rfl⟩
  listed node hnode := by
    rw [h] at hnode
    cases hnode

variable {settings : Settings} {env : Environment}

theorem of_fault (hindent : settings.indent = some count)
    (h : parse engine source = .ok tree) {fault : Fault}
    (heval : evaluateIn {} tree = (.error (.eval fault), env)) {transcript : Transcript}
    (ht : transcript =
      ⟨"The result is:\n" ++ env.written, "error: " ++ fault.message ++ "\n", .exit 1⟩) :
    Composed memory engine count source transcript (listTree memory settings "" "" tree)
      transcript where
  ends := .inr (by rw [ht])
  shown hends := by
    rw [ht] at hends
    cases hends
  failed _ := ⟨rfl, .eval fault, env, (interpret_of_ok h {}).trans heval, by rw [ht]; rfl,
    by rw [ht]⟩
  unparsed := iff_of_false (ending_listTree_ne _ _ _ _ _) (by simp [h])
  unparsed_eq hends := absurd hends (ending_listTree_ne _ _ _ _ _)
  listed node hnode := by
    obtain rfl : tree = node := Except.ok.inj (h.symm.trans hnode)
    exact listTree_cases hindent h

theorem of_value (hindent : settings.indent = some count)
    (h : parse engine source = .ok tree) {result : Value}
    (heval : evaluateIn {} tree = (.ok result, env)) {shown : String}
    (hs : shown = "The result is:\n" ++ env.written ++ result.display ++ "\n") :
    Composed memory engine count source ⟨shown, "", .exit 0⟩ (listTree memory settings "" "" tree)
      (listTree memory settings (shown ++ "\n") "" tree) where
  ends := .inl rfl
  shown _ := by
    refine ⟨result, env, (interpret_of_ok h {}).trans heval, hs, rfl, ?_⟩
    rw [listTree_eq]
    exact ⟨rfl, rfl, rfl⟩
  failed hends := by cases hends
  unparsed := iff_of_false (ending_listTree_ne _ _ _ _ _) (by simp [h])
  unparsed_eq hends := absurd hends (ending_listTree_ne _ _ _ _ _)
  listed node hnode := by
    obtain rfl : tree = node := Except.ok.inj (h.symm.trans hnode)
    exact listTree_cases hindent h

end Composed

/-- The transcripts of a readable source fit together.  The run that shows both is that of the
arguments, and the others have one more option in front. -/
theorem composed_modes {folder : Folder} {stdin : List UInt8} {engine : Engine} {count : Nat}
    {source : String} (hrequest : request surroundings arguments = .ok (.run settings))
    (hopen : settings.mode = .valueAndTree)
    (hreads : settings.Reads folder stdin engine count source) :
    Composed memory engine count source
      (report memory surroundings (Flag.noTree.longName :: arguments) folder stdin)
      (report memory surroundings (Flag.treeOnly.longName :: arguments) folder stdin)
      (report memory surroundings arguments folder stdin) := by
  have hvalue := request_longName .noTree (by decide) (by decide) rfl hrequest hopen
  have htree := request_longName .treeOnly (by decide) (by decide) rfl hrequest hopen
  rw [report_of_run hvalue, report_of_run htree, report_of_run hrequest]
  cases hparse : parse engine source with
  | error fault =>
    rw [(hreads.inMode .valueOnly).reportRun_of_error hparse,
      (hreads.inMode .treeOnly).reportRun_of_error hparse, hreads.reportRun_of_error hparse]
    exact .of_error hparse (failed_silent ..)
  | ok tree =>
    rw [(hreads.inMode .valueOnly).reportRun_of_ok hparse,
      (hreads.inMode .treeOnly).reportRun_of_ok hparse, hreads.reportRun_of_ok hparse]
    have hlist : reportTree memory (settings.inMode .treeOnly) (fun _ _ => "") "" tree =
        listTree memory settings "" "" tree := rfl
    have hboth : settings.mode ≠ .treeOnly := by simp [hopen]
    rw [hlist]
    cases heval : evaluate tree {} with
    | mk result env =>
      cases result with
      | error fault =>
        have hfault : evaluateIn {} tree = (.error (.eval fault), env) := by rw [evaluateIn, heval]
        rw [reportTree_of_error (by simp [Settings.inMode]) hfault,
          reportTree_of_error hboth hfault]
        exact .of_fault hreads.indent_eq hparse hfault rfl
      | ok result =>
        have hresult : evaluateIn {} tree = (.ok result, env) := by rw [evaluateIn, heval]
        rw [reportTree_valueOnly rfl hresult, reportTree_valueAndTree hopen hresult]
        exact .of_value hreads.indent_eq hparse hresult rfl

/-- The bytes of `print 1` and `1/0`, with a carriage return between them. -/
def dividedSource : List UInt8 := [112, 114, 105, 110, 116, 32, 49, 13, 49, 47, 48]

/-- The settings of a listing with terminals, read by the second engine. -/
def dividedSettings : Settings :=
  { engineName := some "earley", tokenTypes := true, indent := some 3, logLevel := some "WARNING" }

theorem composed_dividedSource :
    let arguments := ["--indent=3", "--parser", "earley", "--token-types"]
    request {} arguments = .ok (.run dividedSettings) ∧
      dividedSettings.Reads ⟨[]⟩ dividedSource .earley 3 "print 1\n1/0" ∧
      Composed wordLimit .earley 3 "print 1\n1/0"
        (report wordLimit {} (Flag.noTree.longName :: arguments) ⟨[]⟩ dividedSource)
        (report wordLimit {} (Flag.treeOnly.longName :: arguments) ⟨[]⟩ dividedSource)
        (report wordLimit {} arguments ⟨[]⟩ dividedSource) := by
  intro arguments
  have hrequest : request {} arguments = .ok (.run dividedSettings) := by decide +kernel
  have hreads : dividedSettings.Reads ⟨[]⟩ dividedSource .earley 3 "print 1\n1/0" :=
    ⟨rfl, rfl, by decide, rfl, by cbv⟩
  exact ⟨hrequest, hreads, composed_modes hrequest rfl hreads⟩

/-- The settings with the least indent that does not fit a machine word. -/
def wideSettings : Settings :=
  { engineName := some "lalr", indent := some wordLimit, logLevel := some "WARNING" }

/-- An indent that is accepted can still be beyond all bounds: the value is shown, and the tree is
not, whatever memory there is. -/
theorem tree_breaks_down :
    let arguments := ["--indent", "9223372036854775808"]
    (∀ memory, (report memory {} (Flag.noTree.longName :: arguments) ⟨[]⟩ []).ending = .exit 0) ∧
      ∀ memory, (report memory {} (Flag.treeOnly.longName :: arguments) ⟨[]⟩ []).ending =
        .breakdown (.outline (.margin .uncountable)) := by
  intro arguments
  let program : Node := .rule Rule.program.label [] none
  have hrequest : request {} arguments = .ok (.run wideSettings) := by decide +kernel
  have hreads : wideSettings.Reads ⟨[]⟩ [] .lalr wordLimit "" :=
    ⟨rfl, rfl, by decide, rfl, show sourceText [] = .ok "" by cbv⟩
  have hparse : parse .lalr "" = .ok program := by cbv
  have heval : evaluateIn {} program = (.ok .nil, {}) := by cbv
  constructor
  · intro memory
    rw [report_of_run (request_longName .noTree (by decide) (by decide) rfl hrequest rfl),
      (hreads.inMode .valueOnly).reportRun_of_ok hparse, reportTree_valueOnly rfl heval]
  · intro memory
    have hlines : treeLines memory wideSettings program =
        .error (.outline (.margin .uncountable)) := by
      simp only [treeLines, wideSettings]
      rw [repeat?, if_pos (Or.inr (le_refl (wordLimit : Int)))]
      rfl
    rw [report_of_run (request_longName .treeOnly (by decide) (by decide) rfl hrequest rfl),
      (hreads.inMode .treeOnly).reportRun_of_ok hparse]
    change (listTree memory wideSettings "" "" program).ending = _
    rw [listTree, hlines]

end Reckon.Command
