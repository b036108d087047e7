import Reckon.Proofs.Modes

/-!
# Order and spelling of arguments

What the arguments of a run choose depends neither on the order in which the choices are written nor
on how each is spelled: an option may be shortened as long as no other option begins alike, and its
value may be attached or follow.  Every group of arguments is sorted into words that make its own
choice (`Choice.Spelled.exists_words`), and choices about different settings can be made in any
order (`Choice.apply_comm`): `request_spelled`.
-/

namespace Reckon

namespace Numeral

theorem trim_minus (rest : List Char) : ∃ more, trim ('-' :: rest) = '-' :: more := by
  have hfront : ('-' :: rest).dropWhile isBlank = '-' :: rest := rfl
  have hback :
      (rest.reverse ++ ['-']).dropWhile isBlank = rest.reverse.dropWhile isBlank ++ ['-'] := by
    rw [List.dropWhile_append]
    split
    · rename_i hempty
      rw [List.isEmpty_iff.1 hempty]
      rfl
    · rfl
  rw [trim, hfront, List.reverse_cons, hback, List.reverse_append]
  exact ⟨_, rfl⟩

/-- A text with a minus in front is not read as a positive number. -/
theorem head?_ne_minus {text : String} {n : ℤ} (h : toInt? text = some n) (hn : 0 < n) :
    text.toList.head? ≠ some '-' := by
  intro hminus
  obtain ⟨rest, hrest⟩ := List.head?_eq_some_iff.1 hminus
  obtain ⟨more, hmore⟩ := trim_minus rest
  have hprepare : prepare text = (joinDigits false (more.map asciiDigit)).map ('-' :: ·) := by
    rw [prepare, hrest, hmore]
    rfl
  rw [toInt?, hprepare] at h
  cases hdigits : joinDigits false (more.map asciiDigit) with
  | none =>
    rw [hdigits] at h
    cases h
  | some digits =>
    simp only [hdigits, Option.map_some, Option.bind_eq_bind, Option.bind_some, sign, if_true] at h
    split at h
    · obtain ⟨k, hk, rfl⟩ := Option.map_eq_some_iff.1 h
      obtain ⟨digits, -, hdigits⟩ := Option.bind_eq_some_iff.1 hk
      cases hdigits
      omega
    · cases h

end Numeral

namespace Command

/-! ## Names of options -/

/-- A beginning of an option's long name that no other option's has. -/
def Flag.NamedBy (flag : Flag) (name : String) : Prop :=
  name.toList <+: flag.longName.toList ∧
    ∀ other : Flag, name.toList <+: other.longName.toList → other = flag

theorem Flag.namedBy_iff {flag : Flag} {name : String} :
    flag.NamedBy name ↔ startingWith name.toList = [flag] := by
  have hmem (other : Flag) :
      other ∈ startingWith name.toList ↔ name.toList <+: other.longName.toList := by
    have hall : other ∈ all := by cases other <;> decide
    rw [startingWith, List.mem_filter, List.isPrefixOf_iff_prefix, and_iff_right hall]
  have hself : all.filter (· == flag) = [flag] := by cases flag <;> rfl
  constructor
  · rintro ⟨hflag, honly⟩
    rw [startingWith, ← hself]
    refine List.filter_congr fun other _ => ?_
    rw [Bool.eq_iff_iff, List.isPrefixOf_iff_prefix, beq_iff_eq]
    exact ⟨honly other, fun hother => hother ▸ hflag⟩
  · intro h
    simp only [Flag.NamedBy, ← hmem, h, List.mem_singleton]
    exact ⟨trivial, fun _ hother => hother⟩

instance (flag : Flag) (name : String) : Decidable (flag.NamedBy name) :=
  decidable_of_iff _ Flag.namedBy_iff.symm

namespace Flag.NamedBy

variable {flag : Flag} {name : String}

/-- All options begin with two dashes, so that a name has more than these. -/
theorem exists_toList (h : flag.NamedBy name) :
    ∃ c rest, name.toList = '-' :: '-' :: c :: rest := by
  have hdashes (flag : Flag) : ['-', '-'] <+: flag.longName.toList := by
    cases flag <;> exact ⟨_, rfl⟩
  have hmore : ¬ name.toList <+: ['-', '-'] := by
    intro hshort
    have hhelp := h.2 .help (hshort.trans (hdashes .help))
    have hparser := h.2 .parser (hshort.trans (hdashes .parser))
    rw [← hhelp] at hparser
    cases hparser
  obtain hshort | ⟨rest, hrest⟩ := List.prefix_or_prefix_of_prefix h.1 (hdashes flag)
  · exact absurd hshort hmore
  · cases rest with
    | nil =>
      rw [← hrest] at hmore
      exact absurd List.prefix_rfl hmore
    | cons c rest => exact ⟨c, rest, hrest.symm⟩

theorem ne_equals (h : flag.NamedBy name) : ∀ c ∈ name.toList, (c != '=') = true := by
  have hname : flag.longName.toList.all (· != '=') := by cases flag <;> rfl
  exact fun c hc => List.all_eq_true.1 hname c (h.1.subset hc)

theorem ofName?_cases (h : flag.NamedBy name) :
    ofName? name = none ∨ ofName? name = some flag := by
  obtain ⟨c, rest, hname⟩ := h.exists_toList
  have hshort : name ≠ shortHelp := by
    rintro rfl
    cases hname
  cases hfound : ofName? name with
  | none => exact .inl rfl
  | some other =>
    rw [ofName?, if_neg hshort] at hfound
    have hother : other.longName = name := by simpa using List.find?_some hfound
    exact .inr (by rw [h.2 other (hother ▸ List.prefix_rfl)])

end Flag.NamedBy

/-! ## Sorting -/

section

variable {flag : Flag} {name : String}

theorem splitValue_of_ne {cs : List Char} (h : ∀ c ∈ cs, (c != '=') = true) :
    splitValue cs = (cs, none) := by
  rw [splitValue, List.dropWhile_eq_nil_iff.2 h]

theorem splitValue_append {cs : List Char} (h : ∀ c ∈ cs, (c != '=') = true) (value : List Char) :
    splitValue (cs ++ '=' :: value) = (cs, some value) := by
  have hdrop : (cs ++ '=' :: value).dropWhile (· != '=') = '=' :: value :=
    List.dropWhile_append_of_pos h
  have htake : (cs ++ '=' :: value).takeWhile (· != '=') = cs ++ [] :=
    List.takeWhile_append_of_pos h
  rw [List.append_nil] at htake
  simp only [splitValue, hdrop, htake]

theorem sortDashed_eq (h : flag.NamedBy name) {argument : String} {cs rest : List Char}
    {value : Option (List Char)} (hcs : cs = '-' :: '-' :: rest)
    (hsplit : splitValue cs = (name.toList, value)) :
    sortDashed argument cs = .ok (.option flag (value.map String.ofList)) := by
  obtain ⟨c, more, hname⟩ := h.exists_toList
  have hshort : name.toList ≠ Flag.shortHelp.toList := by
    rw [hname]
    simp [Flag.shortHelp]
  subst hcs
  simp only [sortDashed, hsplit, String.ofList_toList, Flag.namedBy_iff.1 h]
  obtain hnone | hsome := h.ofName?_cases
  · rw [hnone]
  · cases value with
    | none => rw [hsome]
    | some value => simp only [hsome, hshort, if_false, Option.map_some]

theorem sortArgument_name (h : flag.NamedBy name) :
    sortArgument name = .ok (.option flag none) := by
  obtain ⟨c, rest, hname⟩ := h.exists_toList
  rw [sortArgument]
  obtain hnone | hsome := h.ofName?_cases
  · have hsplit : splitValue ('-' :: '-' :: c :: rest) = (name.toList, none) := by
      rw [← hname]
      exact splitValue_of_ne h.ne_equals
    simp only [hnone, hname]
    exact sortDashed_eq h rfl hsplit
  · rw [hsome]

theorem Flag.ofName?_eq_none {text : String} (hshort : text ≠ shortHelp)
    (hlong : ∀ flag : Flag, text ≠ flag.longName) : ofName? text = none := by
  rw [ofName?, if_neg hshort, List.find?_eq_none]
  intro flag _ hflag
  exact hlong flag (beq_iff_eq.1 hflag).symm

theorem sortArgument_attached (h : flag.NamedBy name) (value : String) :
    sortArgument (name ++ "=" ++ value) = .ok (.option flag (some value)) := by
  obtain ⟨c, rest, hname⟩ := h.exists_toList
  have htext : (name ++ "=" ++ value).toList =
      '-' :: '-' :: (c :: rest ++ '=' :: value.toList) := by
    simp [hname]
  have hnone : Flag.ofName? (name ++ "=" ++ value) = none := by
    have hequals {text : String} (htext : text.toList.all (· != '=')) :
        name ++ "=" ++ value ≠ text := by
      rintro rfl
      simp at htext
    exact Flag.ofName?_eq_none (hequals rfl) fun flag => hequals (by cases flag <;> rfl)
  have hsplit : splitValue ('-' :: '-' :: (c :: rest ++ '=' :: value.toList)) =
      (name.toList, some value.toList) := by
    rw [← splitValue_append h.ne_equals, hname]
    rfl
  simp only [sortArgument, hnone, htext]
  rw [sortDashed_eq h rfl hsplit, Option.map_some, String.ofList_toList]

theorem sortArgument_operand {text : String} (h : text = "-" ∨ text.toList.head? ≠ some '-') :
    sortArgument text = .ok (.operand text) := by
  obtain rfl | h := h
  · rfl
  · have hnone : Flag.ofName? text = none := by
      refine Flag.ofName?_eq_none ?_ fun flag => ?_
      · rintro rfl
        exact h rfl
      · rintro rfl
        cases flag <;> exact h rfl
    cases hchars : text.toList with
    | nil => simp only [sortArgument, hnone, hchars]
    | cons c rest =>
      have hminus : c ≠ '-' := by simpa [hchars] using h
      simp [sortArgument, hnone, hchars, hminus]

end

/-! ## Choices -/

/-- A text that is read as a positive whole number. -/
structure Indentation where
  text : String
  count : Nat
  reads : Numeral.toInt? text = some (count : Int)
  pos : 0 < count

/-- A text that does not start with a minus. -/
abbrev Plain := { text : String // text.toList.head? ≠ some '-' }

/-- A path that does not start with a minus, or a single minus for standard input. -/
abbrev SourceName := { text : String // text = "-" ∨ text.toList.head? ≠ some '-' }

/-- A choice that arguments can make. -/
inductive Choice where
  | engine (engine : Engine)
  | valueOnly
  | treeOnly
  | tokenTypes
  | indent (indentation : Indentation)
  | logLevel (level : Plain)
  | source (name : SourceName)

/-- What a choice is about. -/
inductive Topic where
  | engine
  | mode
  | tokenTypes
  | indent
  | logLevel
  | source
  deriving DecidableEq

namespace Choice

/-- What a choice is about.  Both modes are about the same. -/
def topic : Choice → Topic
  | .engine _ => .engine
  | .valueOnly | .treeOnly => .mode
  | .tokenTypes => .tokenTypes
  | .indent _ => .indent
  | .logLevel _ => .logLevel
  | .source _ => .source

/-- The settings with a choice made. -/
def apply (settings : Settings) : Choice → Settings
  | .engine chosen => { settings with engineName := some chosen.name }
  | .valueOnly => { settings with mode := .valueOnly }
  | .treeOnly => { settings with mode := .treeOnly }
  | .tokenTypes => { settings with tokenTypes := true }
  | .indent indentation => { settings with indent := some indentation.count }
  | .logLevel level => { settings with logLevel := some level.1 }
  | .source name => { settings with source := some name.1 }

/-- The option that makes a choice, and its value if it takes one. -/
def option? : Choice → Option (Flag × Option String)
  | .engine chosen => some (.parser, some chosen.name)
  | .valueOnly => some (.noTree, none)
  | .treeOnly => some (.treeOnly, none)
  | .tokenTypes => some (.tokenTypes, none)
  | .indent indentation => some (.indent, some indentation.text)
  | .logLevel level => some (.logLevel, some level.1)
  | .source _ => none

/-- The arguments that make a choice: the name of an option, its value behind it or attached to it,
or the source itself. -/
inductive Spelled : Choice → List String → Prop
  | name {choice : Choice} {flag : Flag} {name : String} (h : choice.option? = some (flag, none))
      (hname : flag.NamedBy name) : Spelled choice [name]
  | apart {choice : Choice} {flag : Flag} {name value : String}
      (h : choice.option? = some (flag, some value)) (hname : flag.NamedBy name) :
      Spelled choice [name, value]
  | attached {choice : Choice} {flag : Flag} {name value : String}
      (h : choice.option? = some (flag, some value)) (hname : flag.NamedBy name) :
      Spelled choice [name ++ "=" ++ value]
  | source (name : SourceName) : Spelled (.source name) [name.1]

theorem apply_comm {a b : Choice} (h : a.topic ≠ b.topic) (settings : Settings) :
    apply (apply settings a) b = apply (apply settings b) a := by
  cases a <;> cases b <;> first | rfl | exact absurd rfl h

end Choice

/-- Whether settings leave open what can be chosen only once. -/
def Topic.IsOpen (settings : Settings) : Topic → Prop
  | .mode => settings.mode = .valueAndTree
  | .source => settings.source = none
  | _ => True

namespace Choice

variable {choice : Choice} {flag : Flag} {value : String} {settings : Settings}

theorem isOpen_apply {topic : Topic} (h : choice.topic ≠ topic) (hopen : topic.IsOpen settings) :
    topic.IsOpen (choice.apply settings) := by
  cases choice <;> cases topic <;> first | exact hopen | exact absurd rfl h

theorem setFlag_eq (h : choice.option? = some (flag, none)) (hopen : choice.topic.IsOpen settings) :
    settings.setFlag flag = .ok (choice.apply settings) := by
  cases choice <;> cases h
  · exact if_neg (by rw [show settings.mode = .valueAndTree from hopen]; decide)
  · exact if_neg (by rw [show settings.mode = .valueAndTree from hopen]; decide)
  · rfl

theorem head?_value (h : choice.option? = some (flag, some value)) :
    value.toList.head? ≠ some '-' := by
  cases choice <;> cases h
  · rename_i engine
    cases engine <;> decide
  · rename_i indentation
    exact Numeral.head?_ne_minus indentation.reads (by exact_mod_cast indentation.pos)
  · rename_i level
    exact level.2

theorem setValue_eq (h : choice.option? = some (flag, some value)) :
    settings.setValue flag value = .ok (choice.apply settings) := by
  have hkeep : keepValue value = some value := by
    refine if_neg ?_
    rintro rfl
    exact head?_value h rfl
  cases choice <;> cases h
  · rename_i engine
    cases engine <;> rfl
  · rename_i indentation
    have hread : readIndent indentation.text = .ok indentation.count := by
      have hpos := indentation.pos
      rw [readIndent, indentation.reads]
      exact if_neg (by omega)
    simp only [Settings.setValue, hkeep]
    show (some <$> readIndent indentation.text >>= _) = _
    rw [hread]
    rfl
  · simp only [Settings.setValue, hkeep]
    rfl

/-- Some arguments become words that make a choice, whatever follows. -/
def MadeBy (choice : Choice) (group : List String) (words : List Word) : Prop :=
  (∀ {rest more behind}, sortArguments rest = .ok (more, behind) →
    sortArguments (group ++ rest) = .ok (words ++ more, behind)) ∧
  ∀ (progress : Progress) (behind : Option (List String)) (more : List Word),
    choice.topic.IsOpen progress.settings →
      ∃ sourceLast, progress.run behind (words ++ more) =
        Progress.run ⟨choice.apply progress.settings, progress.extras, sourceLast⟩ behind more

theorem Spelled.exists_words {group : List String} (h : choice.Spelled group) :
    ∃ words, choice.MadeBy group words := by
  cases h with
  | @name choice flag name h hname =>
    refine ⟨[.option flag none], sortArguments_cons (sortArgument_name hname), ?_⟩
    intro progress behind more hopen
    have hhelp : flag ≠ .help := by
      cases choice <;> cases h <;> decide
    have htakes : ¬ flag.takesValue := by
      cases choice <;> cases h <;> decide
    rw [List.singleton_append, Progress.run_flag hhelp htakes, setFlag_eq h hopen]
    exact ⟨_, rfl⟩
  | @apart choice flag name value h hname =>
    refine ⟨[.option flag none, .operand value], ?_, ?_⟩
    · intro rest more behind hrest
      have hvalue := sortArguments_cons (sortArgument_operand (.inr (head?_value h))) hrest
      exact sortArguments_cons (sortArgument_name hname) hvalue
    · intro progress behind more _
      have hhelp : flag ≠ .help := by
        cases choice <;> cases h <;> decide
      have htakes : flag.takesValue := by
        cases choice <;> cases h <;> decide
      rw [List.cons_append, List.singleton_append, Progress.run, if_pos htakes, setValue_eq h]
      · exact ⟨_, rfl⟩
      · exact hhelp
  | @attached choice flag name value h hname =>
    refine ⟨[.option flag (some value)], sortArguments_cons (sortArgument_attached hname value), ?_⟩
    intro progress behind more _
    rw [List.singleton_append, Progress.run, setValue_eq h]
    exact ⟨_, rfl⟩
  | source name =>
    refine ⟨[.operand name.1], sortArguments_cons (sortArgument_operand name.2), ?_⟩
    intro progress behind more hopen
    rw [List.singleton_append, Progress.run, Progress.takeOperand,
      show progress.settings.source = none from hopen]
    exact ⟨_, rfl⟩

end Choice

/-- Arguments that make choices one behind the other. -/
def Spelled (choices : List Choice) (arguments : List String) : Prop :=
  ∃ groups, List.Forall₂ Choice.Spelled choices groups ∧ arguments = groups.flatten

/-- Choices about different settings are all made. -/
theorem Spelled.run_eq {choices : List Choice} {arguments : List String}
    (h : Spelled choices arguments) (honce : (choices.map Choice.topic).Nodup) :
    ∃ words, sortArguments arguments = .ok (words, none) ∧
      ∀ settings : Settings, (∀ choice ∈ choices, choice.topic.IsOpen settings) →
        ∀ sourceLast, Progress.run ⟨settings, [], sourceLast⟩ none words =
          .ok (.run (choices.foldl Choice.apply settings)) := by
  obtain ⟨groups, hgroups, rfl⟩ := h
  induction hgroups with
  | nil => exact ⟨[], rfl, fun _ _ _ => rfl⟩
  | @cons choice group choices groups hspelled _ ih =>
    rw [List.map_cons, List.nodup_cons] at honce
    obtain ⟨front, hsort, hrun⟩ := hspelled.exists_words
    obtain ⟨words, hwords, hrest⟩ := ih honce.2
    refine ⟨front ++ words, hsort hwords, fun settings hopen sourceLast => ?_⟩
    obtain ⟨next, hnext⟩ := hrun ⟨settings, [], sourceLast⟩ none words (hopen choice (by simp))
    rw [hnext]
    refine hrest _ (fun other hother => ?_) next
    have hdifferent : choice.topic ≠ other.topic := by
      intro hsame
      exact honce.1 (hsame ▸ List.mem_map_of_mem hother)
    exact Choice.isOpen_apply hdifferent (hopen other (by simp [hother]))

theorem foldl_apply_perm {choices order : List Choice} (h : order.Perm choices)
    (honce : (choices.map Choice.topic).Nodup) (settings : Settings) :
    order.foldl Choice.apply settings = choices.foldl Choice.apply settings := by
  refine (h.symm.foldl_eq' (fun a ha b hb settings => ?_) settings).symm
  by_cases hsame : a.topic = b.topic
  · rw [List.inj_on_of_nodup_map honce ha hb hsame]
  · exact Choice.apply_comm hsame settings

theorem request_of_spelled {choices : List Choice} {arguments : List String}
    (h : Spelled choices arguments) (honce : (choices.map Choice.topic).Nodup)
    (surroundings : Surroundings) :
    request surroundings arguments =
      .ok (.run (choices.foldl Choice.apply surroundings.settings)) := by
  obtain ⟨words, hsort, hrun⟩ := h.run_eq honce
  rw [request, hsort]
  refine hrun _ (fun choice _ => ?_) false
  cases choice <;> first | rfl | trivial

/-- Arguments that make each choice at most once are accepted, and ask for just what is chosen.
Whatever the order of the choices and the spelling of each, the command does the same. -/
theorem request_spelled (surroundings : Surroundings) {choices : List Choice}
    (honce : (choices.map Choice.topic).Nodup) {arguments : List String}
    (h : Spelled choices arguments) :
    request surroundings arguments =
        .ok (.run (choices.foldl Choice.apply surroundings.settings)) ∧
      ∀ order, order.Perm choices → ∀ others, Spelled order others →
        request surroundings others = request surroundings arguments ∧
        ∀ memory folder stdin, report memory surroundings others folder stdin =
          report memory surroundings arguments folder stdin := by
  have hchosen := request_of_spelled h honce surroundings
  refine ⟨hchosen, fun order horder others hothers => ?_⟩
  have hother := request_of_spelled hothers ((horder.map _).nodup_iff.2 honce) surroundings
  rw [foldl_apply_perm horder honce] at hother
  refine ⟨hother.trans hchosen.symm, fun memory folder stdin => ?_⟩
  rw [report_of_run hother, report_of_run hchosen]

/-- The tree of a file with three blanks for each level, read by the other engine. -/
def wideTree : List Choice :=
  [.engine .earley, .treeOnly, .tokenTypes, .indent ⟨" 3", 3, by decide +kernel, by decide⟩,
    .source ⟨"notes", by decide⟩]

theorem spelled_wideTree : Spelled wideTree
    ["--parser", "earley", "--tree-only", "--token-types", "--indent", " 3", "notes"] :=
  ⟨[["--parser", "earley"], ["--tree-only"], ["--token-types"], ["--indent", " 3"], ["notes"]],
    .cons (.apart rfl (by decide)) <| .cons (.name rfl (by decide)) <|
      .cons (.name rfl (by decide)) <| .cons (.apart rfl (by decide)) <|
      .cons (.source _) .nil, rfl⟩

theorem spelled_reverse_wideTree : Spelled wideTree.reverse
    ["notes", "--i= 3", "--to", "--tr", "--par=earley"] :=
  ⟨[["notes"], ["--i" ++ "=" ++ " 3"], ["--to"], ["--tr"], ["--par" ++ "=" ++ "earley"]],
    .cons (.source _) <| .cons (.attached rfl (by decide)) <|
      .cons (.name rfl (by decide)) <| .cons (.name rfl (by decide)) <|
      .cons (.attached rfl (by decide)) .nil, rfl⟩

theorem request_wideTree :
    (wideTree.map Choice.topic).Nodup ∧
      request {} ["notes", "--i= 3", "--to", "--tr", "--par=earley"] =
        .ok (.run
          { engineName := some "earley"
            mode := .treeOnly
            tokenTypes := true
            indent := some 3
            logLevel := some "WARNING"
            source := some "notes" }) := by
  have honce : (wideTree.map Choice.topic).Nodup := by decide
  have h := request_spelled {} honce spelled_wideTree
  exact ⟨honce, (h.2 _ wideTree.reverse_perm _ spelled_reverse_wideTree).1.trans h.1⟩

end Command

end Reckon
