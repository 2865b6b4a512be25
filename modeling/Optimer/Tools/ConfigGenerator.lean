import Optimer.Common.IniFile

/-! The generator of config files (`tools/config_generator.py`) and what `tools/pms_report.py` reads off the name
of a config. A value is the text that `str` makes of it. -/

namespace Optimer.ConfigGenerator
open CText Ini

/-- What a line of a config is for. -/
inductive Entry
  | section (name : List Char)
  | property (name value : List Char)
  deriving DecidableEq

def Entry.line : Entry → List Char
  | .section name => '[' :: (name ++ [']'])
  | .property name value => name ++ '=' :: value

/-- `Config`, by its lines. -/
abbrev Config := List (List Char)

/-- `Config.write`. -/
def Config.write (config : Config) : List Char := config.flatMap (· ++ ['\n'])

/-- `Config.name`. -/
def Config.name (config : Config) : List Char := [':'].intercalate config

/-- `Section` and `Property`. -/
inductive Node
  | section (name : List Char) (childs : List Node)
  | property (name : List Char) (values : List (List Char)) (childs : List Node)

mutual

/-- `process`: the configs it appends to `config_list`. -/
def Node.process : Node → Config → List Config
  | .section name childs, rootConfig =>
    let config := rootConfig ++ [(Entry.section name).line]
    if childs = [] then [config] else processAll childs config
  | .property name values childs, rootConfig => values.flatMap fun value =>
    let config := rootConfig ++ [(Entry.property name value).line]
    if childs = [] then [config] else processAll childs config

def processAll : List Node → Config → List Config
  | [], _ => []
  | child :: childs, config => child.process config ++ processAll childs config

end

/-- What `str.strip` takes for white space, which is more than `isspace` does. -/
def isWhite (c : Char) : Bool :=
  let n := c.toNat
  9 ≤ n ∧ n ≤ 13 ∨ 28 ≤ n ∧ n ≤ 32 ∨ 0x2000 ≤ n ∧ n ≤ 0x200a ∨
    n ∈ [0x85, 0xa0, 0x1680, 0x2028, 0x2029, 0x202f, 0x205f, 0x3000]

/-- `str.strip`. -/
def strip (s : List Char) : List Char := ((s.dropWhile isWhite).reverse.dropWhile isWhite).reverse

/-- The body of the loop of `parse_task_name` that fills `entries`. -/
def addEntry (entries : List Char → Option (List Char)) (line : List Char) : List Char → Option (List Char) :=
  let parts := line.splitOn '='
  if parts.length = 2 then Function.update entries (strip (parts.getD 0 [])) (some (strip (parts.getD 1 [])))
  else entries

/-- `parse_task_name`: `entries`. -/
def taskEntries (taskName : List Char) : List Char → Option (List Char) :=
  (taskName.splitOn ':').foldl addEntry fun _ => none

/-! ### The settings -/

/-- The entries on a way from the root to a leaf, with one value for every property. -/
inductive Chosen : Node → List Entry → Prop
  | sectionLeaf {name : List Char} : Chosen (.section name []) [.section name]
  | sectionChild {name : List Char} {childs : List Node} {child : Node} {path : List Entry} (hc : child ∈ childs)
      (h : Chosen child path) : Chosen (.section name childs) (.section name :: path)
  | propertyLeaf {name value : List Char} {values : List (List Char)} (hv : value ∈ values) :
      Chosen (.property name values []) [.property name value]
  | propertyChild {name value : List Char} {values : List (List Char)} {childs : List Node} {child : Node}
      {path : List Entry} (hv : value ∈ values) (hc : child ∈ childs) (h : Chosen child path) :
      Chosen (.property name values childs) (.property name value :: path)

/-- No white space at the ends. -/
def Bare (s : List Char) : Prop := (∀ c ∈ s.head?, ¬ isWhite c) ∧ ∀ c ∈ s.getLast?, ¬ isWhite c

/-- Names and values that a line of a config has room for. -/
def Entry.Clean : Entry → Prop
  | .section name => '\n' ∉ name
  | .property name value => (Bare name ∧ '=' ∉ name ∧ '\n' ∉ name ∧ name.head? ≠ some '[') ∧
      Bare value ∧ '=' ∉ value ∧ '\n' ∉ value ∧ value ≠ []

/-- Lines that the name of a task has room for. -/
def Entry.Plain (e : Entry) : Prop := ':' ∉ e.line ∧ ∀ name, e = .section name → '=' ∉ name

def Entry.meaning : Entry → Meaning
  | .section name => .section name
  | .property name value => .assign name value

def Entry.value? (key : List Char) : Entry → Option (List Char)
  | .section _ => none
  | .property name value => if name = key then some value else none

variable {e : Entry} {path : List Entry} {key name value : List Char} {c config : Config}

/-! ### The configs -/

/-- What `process` appends below a node. -/
theorem mem_below {childs : List Node}
    (h : c ∈ processAll childs config ↔
      ∃ child ∈ childs, ∃ path, Chosen child path ∧ c = config ++ path.map Entry.line) :
    c ∈ (if childs = [] then [config] else processAll childs config) ↔
      childs = [] ∧ c = config ∨ ∃ child ∈ childs, ∃ path, Chosen child path ∧ c = config ++ path.map Entry.line := by
  split
  · next hnil =>
    subst hnil
    simp
  · next hne => rw [h, or_iff_right fun hc => hne hc.1]

theorem mem_process (node : Node) : ∀ config c,
    c ∈ node.process config ↔ ∃ path, Chosen node path ∧ c = config ++ path.map Entry.line := by
  refine @Node.rec
    (fun node => ∀ config c, c ∈ node.process config ↔ ∃ path, Chosen node path ∧ c = config ++ path.map Entry.line)
    (fun childs => ∀ config c, c ∈ processAll childs config ↔
      ∃ child ∈ childs, ∃ path, Chosen child path ∧ c = config ++ path.map Entry.line)
    (fun name childs ih config c => ?_) (fun name values childs ih config c => ?_) (fun config c => ?_)
    (fun child childs ihc ih config c => ?_) node
  · rw [Node.process, mem_below (ih _ c)]
    constructor
    · rintro (⟨rfl, rfl⟩ | ⟨child, hc, path, hpath, rfl⟩)
      · exact ⟨_, .sectionLeaf, rfl⟩
      · exact ⟨_, .sectionChild hc hpath, by simp⟩
    · rintro ⟨path, hpath, rfl⟩
      cases hpath with
      | sectionLeaf => exact .inl ⟨rfl, rfl⟩
      | sectionChild hc h => exact .inr ⟨_, hc, _, h, by simp⟩
  · rw [Node.process, List.mem_flatMap]
    simp only
    constructor
    · rintro ⟨value, hv, hc⟩
      rcases (mem_below (ih _ c)).mp hc with ⟨rfl, rfl⟩ | ⟨child, hchild, path, hpath, rfl⟩
      · exact ⟨_, .propertyLeaf hv, rfl⟩
      · exact ⟨_, .propertyChild hv hchild hpath, by simp⟩
    · rintro ⟨path, hpath, rfl⟩
      cases hpath with
      | propertyLeaf hv => exact ⟨_, hv, (mem_below (ih _ _)).mpr (.inl ⟨rfl, rfl⟩)⟩
      | propertyChild hv hc h => exact ⟨_, hv, (mem_below (ih _ _)).mpr (.inr ⟨_, hc, _, h, by simp⟩)⟩
  · simp [processAll]
  · rw [processAll, List.mem_append, ihc, ih]
    simp

theorem ne_nil_of_chosen {node : Node} (h : Chosen node path) : path ≠ [] := by
  cases h <;> exact List.cons_ne_nil _ _

/-! ### What is read -/

theorem isWhite_of_isSpace {c : Char} (h : isSpace c) : isWhite c := by
  have hc : c ∈ [' ', '\t', '\n', '\x0b', '\x0c', '\r'] := of_decide_eq_true h
  simp only [List.mem_cons, List.not_mem_nil, or_false] at hc
  rcases hc with rfl | rfl | rfl | rfl | rfl | rfl <;> decide

theorem Bare.trim_eq (h : Bare name) : trim name = name := by
  have hr : rtrim name = name := by
    simpa using rtrim_append (fun c hc hs => h.2 c hc (isWhite_of_isSpace hs))
      fun c (hc : c ∈ []) => absurd hc List.not_mem_nil
  rw [trim, hr]
  exact ltrim_of_head fun c hc hs => h.1 c hc (isWhite_of_isSpace hs)

theorem Bare.strip_eq (h : Bare name) : strip name = name := by
  have hdrop : ∀ s : List Char, (∀ c ∈ s.head?, ¬ isWhite c) → s.dropWhile isWhite = s := by
    intro s hs
    cases s with
    | nil => rfl
    | cons c s => exact List.dropWhile_cons_of_neg (hs c rfl)
  rw [strip, hdrop name h.1, hdrop _ fun c hc => h.2 c (by rwa [List.head?_reverse] at hc), List.reverse_reverse]

theorem getLast?_section : (Entry.section name).line.getLast? = some ']' := by
  rw [Entry.line, ← List.cons_append]
  exact List.getLast?_concat

theorem Entry.Clean.line_bare (h : e.Clean) : Bare e.line := by
  cases e with
  | «section» name => exact ⟨by simp [line, isWhite], by simp [getLast?_section, isWhite]⟩
  | property name value =>
    obtain ⟨⟨hname, _⟩, hvalue, _, _, hne⟩ := h
    constructor
    · cases name with
      | nil => simp [line, isWhite]
      | cons c name => exact hname.1
    · rw [line, List.getLast?_append_of_ne_nil _ (List.cons_ne_nil _ _)]
      cases value with
      | nil => exact absurd rfl hne
      | cons c value => exact hvalue.2

theorem Entry.Clean.newline_notMem (h : e.Clean) : '\n' ∉ e.line := by
  cases e with
  | «section» name =>
    have hname : '\n' ∉ name := h
    simp [line, hname]
  | property name value =>
    obtain ⟨⟨_, _, hname, _⟩, _, _, hvalue, _⟩ := h
    simp [line, hname, hvalue]

theorem Entry.Clean.count_line (h : (Entry.property name value).Clean) :
    (Entry.property name value).line.count '=' = 1 := by
  obtain ⟨⟨_, hname, _⟩, _, hvalue, _⟩ := h
  rw [line, List.count_append, List.count_cons_self, List.count_eq_zero_of_not_mem hname,
    List.count_eq_zero_of_not_mem hvalue]

/-- A line of the config is read as what it is for. -/
theorem Entry.Clean.read (h : e.Clean) : ¬ Misread (trim e.line) ∧ Ini.meaning (trim e.line) = e.meaning := by
  rw [h.line_bare.trim_eq]
  cases e with
  | «section» name =>
    refine ⟨fun hmis => hmis.1 rfl, ?_⟩
    have hnil : (Entry.section name).line ≠ [] := List.cons_ne_nil _ _
    have hhead : (Entry.section name).line.head? = some '[' := rfl
    rw [Ini.meaning, if_neg hnil, if_pos hhead, if_pos getLast?_section]
    simp [line, Entry.meaning]
  | property name value =>
    have hcount := h.count_line
    obtain ⟨⟨hname, hnoeq, _, hhead⟩, hvalue, hnoeq', _, hne⟩ := h
    have hlast : (Entry.property name value).line.getLast? ≠ some '=' := by
      rw [line, List.getLast?_append_of_ne_nil _ (List.cons_ne_nil _ _)]
      cases value with
      | nil => exact absurd rfl hne
      | cons c value => exact fun heq => hnoeq' (List.mem_of_getLast? heq)
    have hhead' : (Entry.property name value).line.head? ≠ some '[' := by
      cases name with
      | nil => simp [line]
      | cons c name => exact hhead
    refine ⟨fun hmis => hlast hmis.2.1, ?_⟩
    have hall : ∀ c ∈ name, decide (c ≠ '=') = true := fun c hc => decide_eq_true fun heq => hnoeq (heq ▸ hc)
    have hnil : (Entry.property name value).line ≠ [] := by simp [line]
    rw [Ini.meaning, if_neg hnil, if_neg hhead', if_pos hcount, line, List.takeWhile_append_of_pos hall,
      List.dropWhile_append_of_pos hall]
    simp [Entry.meaning, hname.trim_eq, hvalue.trim_eq]

theorem lines_write {config : Config} (h : ∀ l ∈ config, '\n' ∉ l) : lines config.write = config := by
  have happ : lines (config.flatMap (· ++ ['\n']) ++ []) = _ := lines_append h
  simpa [Config.write, lines] using happ

/-- The file that is read from a config. -/
theorem readLines_path (h : ∀ e ∈ path, e.Clean) :
    Tracks (path.map Entry.meaning).reverse (readLines (lines (Config.write (path.map Entry.line)))) := by
  have hnl : ∀ l ∈ path.map Entry.line, '\n' ∉ l := by
    simpa using fun e he => (h e he).newline_notMem
  have hread : ∀ l ∈ path.map Entry.line, ¬ Misread (trim l) := by
    simpa using fun e he => (h e he).read.1
  have hmeaning : (path.map Entry.line).map (Ini.meaning ∘ trim) = path.map Entry.meaning := by
    rw [List.map_map]
    exact List.map_congr_left fun e he => (h e he).read.2
  rw [lines_write hnl, ← hmeaning]
  exact Tracks.readLines hread

/-- What a line adds to the entries of the name of a config. -/
theorem addEntry_line (h : e.Clean) (hplain : e.Plain)
    (entries : List Char → Option (List Char)) (key : List Char) :
    addEntry entries e.line key = (e.value? key).or (entries key) := by
  cases e with
  | «section» name =>
    have hname : '=' ∉ name := hplain.2 name rfl
    have hparts : (Entry.section name).line.splitOn '=' = [(Entry.section name).line] :=
      List.splitOn_eq_singleton (by simp [Entry.line, hname])
    rw [addEntry, hparts]
    rfl
  | property name value =>
    obtain ⟨⟨hname, hnoeq, _⟩, hvalue, hnoeq', _⟩ := h
    have hparts : (Entry.property name value).line.splitOn '=' = [name, value] := by
      rw [Entry.line, List.splitOn_append_cons_self_of_not_mem hnoeq, List.splitOn_eq_singleton hnoeq']
    rw [addEntry, hparts]
    simp only [List.length_cons, List.length_nil, if_pos, List.getD_cons_zero, List.getD_cons_succ, hname.strip_eq,
      hvalue.strip_eq, Entry.value?]
    rcases eq_or_ne name key with rfl | hne
    · simp
    · simp [Function.update_of_ne hne.symm, hne]

/-- The last value of a property. -/
def lastProperty (key : List Char) (path : List Entry) : Option (List Char) :=
  (path.filterMap (Entry.value? key)).getLast?

theorem taskEntries_path (hne : path ≠ []) (h : ∀ e ∈ path, e.Clean ∧ e.Plain) (key : List Char) :
    taskEntries (Config.name (path.map Entry.line)) key = lastProperty key path := by
  have hsplit : (Config.name (path.map Entry.line)).splitOn ':' = path.map Entry.line :=
    List.splitOn_intercalate _ (by simpa using fun e he => (h e he).2.1) (by simpa using hne)
  rw [taskEntries, hsplit]
  clear hne hsplit
  induction path using List.reverseRecOn with
  | nil => rfl
  | append_singleton path e ih =>
    obtain ⟨hpath, he⟩ := List.forall_mem_append.mp h
    obtain ⟨hclean, hplain⟩ := he e (List.mem_singleton_self e)
    rw [List.map_append, List.foldl_append, List.map_cons, List.map_nil, List.foldl_cons, List.foldl_nil,
      addEntry_line hclean hplain, ih hpath, lastProperty, lastProperty, List.filterMap_append]
    cases hv : e.value? key <;> simp [hv]

/-- The configs of a settings tree are its ways to a leaf, each with one value for every property on it; the file
written from a config has just these values, and so has the name of the task if no line of it has a colon. -/
theorem generated_reads (root : Node) (hclean : ∀ path, Chosen root path → ∀ e ∈ path, e.Clean) :
    (∀ config, config ∈ root.process [] ↔ ∃ path, Chosen root path ∧ config = path.map Entry.line) ∧
      ∀ path, Chosen root path →
        (IniFile.ofText (Config.write (path.map Entry.line))).numParseErrors = 0 ∧
          (∀ sectionName key, ((IniFile.ofText (Config.write (path.map Entry.line))).get sectionName).get key =
            lastValue sectionName key (path.map Entry.meaning).reverse) ∧
          ((∀ e ∈ path, e.Plain) →
            ∀ key, taskEntries (Config.name (path.map Entry.line)) key = lastProperty key path) := by
  refine ⟨fun config => by simpa using mem_process root [] config, fun path hpath => ?_⟩
  have T := readLines_path (hclean path hpath)
  refine ⟨?_, T.lookup, fun hplain => taskEntries_path (ne_nil_of_chosen hpath)
    fun e he => ⟨hclean path hpath e he, hplain e he⟩⟩
  have herrors : Meaning.error ∉ (path.map Entry.meaning).reverse := by
    intro hmem
    obtain ⟨e, _, he⟩ := List.mem_map.mp (List.mem_reverse.mp hmem)
    cases e <;> cases he
  exact T.errors.trans (List.count_eq_zero.mpr herrors)

/-- Two containers for one kind of valuation. -/
def containerSettings : Node :=
  .section "general".toList [.property "container_type".toList ["lifo".toList, "priority".toList]
    [.property "valuation_type".toList ["serial".toList] []]]

/-- Two configs, of which the second one has the other container. -/
theorem generated_reads_containers : (containerSettings.process []).length = 2 ∧
    ∀ config ∈ containerSettings.process [],
    (IniFile.ofText (Config.write config)).numParseErrors = 0 ∧
      ((IniFile.ofText (Config.write config)).get "general".toList).get "valuation_type".toList = "serial".toList ∧
      taskEntries config.name "valuation_type".toList = some "serial".toList := by
  have hentries : ∀ path, Chosen containerSettings path →
      lastValue "general".toList "valuation_type".toList (path.map Entry.meaning).reverse = "serial".toList ∧
        lastProperty "valuation_type".toList path = some "serial".toList ∧ ∀ e ∈ path, e.Clean ∧ e.Plain := by
    intro path hpath
    cases hpath with
    | sectionChild hc h =>
      obtain rfl := List.mem_singleton.mp hc
      cases h with
      | propertyChild hv hc h =>
        obtain rfl := List.mem_singleton.mp hc
        cases h with
        | propertyLeaf hv' =>
          obtain rfl := List.mem_singleton.mp hv'
          simp only [List.mem_cons, List.not_mem_nil, or_false] at hv
          refine ⟨rfl, by rcases hv with rfl | rfl <;> rfl, fun e he => ?_⟩
          simp only [List.mem_cons, List.not_mem_nil, or_false] at he
          rcases he with rfl | rfl | rfl <;> rcases hv with rfl | rfl <;>
            simp [Entry.Clean, Entry.Plain, Entry.line, Bare, isWhite]
        | propertyChild _ hc => exact absurd hc List.not_mem_nil
  obtain ⟨hconfigs, hreads⟩ := generated_reads containerSettings fun path hpath e he =>
    ((hentries path hpath).2.2 e he).1
  refine ⟨rfl, fun config hconfig => ?_⟩
  obtain ⟨path, hpath, rfl⟩ := (hconfigs config).mp hconfig
  obtain ⟨hvalue, hproperty, hplain⟩ := hentries path hpath
  obtain ⟨herrors, hget, htask⟩ := hreads path hpath
  exact ⟨herrors, (hget _ _).trans hvalue, (htask (fun e he => (hplain e he).2) _).trans hproperty⟩

end Optimer.ConfigGenerator
