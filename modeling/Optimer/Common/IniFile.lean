import Mathlib.Data.List.Count
import Mathlib.Data.List.Induction
import Mathlib.Logic.Function.Basic
import Optimer.Common.AlgoString

/-! `IniFile`. A `std::map` is the function that finds its values. -/

namespace Optimer.Ini
open CText

/-! ### `IniSection` and `IniFile` -/

/-- `IniSection`, by its `key_values_`. -/
abbrev IniSection := List Char → Option (List Char)

/-- `IniSection::operator[] const`. -/
def IniSection.get (sec : IniSection) (key : List Char) : List Char := (sec key).getD []

theorem IniSection.get_of_some {sec : IniSection} {key value : List Char} (h : sec key = some value) :
    sec.get key = value := by
  rw [IniSection.get, h]
  rfl

theorem IniSection.get_of_none {sec : IniSection} {key : List Char} (h : sec key = none) : sec.get key = [] := by
  rw [IniSection.get, h]
  rfl

structure IniFile where
  sections : List Char → Option IniSection
  numParseErrors : ℕ

/-- `IniFile::operator[] const`; `empty_section_` where there is no such section. -/
def IniFile.get (ini : IniFile) (sectionName : List Char) : IniSection :=
  (ini.sections sectionName).getD fun _ => none

/-- `sections_[section_name][key] = value`, which makes what is not there. -/
def IniFile.set (ini : IniFile) (sectionName key value : List Char) : IniFile :=
  { ini with sections :=
      Function.update ini.sections sectionName (some (Function.update (ini.get sectionName) key value)) }

def defaultSectionName : List Char := "default".toList

/-- The local variables of the constructor. -/
structure State where
  sectionName : List Char
  ini : IniFile

def State.error (s : State) : State :=
  { s with ini := { s.ini with numParseErrors := s.ini.numParseErrors + 1 } }

/-- The body of the loop over the lines. -/
def readLine (s : State) (line : List Char) : State :=
  let line := trim line
  if line.head? = some '[' then
    if line.getLast? = some ']' then { s with sectionName := (line.drop 1).take (line.length - 2) }
    else s.error
  else if line ≠ [] then
    match split line '=' with
    | [key, value] => { s with ini := s.ini.set s.sectionName (trim key) (trim value) }
    | _ => s.error
  else s

/-- The constructor after some lines of the stream. -/
def readLines (ls : List (List Char)) : State :=
  ls.foldl readLine ⟨defaultSectionName, ⟨fun _ => none, 0⟩⟩

/-- `IniFile::IniFile`. -/
def IniFile.ofText (text : List Char) : IniFile := (readLines (lines text)).ini

/-! ### The grammar -/

/-- What a line is for. -/
inductive Meaning
  | blank
  | section (name : List Char)
  | assign (key value : List Char)
  | error
  deriving DecidableEq

/-- The meaning of a trimmed line. -/
def meaning (line : List Char) : Meaning :=
  if line = [] then .blank
  else if line.head? = some '[' then
    if line.getLast? = some ']' then .section line.tail.dropLast else .error
  else if line.count '=' = 1 then
    .assign (trim (line.takeWhile (· ≠ '='))) (trim (line.dropWhile (· ≠ '=')).tail)
  else .error

/-- The section after some lines. -/
def currentSection : List Meaning → List Char
  | [] => defaultSectionName
  | .section name :: _ => name
  | _ :: ms => currentSection ms

/-- The value of a key after some lines, the last of them first: the last one assigned, or nothing. -/
def lastValue (sectionName key : List Char) : List Meaning → List Char
  | [] => []
  | .assign k value :: ms =>
    if currentSection ms = sectionName ∧ k = key then value else lastValue sectionName key ms
  | _ :: ms => lastValue sectionName key ms

/-- What the file has after some lines is what they mean. -/
structure Agrees (ini : IniFile) (ls : List (List Char)) : Prop where
  lookup : ∀ sectionName key, (ini.get sectionName).get key =
    lastValue sectionName key (ls.map (meaning ∘ trim)).reverse
  errors : ini.numParseErrors = (ls.map (meaning ∘ trim)).count .error

/-- A trimmed line that the constructor takes the wrong way: the `=` at its end makes no field of its
own, so that a single one assigns nothing and a second one is not seen. -/
def Misread (line : List Char) : Prop :=
  line.head? ≠ some '[' ∧ line.getLast? = some '=' ∧ (line.count '=' = 1 ∨ line.count '=' = 2)

variable {line key value : List Char} {s : State} {ini : IniFile} {ms : List Meaning}

/-! ### One line -/

theorem IniFile.get_set {sec key' sec' : List Char} : ((ini.set sec key value).get sec').get key' =
    if sec = sec' ∧ key = key' then value else (ini.get sec').get key' := by
  by_cases hs : sec' = sec
  · subst hs
    by_cases hk : key' = key
    · simp [IniFile.get, IniFile.set, IniSection.get, hk]
    · simp [IniFile.get, IniFile.set, IniSection.get, Function.update_of_ne hk, Ne.symm hk]
  · simp [IniFile.get, IniFile.set, Function.update_of_ne hs, Ne.symm hs]

/-- A line with one `=` and something after it has two fields. -/
theorem split_of_count (hcount : line.count '=' = 1) (hlast : line.getLast? ≠ some '=') :
    split line '=' = [line.takeWhile (· ≠ '='), (line.dropWhile (· ≠ '=')).tail] := by
  obtain ⟨key, rest, rfl, hkey⟩ := List.eq_append_cons_of_mem (List.count_pos_iff.mp (by omega : 0 < line.count '='))
  have hrest : '=' ∉ rest := by
    rw [List.count_append, List.count_eq_zero_of_not_mem hkey, List.count_cons_self] at hcount
    exact List.count_eq_zero.mp (by omega)
  have hne : rest ≠ [] := by
    rintro rfl
    exact hlast List.getLast?_concat
  have hall : ∀ c ∈ key, decide (c ≠ '=') = true := fun c hc =>
    decide_eq_true fun heq => hkey (heq ▸ hc)
  rw [split, fields_cons hkey, fields_last hrest hne, List.takeWhile_append_of_pos hall,
    List.dropWhile_append_of_pos hall]
  simp

theorem readLine_fields (hne : trim line ≠ []) (hhead : (trim line).head? ≠ some '[')
    (h : split (trim line) '=' = [key, value]) :
    readLine s line = { s with ini := s.ini.set s.sectionName (trim key) (trim value) } := by
  simp only [readLine, hhead, hne, h, if_false, ne_eq, not_false_eq_true, if_true]

theorem readLine_error (hne : trim line ≠ []) (hhead : (trim line).head? ≠ some '[')
    (h : (split (trim line) '=').length ≠ 2) : readLine s line = s.error := by
  simp only [readLine, hhead, hne, if_false, ne_eq, not_false_eq_true, if_true]
  split
  · next heq => exact absurd (congrArg List.length heq) h
  · rfl

/-- The state of the constructor is what the lines mean, the last of them first. -/
structure Tracks (ms : List Meaning) (s : State) : Prop where
  sectionName : s.sectionName = currentSection ms
  lookup : ∀ sectionName key, (s.ini.get sectionName).get key = lastValue sectionName key ms
  errors : s.ini.numParseErrors = ms.count .error

theorem Tracks.error (h : Tracks ms s) : Tracks (.error :: ms) s.error where
  sectionName := h.sectionName
  lookup := h.lookup
  errors := by
    rw [List.count_cons_self, ← h.errors]
    rfl

theorem Tracks.set (h : Tracks ms s) :
    Tracks (.assign key value :: ms) { s with ini := s.ini.set s.sectionName key value } where
  sectionName := h.sectionName
  lookup sec key' := by
    rw [lastValue, ← h.sectionName, ← h.lookup]
    exact IniFile.get_set
  errors := by
    rw [List.count_cons_of_ne (by simp), ← h.errors]
    rfl

/-- A line that is not misread does what it means. -/
theorem Tracks.readLine (h : Tracks ms s) (hread : ¬ Misread (trim line)) :
    Tracks (meaning (trim line) :: ms) (readLine s line) := by
  rcases eq_or_ne (trim line) [] with hnil | hne
  · have hs : Ini.readLine s line = s := by simp [Ini.readLine, hnil]
    rw [hs, meaning, if_pos hnil]
    exact ⟨h.sectionName, h.lookup, by rw [List.count_cons_of_ne (by simp)]; exact h.errors⟩
  rcases eq_or_ne (trim line).head? (some '[') with hhead | hhead
  · rw [meaning, if_neg hne, if_pos hhead, Ini.readLine, if_pos hhead]
    split
    · refine ⟨?_, h.lookup, by rw [List.count_cons_of_ne (by simp)]; exact h.errors⟩
      rw [currentSection, List.dropLast_eq_take, List.length_tail, List.drop_one]
      rfl
    · exact h.error
  rw [meaning, if_neg hne, if_neg hhead]
  have hlen : (split (trim line) '=').length = _ := length_fields
  rcases eq_or_ne (trim line).getLast? (some '=') with hlast | hlast
  · rw [if_pos (.inr hlast)] at hlen
    have hcount : ¬ ((trim line).count '=' = 1 ∨ (trim line).count '=' = 2) := fun hc =>
      hread ⟨hhead, hlast, hc⟩
    rw [if_neg fun h1 => hcount (.inl h1), readLine_error hne hhead (by omega)]
    exact h.error
  · rw [if_neg (not_or.mpr ⟨mt List.getLast?_eq_none_iff.mp hne, hlast⟩)] at hlen
    split
    · next hcount =>
      rw [readLine_fields hne hhead (split_of_count hcount hlast)]
      exact h.set
    · rw [readLine_error hne hhead (by omega)]
      exact h.error

/-! ### The whole text -/

theorem Tracks.readLines {ls : List (List Char)} (h : ∀ line ∈ ls, ¬ Misread (trim line)) :
    Tracks (ls.map (meaning ∘ trim)).reverse (readLines ls) := by
  induction ls using List.reverseRecOn with
  | nil => exact ⟨rfl, fun _ _ => rfl, rfl⟩
  | append_singleton ls line ih =>
    obtain ⟨hls, hline⟩ := List.forall_mem_append.mp h
    rw [List.map_append, List.reverse_append, Ini.readLines, List.foldl_append]
    exact (ih hls).readLine (hline line (List.mem_singleton_self line))

/-- A misread line is an error where it should assign, or the other way round. -/
theorem errors_of_misread (h : Misread (trim line)) (ls : List (List Char)) :
    ((readLines (ls ++ [line])).ini.numParseErrors = (readLines ls).ini.numParseErrors + 1) ↔
      meaning (trim line) ≠ .error := by
  obtain ⟨hhead, hlast, hcount⟩ := h
  have hne : trim line ≠ [] := by
    rintro hnil
    rw [hnil] at hlast
    exact nomatch hlast
  have hlen : (split (trim line) '=').length = _ := length_fields
  rw [if_pos (.inr hlast)] at hlen
  rw [Ini.readLines, List.foldl_append, List.foldl_cons, List.foldl_nil, meaning, if_neg hne,
    if_neg hhead]
  rcases hcount with hcount | hcount
  · rw [readLine_error hne hhead (by omega), if_pos hcount]
    exact iff_of_true rfl (by simp)
  · obtain ⟨key, value, hsplit⟩ := List.length_eq_two.mp (hlen.trans (by rw [hcount]))
    rw [readLine_fields hne hhead hsplit, if_neg (by omega)]
    exact iff_of_false (Nat.succ_ne_self _).symm (by simp)

/-- The file is what the lines mean, after each of them and in the end, if and only if none of them is
misread. -/
theorem iniFile_agrees_iff (text : List Char) :
    (Agrees (.ofText text) (lines text) ∧
      ∀ k, Agrees (readLines ((lines text).take k)).ini ((lines text).take k)) ↔
      ∀ line ∈ lines text, ¬ Misread (trim line) := by
  constructor
  · rintro ⟨_, h⟩ line hline hmis
    obtain ⟨k, hk, rfl⟩ := List.getElem_of_mem hline
    have hnext := (h (k + 1)).errors
    rw [List.take_succ_eq_append_getElem hk, List.map_append, List.count_append, ← (h k).errors] at hnext
    have hiff := errors_of_misread hmis ((lines text).take k)
    rw [hnext, Nat.add_right_inj] at hiff
    by_cases herr : meaning (trim (lines text)[k]) = .error <;> simp [herr] at hiff
  · intro h
    have hread : ∀ ls, (∀ line ∈ ls, line ∈ lines text) → Agrees (readLines ls).ini ls := by
      intro ls hls
      have T := Tracks.readLines fun line hline => h line (hls line hline)
      exact ⟨T.lookup, by rw [T.errors, List.count_reverse]⟩
    exact ⟨hread _ fun _ hline => hline, fun k => hread _ fun _ hline => List.mem_of_mem_take hline⟩

/-- An empty value is an error, and a second `=` at the end is none. -/
theorem iniFile_misreads :
    (¬ Agrees (.ofText "key=".toList) (lines "key=".toList)) ∧
      ¬ Agrees (.ofText "a=b=".toList) (lines "a=b=".toList) := by
  have hkey : (IniFile.ofText "key=".toList).numParseErrors ≠
      ((lines "key=".toList).map (meaning ∘ trim)).count .error := by decide
  have hab : (IniFile.ofText "a=b=".toList).numParseErrors ≠
      ((lines "a=b=".toList).map (meaning ∘ trim)).count .error := by decide
  exact ⟨fun h => hkey h.errors, fun h => hab h.errors⟩

end Optimer.Ini
