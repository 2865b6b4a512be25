import Mathlib.Data.List.TakeWhile
import Optimer.Lib.Binary64

/-! Reading text as the C++ library does in the "C" locale: `std::getline`, `atoi`, `operator>>` of
an `istringstream`. Text is a list of characters. -/

namespace CText

/-- `isspace`. -/
def isSpace (c : Char) : Bool := c ∈ [' ', '\t', '\n', '\x0b', '\x0c', '\r']

/-- The lines `std::getline` delivers: a newline ends one, and so does the end of the text unless
nothing precedes it. -/
def lines : List Char → List (List Char)
  | [] => []
  | c :: s =>
    if c = '\n' then [] :: lines s else
      match lines s with
      | [] => [[c]]
      | l :: ls => (c :: l) :: ls

/-- The same with another character in place of the newline. -/
def fields (delim : Char) : List Char → List (List Char)
  | [] => []
  | c :: s =>
    if c = delim then [] :: fields delim s else
      match fields delim s with
      | [] => [[c]]
      | l :: ls => (c :: l) :: ls

/-- What a function that takes a `const char *` sees. -/
def cStr (s : List Char) : List Char := s.takeWhile (· ≠ '\x00')

/-- A sign, whether it is a minus, and what follows. -/
def readSign : List Char → Bool × List Char
  | '-' :: s => (true, s)
  | '+' :: s => (false, s)
  | s => (false, s)

/-- The digits at the front and what follows. -/
def readDigits (s : List Char) : List Char × List Char := s.span Char.isDigit

def ofDigits (ds : List Char) : ℕ := Nat.ofDigitChars 10 ds 0

/-- `atoi`; undefined where the number is none of an `int`. -/
def atoi (s : List Char) : Option ℤ :=
  let (neg, s) := readSign ((cStr s).dropWhile isSpace)
  let n : ℤ := ofDigits (readDigits s).1
  let n := if neg then -n else n
  if -2 ^ 31 ≤ n ∧ n < 2 ^ 31 then some n else none

/-- The digits after a decimal point. -/
def readFraction : List Char → List Char × List Char
  | '.' :: s => readDigits s
  | s => ([], s)

/-- The decimal exponent, which must have digits when there is one. -/
def readExponent : List Char → Option (ℤ × List Char)
  | c :: s =>
    if c = 'e' ∨ c = 'E' then
      let (neg, s) := readSign s
      let (ds, s) := readDigits s
      if ds = [] then none else some (if neg then -(ofDigits ds : ℤ) else ofDigits ds, s)
    else some (0, c :: s)
  | [] => some (0, [])

/-- The number an `operator>>` has found in the text. -/
structure Scanned (α : Type*) where
  val : α
  rest : List Char

/-- The text of a `double` as a rational number. -/
def scanDouble (s : List Char) : Option (Scanned ℚ) := do
  let (neg, s) := readSign s
  let (whole, s) := readDigits s
  let (frac, s) := readFraction s
  if whole ++ frac = [] then none
  let (e, s) ← readExponent s
  let x : ℚ := ofDigits (whole ++ frac) * (10 : ℚ) ^ (e - frac.length)
  some ⟨if neg then -x else x, s⟩

/-- `>>` into a `double`: the value read and what is left of the stream; or the stream fails, and
the variable holds what is given, or keeps what it held before. -/
def readDouble (s : List Char) : Scanned ℚ ⊕ Option ℚ :=
  let s := s.dropWhile isSpace
  if s = [] then .inr none else
    match scanDouble s with
    | none => .inr (some 0)
    | some ⟨x, s⟩ =>
      match Binary64.nearest x with
      | some v => .inl ⟨v, s⟩
      | none => .inr (some (if x < 0 then -Binary64.largest else Binary64.largest))

/-- What `strtod` reads and `scanDouble` does not know: hexadecimal numbers, infinity and NaN. -/
def isSpecial (s : List Char) : Bool :=
  ["0x", "inf", "nan"].any fun w => w.toList.isPrefixOf (s.map Char.toLower)

/-- `atof`; `none` for what is no rational number, infinity for too large a number included, and for hexadecimal
numbers. An exponent without digits is no part of the number. -/
def atof (s : List Char) : Option ℚ :=
  let (neg, s) := readSign ((cStr s).dropWhile isSpace)
  let (whole, rest) := readDigits s
  let (frac, rest) := readFraction rest
  if isSpecial s then none else if whole ++ frac = [] then some 0 else
    let e := ((readExponent rest).map Prod.fst).getD 0
    let x : ℚ := ofDigits (whole ++ frac) * (10 : ℚ) ^ (e - frac.length)
    Binary64.nearest (if neg then -x else x)

/-- `atol`; undefined where the number is no `long`. -/
def atol (s : List Char) : Option ℤ :=
  let (neg, s) := readSign ((cStr s).dropWhile isSpace)
  let n : ℤ := ofDigits (readDigits s).1
  let n := if neg then -n else n
  if -2 ^ 63 ≤ n ∧ n < 2 ^ 63 then some n else none

/-- `>>` into an `unsigned int`, which takes a minus modulo `2 ^ 32`. -/
def readUnsigned (s : List Char) : Option (Scanned ℕ) :=
  let (neg, s) := readSign (s.dropWhile isSpace)
  let (ds, s) := readDigits s
  let n := ofDigits ds
  if ds = [] ∨ 2 ^ 32 ≤ n then none
  else some ⟨if neg then (2 ^ 32 - n) % 2 ^ 32 else n, s⟩

/-- The loop `iss >> val; while (iss) { ..; iss >> val; }`: the values it sees. Every value takes a
character, so that a text of `fuel` characters is read to its end. -/
def readDoublesLoop : ℕ → List Char → List ℚ
  | 0, _ => []
  | fuel + 1, s =>
    match readDouble s with
    | .inl ⟨v, s⟩ => v :: readDoublesLoop fuel s
    | .inr _ => []

def readDoubles (s : List Char) : List ℚ := readDoublesLoop s.length s

/-! ### Lines -/

section Lines

variable {l s : List Char}

theorem fields_cons {delim : Char} (h : delim ∉ l) :
    fields delim (l ++ delim :: s) = l :: fields delim s := by
  induction l with
  | nil => simp [fields]
  | cons c l ih =>
    obtain ⟨hc, hl⟩ := List.ne_and_not_mem_of_not_mem_cons h
    rw [List.cons_append, fields, if_neg hc.symm, ih hl]

theorem fields_last {delim : Char} (h : delim ∉ l) (hne : l ≠ []) : fields delim l = [l] := by
  induction l with
  | nil => exact absurd rfl hne
  | cons c l ih =>
    obtain ⟨hc, hl⟩ := List.ne_and_not_mem_of_not_mem_cons h
    rw [fields, if_neg hc.symm]
    rcases eq_or_ne l [] with rfl | hl'
    · rfl
    · rw [ih hl hl']

/-- Every delimiter ends a field, and so does the end of the text where something precedes it. -/
theorem length_fields {delim : Char} : (fields delim s).length =
    s.count delim + if s.getLast? = none ∨ s.getLast? = some delim then 0 else 1 := by
  induction s with
  | nil => rfl
  | cons c s ih =>
    cases s with
    | nil => by_cases hc : c = delim <;> simp [fields, hc]
    | cons d s =>
      rw [List.getLast?_cons_cons, List.count_cons, Nat.add_right_comm, ← ih, fields]
      have hne : fields delim (d :: s) ≠ [] := by
        rw [fields]
        split
        · exact List.cons_ne_nil _ _
        · split <;> exact List.cons_ne_nil _ _
      by_cases hc : c = delim
      · simp [hc]
      · obtain ⟨l, ls, hls⟩ := List.exists_cons_of_ne_nil hne
        simp [hc, hls]

theorem lines_eq_fields : lines s = fields '\n' s := by
  induction s with
  | nil => rfl
  | cons c s ih => rw [lines, fields, ih]

theorem lines_cons (h : '\n' ∉ l) : lines (l ++ '\n' :: s) = l :: lines s := by
  rw [lines_eq_fields, lines_eq_fields, fields_cons h]

theorem lines_last (h : '\n' ∉ l) (hne : l ≠ []) : lines l = [l] := by
  rw [lines_eq_fields, fields_last h hne]

theorem lines_append {ls : List (List Char)} (h : ∀ l ∈ ls, '\n' ∉ l) :
    lines (ls.flatMap (· ++ ['\n']) ++ s) = ls ++ lines s := by
  induction ls with
  | nil => rfl
  | cons l ls ih =>
    obtain ⟨hl, hls⟩ := List.forall_mem_cons.mp h
    rw [List.flatMap_cons, List.append_assoc, List.append_assoc, List.singleton_append,
      lines_cons hl, ih hls, List.cons_append]

end Lines

/-! ### Written numbers -/

/-- Blanks within a line. -/
def Blank (w : List Char) : Prop := ∀ c ∈ w, isSpace c ∧ c ≠ '\n'

def writeNat (n : ℕ) : List Char := Nat.toDigits 10 n

def writeInt (z : ℤ) : List Char :=
  if z < 0 then '-' :: writeNat z.natAbs else writeNat z.natAbs

/-- A line that holds the numbers, with blanks between them and around them. -/
inductive WritesRow : List ℤ → List Char → Prop
  | nil {w} (hw : Blank w) : WritesRow [] w
  | last {w z} (hw : Blank w) : WritesRow [z] (w ++ writeInt z)
  | cons {w z c zs s} (hw : Blank w) (hc : Blank [c]) (hs : WritesRow zs s) :
    WritesRow (z :: zs) (w ++ writeInt z ++ c :: s)

section Written

variable {w ds s : List Char} {n : ℕ} {z : ℤ}

/-- The text after a number starts with a blank, if there is any. -/
def Ends (s : List Char) : Prop := ∀ c ∈ s.head?, isSpace c

theorem isSpace_iff {c : Char} : isSpace c ↔ c ∈ [' ', '\t', '\n', '\x0b', '\x0c', '\r'] :=
  decide_eq_true_iff

theorem not_isDigit_of_isSpace {c : Char} (h : isSpace c) : ¬ c.isDigit := by
  intro hd
  have := isSpace_iff.mp h
  revert hd
  simp only [List.mem_cons, List.not_mem_nil, or_false] at this
  rcases this with rfl | rfl | rfl | rfl | rfl | rfl <;> decide

theorem writeNat_isDigit {c : Char} (h : c ∈ writeNat n) : c.isDigit :=
  Nat.isDigit_of_mem_toDigits (by decide) (by decide) h

theorem writeNat_ne_nil : writeNat n ≠ [] := Nat.toDigits_ne_nil

theorem ofDigits_writeNat : ofDigits (writeNat n) = n := Nat.ofDigitChars_ten_toDigits

theorem readDigits_append (hds : ∀ c ∈ ds, c.isDigit) (hs : ∀ c ∈ s.head?, ¬ c.isDigit) :
    readDigits (ds ++ s) = (ds, s) := by
  rw [readDigits, List.span_eq_takeWhile_dropWhile, List.takeWhile_append_of_pos hds,
    List.dropWhile_append_of_pos hds]
  cases s with
  | nil => simp
  | cons c s => simp [hs c rfl]

theorem readDigits_writeNat (hs : Ends s) : readDigits (writeNat n ++ s) = (writeNat n, s) :=
  readDigits_append (fun _ h => writeNat_isDigit h) fun c hc => not_isDigit_of_isSpace (hs c hc)

/-- A number does not start with a character that is no digit, apart from its sign. -/
theorem readSign_writeNat : readSign (writeNat n ++ s) = (false, writeNat n ++ s) := by
  obtain ⟨c, ds, hcons⟩ := List.exists_cons_of_ne_nil (writeNat_ne_nil (n := n))
  have hc : c.isDigit := writeNat_isDigit (hcons ▸ List.mem_cons_self)
  rw [hcons, List.cons_append]
  unfold readSign
  split
  · next h => exact absurd hc ((List.cons.inj h).1 ▸ by decide)
  · next h => exact absurd hc ((List.cons.inj h).1 ▸ by decide)
  · rfl

theorem readSign_writeInt :
    readSign (writeInt z ++ s) = (decide (z < 0), writeNat z.natAbs ++ s) := by
  unfold writeInt
  split
  · next h => simp [readSign, h]
  · next h => simp [readSign_writeNat, h]

theorem readFraction_of_ends (hs : Ends s) : readFraction s = ([], s) := by
  unfold readFraction
  split
  · next s' => exact absurd (hs '.' rfl) (by decide)
  · rfl

theorem readExponent_of_ends (hs : Ends s) : readExponent s = some (0, s) := by
  cases s with
  | nil => rfl
  | cons c s =>
    refine if_neg fun h => ?_
    have hc := hs c rfl
    rcases h with rfl | rfl <;> exact absurd hc (by decide)

theorem scanDouble_writeInt (hs : Ends s) : scanDouble (writeInt z ++ s) = some ⟨z, s⟩ := by
  have hval : (if z < 0 then -|(z : ℚ)| else |(z : ℚ)|) = z := by
    split
    · next h => rw [abs_of_neg (Int.cast_lt_zero.mpr h), neg_neg]
    · next h => exact abs_of_nonneg (Int.cast_nonneg_iff.mpr (not_lt.mp h))
  simp [scanDouble, readSign_writeInt, readDigits_writeNat hs, readFraction_of_ends hs,
    readExponent_of_ends hs, writeNat_ne_nil, ofDigits_writeNat, hval]

theorem head_writeInt : ∃ c t, writeInt z = c :: t ∧ ¬ isSpace c := by
  unfold writeInt
  split
  · exact ⟨'-', _, rfl, by decide⟩
  · obtain ⟨c, ds, hcons⟩ := List.exists_cons_of_ne_nil (writeNat_ne_nil (n := z.natAbs))
    have hc : c.isDigit := writeNat_isDigit (hcons ▸ List.mem_cons_self)
    exact ⟨c, ds, hcons, fun h => not_isDigit_of_isSpace h hc⟩

theorem dropWhile_writeInt (hw : Blank w) :
    (w ++ writeInt z ++ s).dropWhile isSpace = writeInt z ++ s := by
  obtain ⟨c, t, hcons, hc⟩ := head_writeInt (z := z)
  rw [List.append_assoc, List.dropWhile_append_of_pos fun c hc => (hw c hc).1, hcons,
    List.cons_append, List.dropWhile_cons_of_neg hc]

theorem readDouble_writeInt {v : ℚ} (hw : Blank w) (hs : Ends s)
    (hv : Binary64.nearest z = some v) : readDouble (w ++ writeInt z ++ s) = .inl ⟨v, s⟩ := by
  obtain ⟨c, t, hcons, _⟩ := head_writeInt (z := z)
  rw [readDouble, dropWhile_writeInt hw, if_neg (by simp [hcons])]
  simp only [scanDouble_writeInt hs, hv]

theorem readDouble_blank (hw : Blank w) : readDouble w = .inr none := by
  have hnil : w.dropWhile isSpace = [] := List.dropWhile_eq_nil_iff.mpr fun c hc => (hw c hc).1
  simp only [readDouble, hnil, if_true]

/-- A blank in front changes nothing. -/
theorem readDoublesLoop_blank {fuel : ℕ} {c : Char} (hc : isSpace c) :
    readDoublesLoop fuel (c :: s) = readDoublesLoop fuel s := by
  cases fuel with
  | zero => rfl
  | succ fuel => simp only [readDoublesLoop, readDouble, List.dropWhile_cons_of_pos hc]

/-- Reading a written line gives its numbers, rounded. -/
theorem readDoublesLoop_written {zs : List ℤ} {v : ℤ → ℚ} {fuel : ℕ} (h : WritesRow zs s)
    (hv : ∀ z ∈ zs, Binary64.nearest z = some (v z)) (hfuel : s.length ≤ fuel) :
    readDoublesLoop fuel s = zs.map v := by
  induction h generalizing fuel with
  | nil hw =>
    cases fuel with
    | zero => rfl
    | succ fuel => simp [readDoublesLoop, readDouble_blank hw]
  | @last w z hw =>
    obtain ⟨c, t, hcons, _⟩ := head_writeInt (z := z)
    cases fuel with
    | zero => simp [hcons] at hfuel
    | succ fuel =>
      have hread := readDouble_writeInt (s := []) hw (by simp [Ends]) (hv z List.mem_cons_self)
      rw [List.append_nil] at hread
      have hend : readDoublesLoop fuel [] = [] := by
        cases fuel with
        | zero => rfl
        | succ fuel => simp [readDoublesLoop, readDouble]
      simp [readDoublesLoop, hread, hend]
  | @cons w z c zs s hw hc hs ih =>
    obtain ⟨hvz, hvs⟩ := List.forall_mem_cons.mp hv
    cases fuel with
    | zero => simp at hfuel
    | succ fuel =>
      have hblank : isSpace c := (hc c List.mem_cons_self).1
      have hends : Ends (c :: s) := fun d hd => (Option.some.inj hd) ▸ hblank
      have hlen : s.length ≤ fuel := by
        simp only [List.length_append, List.length_cons] at hfuel
        omega
      simp only [readDoublesLoop, readDouble_writeInt hw hends hvz, readDoublesLoop_blank hblank,
        ih hvs hlen, List.map_cons]

theorem readDoubles_written {zs : List ℤ} {v : ℤ → ℚ} (h : WritesRow zs s)
    (hv : ∀ z ∈ zs, Binary64.nearest z = some (v z)) : readDoubles s = zs.map v :=
  readDoublesLoop_written h hv le_rfl

theorem cStr_append (hs : ∀ c ∈ s, c ≠ '\x00') (hw : Blank w) : cStr (s ++ w) = s ++ w := by
  refine List.takeWhile_eq_self_iff.mpr fun c hc => decide_eq_true ?_
  rcases List.mem_append.mp hc with hc | hc
  · exact hs c hc
  · rintro rfl
    exact absurd (hw _ hc).1 (by decide)

theorem atoi_written (hn : n < 2 ^ 31) (hw : Blank w) : atoi (writeNat n ++ w) = some (n : ℤ) := by
  have hcstr : cStr (writeNat n ++ w) = writeNat n ++ w := by
    refine cStr_append (fun c hc => ?_) hw
    rintro rfl
    exact absurd (writeNat_isDigit hc) (by decide)
  have hends : Ends w := fun c hc => (hw c (List.mem_of_mem_head? hc)).1
  have hdrop : (writeNat n ++ w).dropWhile isSpace = writeNat n ++ w := by
    have hwrite : writeInt n = writeNat n := by simp [writeInt]
    have := dropWhile_writeInt (w := []) (z := n) (s := w) (by simp [Blank])
    simpa [hwrite] using this
  simp only [atoi, hcstr, hdrop, readSign_writeNat, readDigits_writeNat hends, ofDigits_writeNat]
  exact if_pos (by simp; omega)

/-- A written line starts with a blank, a digit or a minus. -/
theorem WritesRow.head {zs : List ℤ} (h : WritesRow zs s) {c : Char} (hc : c ∈ s.head?) :
    isSpace c ∨ c.isDigit ∨ c = '-' := by
  have hint : ∀ {w z t}, Blank w → c ∈ (w ++ writeInt z ++ t).head? →
      isSpace c ∨ c.isDigit ∨ c = '-' := by
    intro w z t hw hc
    cases w with
    | cons d w => exact .inl ((Option.some.inj hc) ▸ (hw d List.mem_cons_self).1)
    | nil =>
      rw [List.nil_append, writeInt] at hc
      split at hc
      · exact .inr (.inr (Option.some.inj hc).symm)
      · obtain ⟨d, ds, hcons⟩ := List.exists_cons_of_ne_nil (writeNat_ne_nil (n := z.natAbs))
        rw [hcons] at hc
        exact .inr (.inl ((Option.some.inj hc) ▸ writeNat_isDigit (hcons ▸ List.mem_cons_self)))
  cases h with
  | nil hw => exact .inl (hw c (List.mem_of_mem_head? hc)).1
  | last hw => exact hint (t := []) hw (by rwa [List.append_nil])
  | cons hw _ _ => exact hint hw hc

theorem newline_notMem_writeInt : '\n' ∉ writeInt z := by
  have hnat : ∀ {n}, '\n' ∉ writeNat n := fun h => absurd (writeNat_isDigit h) (by decide)
  unfold writeInt
  split
  · exact List.not_mem_cons_of_ne_of_not_mem (by decide) hnat
  · exact hnat

theorem Blank.newline_notMem (hw : Blank w) : '\n' ∉ w := fun h => (hw _ h).2 rfl

theorem WritesRow.newline_notMem {zs : List ℤ} (h : WritesRow zs s) : '\n' ∉ s := by
  induction h with
  | nil hw => exact hw.newline_notMem
  | last hw => simp [hw.newline_notMem, newline_notMem_writeInt]
  | cons hw hc _ ih =>
    have := hc.newline_notMem
    simp only [List.mem_singleton] at this
    simp [hw.newline_notMem, newline_notMem_writeInt, this, ih]

end Written

end CText
