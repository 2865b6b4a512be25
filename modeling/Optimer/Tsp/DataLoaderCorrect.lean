import Mathlib.Algebra.BigOperators.Group.List.Basic
import Mathlib.Tactic.Ring
import Optimer.Lib.Loop
import Optimer.Tsp.DataLoader

/-! `load_tsplib_problem` undoes writing: what it makes of the text of a matrix. -/

namespace Optimer.Tsp
open CText

/-! ### Cells of a matrix -/

/-- The matrix is one of `n` rows and columns, and its known cells hold `f`. -/
structure Cells (n : ℕ) (f : ℕ → ℕ → ValueType) (known : ℕ → ℕ → Prop) (m : List ValueType) :
    Prop where
  length : m.length = n * n
  cell : ∀ i j, i < n → j < n → known i j → m[i * n + j]? = some (f i j)

section Cells

variable {n i j x y : ℕ} {f : ℕ → ℕ → ValueType} {known known' : ℕ → ℕ → Prop}
  {m : List ValueType}

theorem cell_lt (hi : i < n) (hj : j < n) : i * n + j < n * n :=
  calc i * n + j < i * n + n := by omega
    _ = (i + 1) * n := by ring
    _ ≤ n * n := Nat.mul_le_mul_right n hi

theorem cell_inj (hj : j < n) (hy : y < n) (h : i * n + j = x * n + y) : i = x ∧ j = y := by
  have hdiv : ∀ {a b : ℕ}, b < n → (a * n + b) / n = a := fun {a b} hb => by
    rw [Nat.mul_comm, Nat.mul_add_div (by omega), Nat.div_eq_of_lt hb, Nat.add_zero]
  have hix : i = x := by rw [← hdiv (a := i) hj, h, hdiv hy]
  subst hix
  exact ⟨rfl, by omega⟩

theorem sizeT_of_le {k : ℕ} (h : k ≤ maxSize) : sizeT k = k :=
  Nat.mod_eq_of_lt (h.trans_lt (by decide))

theorem sizeT_cell (hn : n * n ≤ maxSize) (hi : i < n) (hj : j < n) :
    sizeT (i * n + j) = i * n + j :=
  sizeT_of_le ((cell_lt hi hj).le.trans hn)

theorem Cells.mono (C : Cells n f known m)
    (h : ∀ i j, i < n → j < n → known' i j → known i j) : Cells n f known' m :=
  ⟨C.length, fun i j hi hj hk => C.cell i j hi hj (h i j hi hj hk)⟩

/-- A cell gets the value it is to hold. -/
theorem Cells.store (C : Cells n f known m) (hn : n * n ≤ maxSize) (hi : i < n) (hj : j < n) :
    ∃ m', Tsp.store m (sizeT (i * n + j)) (f i j) = .ok m' ∧
      Cells n f (fun x y => known x y ∨ x = i ∧ y = j) m' := by
  rw [sizeT_cell hn hi hj]
  have hlt : i * n + j < m.length := C.length ▸ cell_lt hi hj
  refine ⟨m.set (i * n + j) (f i j), if_pos hlt, by rw [List.length_set, C.length],
    fun x y hx hy hk => ?_⟩
  rw [List.getElem?_set]
  split
  · next h =>
    obtain ⟨rfl, rfl⟩ := cell_inj hj hy h
    rfl
  · next h =>
    refine C.cell x y hx hy (hk.resolve_right ?_)
    rintro ⟨rfl, rfl⟩
    exact h rfl

theorem reserve_ok {available : ℕ} (hx : x ≤ maxSize) (ha : x ≤ available) :
    reserve available x = .ok () := by
  rw [reserve, if_neg (not_lt.mpr hx), if_neg (not_lt.mpr ha)]

theorem resize_ok {available : ℕ} (hx : x ≤ maxSize) (ha : x ≤ available) :
    resize available m x = .ok (m.take x ++ List.replicate (x - m.length) 0) := by
  rw [resize, reserve_ok hx ha]
  rfl

theorem resize_cells {available : ℕ} (hn : n * n ≤ maxSize) (ha : n * n ≤ available) :
    ∃ m, resize available [] (n * n) = .ok m ∧ Cells n f (fun _ _ => False) m :=
  ⟨_, resize_ok hn ha, by simp, fun _ _ _ _ h => h.elim⟩

end Cells

/-! ### The loops over the cells -/

section Loops

variable {n : ℕ} {f : ℕ → ℕ → ValueType} {m data : List ValueType}

theorem fixDiagonal_cells (C : Cells n f (fun i j => i ≠ j) m) (hn : n * n ≤ maxSize)
    (hdiag : ∀ i, f i i = mVal) :
    ∃ m', (List.range n).foldlM (TspLibLoader.fixDiagonal n) m = .ok m' ∧
      Cells n f (fun _ _ => True) m' := by
  have hstep : ∀ k m, k < n → Cells n f (fun i j => i ≠ j ∨ i < k) m →
      ∃ m', TspLibLoader.fixDiagonal n m k = .ok m' ∧
        Cells n f (fun i j => i ≠ j ∨ i < k + 1) m' := fun k m hk C => by
    obtain ⟨m', hm', C'⟩ := C.store hn hk hk
    rw [hdiag] at hm'
    exact ⟨m', hm', C'.mono fun i j _ _ h => by omega⟩
  obtain ⟨m', hm', C'⟩ := Loop.foldlM_range (fun k => Cells n f (fun i j => i ≠ j ∨ i < k)) hstep
    (C.mono fun i j _ _ h => by omega)
  exact ⟨m', hm', C'.mono fun i j hi _ _ => .inr hi⟩

/-- The cells the mirroring has reached before row `i` and column `j` of the lower triangle. -/
def mirrored (i j x y : ℕ) : Prop := max x y < i ∨ max x y = i ∧ min x y < j

/-- The numbers of a lower triangle are those of `f`, row by row. -/
def LowerTriangle (n : ℕ) (f : ℕ → ℕ → ValueType) (data : List ValueType) : Prop :=
  ∀ i j, i < n → j < i →
    data[((List.range i).flatMap fun i => List.range (i + 1)).length + j]? = some (f i j)

theorem mirrorCell_cells {i j pos : ℕ} (C : Cells n f (mirrored i j) m) (hn : n * n ≤ maxSize)
    (hi : i < n) (hj : j < i + 1) (hdata : j < i → data[pos]? = some (f i j))
    (hsym : f i j = f j i) (hdiag : f i i = mVal) :
    ∃ m', TspLibLoader.mirrorCell n data i (m, pos) j = .ok (m', pos + 1) ∧
      Cells n f (mirrored i (j + 1)) m' := by
  have hjn : j < n := by omega
  rw [TspLibLoader.mirrorCell]
  split
  · next hne =>
    obtain ⟨m₁, hm₁, C₁⟩ := C.store hn hi hjn
    obtain ⟨m₂, hm₂, C₂⟩ := C₁.store hn hjn hi
    rw [← hsym] at hm₂
    refine ⟨m₂, ?_, C₂.mono fun x y _ _ h => ?_⟩
    · simp [fetch, hdata (by omega), hm₁, hm₂, bind, Except.bind, pure, Except.pure]
    · unfold mirrored at h ⊢
      omega
  · next heq =>
    obtain rfl : i = j := not_not.mp heq
    obtain ⟨m₁, hm₁, C₁⟩ := C.store hn hi hi
    rw [hdiag] at hm₁
    refine ⟨m₁, by simp [hm₁, bind, Except.bind, pure, Except.pure], C₁.mono fun x y _ _ h => ?_⟩
    unfold mirrored at h ⊢
    omega

theorem mirror_cells (C : Cells n f (fun _ _ => False) m) (hn : n * n ≤ maxSize)
    (hdata : LowerTriangle n f data) (hsym : ∀ i j, i < n → j < n → f i j = f j i)
    (hdiag : ∀ i, f i i = mVal) :
    ∃ r, (List.range n).foldlM (TspLibLoader.mirrorRow n data) (m, 0) = .ok r ∧
      Cells n f (fun _ _ => True) r.1 := by
  let pos := fun i => ((List.range i).flatMap fun i => List.range (i + 1)).length
  have hpos : ∀ i, pos (i + 1) = pos i + (i + 1) := fun i => by
    simp [pos, List.range_succ]
  -- Within row `i`, and over the rows.
  have hrow : ∀ i (r : List ValueType × ℕ), i < n → Cells n f (mirrored i 0) r.1 ∧ r.2 = pos i →
      ∃ r', TspLibLoader.mirrorRow n data r i = .ok r' ∧
        Cells n f (mirrored (i + 1) 0) r'.1 ∧ r'.2 = pos (i + 1) := by
    rintro i r hi ⟨C, hp⟩
    have hcell : ∀ j (r : List ValueType × ℕ), j < i + 1 →
        Cells n f (mirrored i j) r.1 ∧ r.2 = pos i + j →
        ∃ r', TspLibLoader.mirrorCell n data i r j = .ok r' ∧
          Cells n f (mirrored i (j + 1)) r'.1 ∧ r'.2 = pos i + (j + 1) := by
      rintro j ⟨m, p⟩ hj ⟨C, hp⟩
      obtain rfl : p = pos i + j := hp
      obtain ⟨m', hm', C'⟩ := mirrorCell_cells C hn hi hj (hdata i j hi) (hsym i j hi (by omega))
        (hdiag i)
      exact ⟨_, hm', C', rfl⟩
    obtain ⟨r', hr', C', hp'⟩ := Loop.foldlM_range
      (fun j (r : List ValueType × ℕ) => Cells n f (mirrored i j) r.1 ∧ r.2 = pos i + j) hcell
      ⟨C, hp⟩
    refine ⟨r', hr', C'.mono fun x y _ _ h => ?_, hp'.trans (hpos i).symm⟩
    unfold mirrored at h ⊢
    omega
  obtain ⟨r, hr, C', _⟩ := Loop.foldlM_range
    (fun i (r : List ValueType × ℕ) => Cells n f (mirrored i 0) r.1 ∧ r.2 = pos i) (s := (m, 0))
    hrow ⟨C.mono fun x y _ _ h => by unfold mirrored at h; omega, rfl⟩
  exact ⟨r, hr, C'.mono fun x y hx hy _ => .inl (by omega)⟩

/-- The block, copied column by column from where it is read. -/
theorem shrink_spec {available k : ℕ} (hk : k * k ≤ maxSize) (ha : k * k ≤ available)
    (hread : ∀ i < k, ∀ j < k, m[sizeT (i + j * n)]? = some (f j i)) :
    ∃ m₀ m', resize available [] (sizeT (k * k)) = .ok m₀ ∧
      (List.range k).foldlM (shrinkRow k n m) m₀ = .ok m' ∧
      Cells k f (fun _ _ => True) m' := by
  obtain ⟨m₀, hm₀, C₀⟩ := resize_cells (f := f) hk ha
  have hcol : ∀ i m₁, i < k → Cells k f (fun _ y => y < i) m₁ →
      ∃ m₂, shrinkRow k n m m₁ i = .ok m₂ ∧ Cells k f (fun _ y => y < i + 1) m₂ := by
    intro i m₁ hi C₁
    have hcell : ∀ j m₁, j < k → Cells k f (fun x y => y < i ∨ y = i ∧ x < j) m₁ →
        ∃ m₂, shrinkCell k n m i m₁ j = .ok m₂ ∧
          Cells k f (fun x y => y < i ∨ y = i ∧ x < j + 1) m₂ := by
      intro j m₁ hj C₁
      obtain ⟨m₂, hm₂, C₂⟩ := C₁.store hk hj hi
      refine ⟨m₂, ?_, C₂.mono fun x y _ _ h => by omega⟩
      rw [shrinkCell, Tsp.fetch, hread i hi j hj, Nat.add_comm i]
      exact hm₂
    obtain ⟨m₂, hm₂, C₂⟩ := Loop.foldlM_range
      (fun j => Cells k f (fun x y => y < i ∨ y = i ∧ x < j)) hcell
      (C₁.mono fun x y _ _ h => by omega)
    exact ⟨m₂, hm₂, C₂.mono fun x y hx _ h => by omega⟩
  obtain ⟨m', hm', C'⟩ := Loop.foldlM_range (fun i => Cells k f (fun _ y => y < i))
    (fun i m₁ hi C₁ => hcol i m₁ hi C₁) (C₀.mono fun _ _ _ _ h => by omega)
  exact ⟨m₀, m', by rw [sizeT_of_le hk, hm₀], hm', C'.mono fun _ y _ hy _ => hy⟩

/-- The leading block of a matrix. -/
theorem shrink_cells {available k : ℕ} (C : Cells n f (fun _ _ => True) m) (hn : n * n ≤ maxSize)
    (ha : n * n ≤ available) (hk : k < n) :
    ∃ m₀ m', resize available [] (sizeT (k * k)) = .ok m₀ ∧
      (List.range k).foldlM (shrinkRow k n m) m₀ = .ok m' ∧
      Cells k f (fun _ _ => True) m' := by
  have hle : k * k ≤ n * n := Nat.mul_le_mul hk.le hk.le
  refine shrink_spec (hle.trans hn) (hle.trans ha) fun i hi j hj => ?_
  rw [Nat.add_comm, sizeT_cell hn (by omega) (by omega)]
  exact C.cell j i (by omega) (by omega) trivial

end Loops

/-! ### The text of a matrix -/

/-- The two formats of explicit edge weights. -/
inductive Format
  | lowerDiagRow
  | fullMatrix
  deriving DecidableEq

namespace Format

def name : Format → List Char
  | lowerDiagRow => "LOWER_DIAG_ROW".toList
  | fullMatrix => "FULL_MATRIX".toList

def action : Format → Action
  | lowerDiagRow => .readLowerDiagDataLine
  | fullMatrix => .readFullMatrixDataLine

/-- How many entries of row `i` are written. -/
def width (n i : ℕ) : Format → ℕ
  | lowerDiagRow => i + 1
  | fullMatrix => n

/-- The entries in the order they are written. -/
def entries (fmt : Format) (n : ℕ) (a : ℕ → ℕ → ℤ) : List ℤ :=
  (List.range n).flatMap fun i => (List.range (fmt.width n i)).map (a i)

end Format

def DimensionLine (n : ℕ) (l : List Char) : Prop :=
  ∃ w, Blank w ∧ l = markerDimension ++ (writeNat n ++ w)

def FormatLine (fmt : Format) (l : List Char) : Prop :=
  ∃ w, Blank w ∧ l = markerFormat ++ (fmt.name ++ w)

/-- A line the loader has no use for. -/
def OtherLine (l : List Char) : Prop :=
  '\n' ∉ l ∧ ∀ marker ∈ [markerDimension, markerFormat, markerDispDataType, markerData,
    markerDataCoords, markerEof], ¬ startsWith l marker

/-- A problem file of the matrix `a`. The lines of the data section are given with the entries they
hold. -/
structure TspLibText (n : ℕ) (a : ℕ → ℕ → ℤ) where
  format : Format
  symmetric : format = .lowerDiagRow → ∀ i j, i < n → j < n → a i j = a j i
  header : List (List Char)
  header_line : ∀ l ∈ header, DimensionLine n l ∨ FormatLine format l ∨ OtherLine l
  dimension_mem : ∃ l ∈ header, DimensionLine n l
  format_mem : ∃ l ∈ header, FormatLine format l
  title : List Char
  title_blank : Blank title
  rows : List (List ℤ × List Char)
  rows_written : ∀ r ∈ rows, WritesRow r.1 r.2
  rows_entries : rows.flatMap Prod.fst = format.entries n a
  footer : List Char
  footer_blank : Blank footer
  /-- Whether the last line is ended. -/
  ended : Bool

namespace TspLibText

variable {n : ℕ} {a : ℕ → ℕ → ℤ}

def lastLine (T : TspLibText n a) : List Char := markerEof ++ T.footer

def text (T : TspLibText n a) : List Char :=
  (T.header ++ (markerData ++ T.title) :: T.rows.map Prod.snd).flatMap (· ++ ['\n']) ++
    (T.lastLine ++ if T.ended then ['\n'] else [])

end TspLibText

section Header

variable {n available : ℕ} {fmt : Format} {l w : List Char} {s : TspLibLoader}
  {d : Point → Point → ValueType}

theorem startsWith_append : startsWith (l ++ w) l = true :=
  List.isPrefixOf_iff_prefix.mpr (List.prefix_append l w)

theorem lt_of_le_maxSize (hn : n * n ≤ maxSize) : n < 2 ^ 31 := by
  by_contra h
  have := Nat.mul_le_mul (not_lt.mp h) (not_lt.mp h)
  unfold maxSize at hn
  omega

theorem DimensionLine.not_formatLine (h : DimensionLine n l) : ¬ FormatLine fmt l := by
  rintro ⟨w', _, h'⟩
  obtain ⟨w, _, h⟩ := h
  have hhead : some 'D' = some 'E' := congrArg List.head? (h.symm.trans h')
  exact absurd hhead (by decide)

theorem readCommonLine_dimension (hn : n * n ≤ maxSize) (ha : n * n ≤ available)
    (h : DimensionLine n l) : s.readCommonLine available l = .ok { s with dimension := n } := by
  obtain ⟨w, hw, rfl⟩ := h
  have hlt := lt_of_le_maxSize hn
  have hdim : ((n : ℤ) % 2 ^ 64).toNat = n := by omega
  rw [TspLibLoader.readCommonLine, if_pos startsWith_append, TspLibLoader.readDimension,
    List.drop_left, atoi_written hlt hw]
  simp only [hdim, sizeT_of_le hn, reserve_ok hn ha]
  rfl

theorem trim_name (hw : Blank w) : trim (cStr (fmt.name ++ w)) = fmt.name := by
  have hends : fmt.name.getLast?.all (¬ isSpace ·) ∧ fmt.name.head?.all (¬ isSpace ·) ∧
      fmt.name.all (· ≠ '\x00') := by
    cases fmt <;> decide
  obtain ⟨hlast, hhead, hnul⟩ := hends
  have hlast' : ∀ c ∈ fmt.name.getLast?, ¬ isSpace c := fun c hc =>
    of_decide_eq_true (by rwa [Option.mem_def.mp hc] at hlast)
  have hhead' : ∀ c ∈ fmt.name.head?, ¬ isSpace c := fun c hc =>
    of_decide_eq_true (by rwa [Option.mem_def.mp hc] at hhead)
  have hnul' : ∀ c ∈ fmt.name, c ≠ '\x00' := fun c hc =>
    of_decide_eq_true (List.all_eq_true.mp hnul c hc)
  rw [cStr_append hnul' hw, trim, rtrim_append hlast' fun c hc => (hw c hc).1, ltrim_of_head hhead']

theorem readCommonLine_format (h : FormatLine fmt l) :
    s.readCommonLine available l = .ok { s with dataAction := some fmt.action } := by
  obtain ⟨w, hw, rfl⟩ := h
  have hd : startsWith (markerFormat ++ (fmt.name ++ w)) markerDimension = false := rfl
  rw [TspLibLoader.readCommonLine, hd, if_neg (by decide), if_pos startsWith_append,
    TspLibLoader.readFormat, List.drop_left, trim_name hw]
  cases fmt <;> rfl

theorem readCommonLine_data :
    s.readCommonLine available (markerData ++ w) = .ok { s with nextAction := s.dataAction } := rfl

theorem readCommonLine_other (h : OtherLine l) : s.readCommonLine available l = .ok s := by
  have hno : ∀ {m}, m ∈ [markerDimension, markerFormat, markerDispDataType, markerData,
      markerDataCoords, markerEof] → ¬ startsWith l m := fun hm => h.2 _ hm
  rw [TspLibLoader.readCommonLine, if_neg (hno (by simp)), if_neg (hno (by simp)),
    if_neg (hno (by simp)), if_neg (hno (by simp)), if_neg (hno (by simp))]

/-- The header leaves the dimension and the action for the data. -/
theorem header_spec {header : List (List Char)} (hn : n * n ≤ maxSize) (ha : n * n ≤ available)
    (hline : ∀ l ∈ header, DimensionLine n l ∨ FormatLine fmt l ∨ OtherLine l)
    (hs : s.nextAction = some .readCommonLine) :
    ∃ s', header.foldlM (TspLibLoader.act d available) s = .ok s' ∧
      s'.nextAction = some .readCommonLine ∧ s'.matrix = s.matrix ∧
      (s.dimension = n ∨ (∃ l ∈ header, DimensionLine n l) → s'.dimension = n) ∧
      (s.dataAction = some fmt.action ∨ (∃ l ∈ header, FormatLine fmt l) →
        s'.dataAction = some fmt.action) := by
  induction header generalizing s with
  | nil => exact ⟨s, rfl, hs, rfl, by simp, by simp⟩
  | cons l header ih =>
    obtain ⟨hl, hrest⟩ := List.forall_mem_cons.mp hline
    -- One line: it sets what it is about, and nothing else.
    obtain ⟨t, ht, hnext, hmatrix, hdim, hact⟩ : ∃ t, s.readCommonLine available l = .ok t ∧
        t.nextAction = some .readCommonLine ∧ t.matrix = s.matrix ∧
        (s.dimension = n ∨ DimensionLine n l → t.dimension = n) ∧
        (s.dataAction = some fmt.action ∨ FormatLine fmt l → t.dataAction = some fmt.action) := by
      by_cases hd : DimensionLine n l
      · exact ⟨_, readCommonLine_dimension hn ha hd, hs, rfl, fun _ => rfl,
          fun h => h.resolve_right hd.not_formatLine⟩
      by_cases hf : FormatLine fmt l
      · exact ⟨_, readCommonLine_format hf, hs, rfl, fun h => h.resolve_right hd, fun _ => rfl⟩
      · exact ⟨s, readCommonLine_other ((hl.resolve_left hd).resolve_left hf), hs, rfl,
          fun h => h.resolve_right hd, fun h => h.resolve_right hf⟩
    obtain ⟨s', hs', hnext', hmatrix', hdim', hact'⟩ := ih hrest hnext
    refine ⟨s', ?_, hnext', hmatrix'.trans hmatrix, fun h => hdim' ?_, fun h => hact' ?_⟩
    · rw [List.foldlM_cons, TspLibLoader.act, hs]
      simp only [ht]
      exact hs'
    · rw [List.exists_mem_cons_iff, ← or_assoc] at h
      exact h.imp hdim id
    · rw [List.exists_mem_cons_iff, ← or_assoc] at h
      exact h.imp hact id

/-- No vector can be reserved for the cells. -/
theorem header_large {header : List (List Char)} (hn : maxSize < n * n) (hlt : n < 2 ^ 31)
    (hline : ∀ l ∈ header, DimensionLine n l ∨ FormatLine fmt l ∨ OtherLine l)
    (hmem : ∃ l ∈ header, DimensionLine n l) (hs : s.nextAction = some .readCommonLine) :
    header.foldlM (TspLibLoader.act d available) s = .error .lengthError := by
  induction header generalizing s with
  | nil => simp at hmem
  | cons l header ih =>
    obtain ⟨hl, hrest⟩ := List.forall_mem_cons.mp hline
    by_cases hd : DimensionLine n l
    · have hread : s.readCommonLine available l = .error .lengthError := by
        obtain ⟨w, hw, rfl⟩ := hd
        have hdim : ((n : ℤ) % 2 ^ 64).toNat = n := by omega
        have hsq : n * n < 2 ^ 64 := (Nat.mul_lt_mul'' hlt hlt).trans (by decide)
        rw [TspLibLoader.readCommonLine, if_pos startsWith_append, TspLibLoader.readDimension,
          List.drop_left, atoi_written hlt hw]
        simp only [hdim, sizeT, Nat.mod_eq_of_lt hsq, reserve, if_pos hn]
        rfl
      rw [List.foldlM_cons, TspLibLoader.act, hs]
      simp only [hread]
      rfl
    · obtain ⟨t, ht, hnext⟩ : ∃ t, s.readCommonLine available l = .ok t ∧
          t.nextAction = some .readCommonLine := by
        rcases hl.resolve_left hd with hf | ho
        exacts [⟨_, readCommonLine_format hf, hs⟩, ⟨s, readCommonLine_other ho, hs⟩]
      rw [List.exists_mem_cons_iff] at hmem
      rw [List.foldlM_cons, TspLibLoader.act, hs]
      simp only [ht]
      exact ih hrest (hmem.resolve_left hd) hnext

/-- A line of the data section goes to the matrix. -/
theorem act_row (available : ℕ) {zs : List ℤ} {v : ℤ → ℚ} (hs : s.nextAction = some fmt.action)
    (hl : WritesRow zs l) (hv : ∀ z ∈ zs, Binary64.nearest z = some (v z)) :
    s.act d available l = .ok { s with matrix := s.matrix ++ zs.map v } := by
  have heof : startsWith l markerEof = false := by
    cases l with
    | nil => rfl
    | cons c l =>
      have hc : 'E' ≠ c := by
        rintro rfl
        have := hl.head (c := 'E') rfl
        revert this
        decide
      simp [startsWith, markerEof, List.isPrefixOf, hc]
  have hedges : s.readEdges l = { s with matrix := s.matrix ++ zs.map v } := by
    rw [TspLibLoader.readEdges, readDoubles_written hl hv]
  cases fmt <;>
    simp [TspLibLoader.act, hs, Format.action, TspLibLoader.readLowerDiagDataLine,
      TspLibLoader.readFullMatrixDataLine, heof, hedges, pure, Except.pure]

theorem rows_spec (available : ℕ) {rows : List (List ℤ × List Char)} {v : ℤ → ℚ}
    (hs : s.nextAction = some fmt.action) (hrows : ∀ r ∈ rows, WritesRow r.1 r.2)
    (hv : ∀ z ∈ rows.flatMap Prod.fst, Binary64.nearest z = some (v z)) :
    (rows.map Prod.snd).foldlM (TspLibLoader.act d available) s =
      .ok { s with matrix := s.matrix ++ (rows.flatMap Prod.fst).map v } := by
  induction rows generalizing s with
  | nil => simp [pure, Except.pure]
  | cons r rows ih =>
    obtain ⟨hr, hrest⟩ := List.forall_mem_cons.mp hrows
    rw [List.flatMap_cons] at hv
    have hact := act_row (d := d) available hs hr fun z hz => hv z (List.mem_append_left _ hz)
    rw [List.map_cons, List.foldlM_cons, hact]
    refine (ih (s := { s with matrix := s.matrix ++ r.1.map v }) hs hrest
      fun z hz => hv z (List.mem_append_right _ hz)).trans ?_
    simp

end Header

/-! ### The data -/

/-- The entry `j` of row `i` comes after the rows before. -/
theorem getElem?_flatMap_range {α : Type*} {row : ℕ → List α} {n i j : ℕ} (hi : i < n)
    (hj : j < (row i).length) :
    ((List.range n).flatMap row)[((List.range i).flatMap row).length + j]? = (row i)[j]? := by
  induction n with
  | zero => omega
  | succ n ih =>
    rw [List.range_succ, List.flatMap_append, List.flatMap_singleton]
    rcases Nat.lt_succ_iff_lt_or_eq.mp hi with hlt | rfl
    · have hsome := ih hlt
      rw [List.getElem?_eq_getElem hj] at hsome
      obtain ⟨hlen, _⟩ := List.getElem?_eq_some_iff.mp hsome
      rw [List.getElem?_append_left hlen, ih hlt]
    · rw [List.getElem?_append_right (Nat.le_add_right _ _), Nat.add_sub_cancel_left]

section Data

variable {n : ℕ} {a : ℕ → ℕ → ℤ} {v : ℤ → ℚ} {fmt : Format}

theorem entries_cell {i j : ℕ} (hi : i < n) (hj : j < fmt.width n i) :
    ((fmt.entries n a).map v)[((List.range i).flatMap fun i =>
      List.range (fmt.width n i)).length + j]? = some (v (a i j)) := by
  have hlen : ∀ k, ((List.range k).flatMap fun i => List.range (fmt.width n i)).length =
      ((List.range k).flatMap fun i => (List.range (fmt.width n i)).map (a i)).length := fun k => by
    simp [List.length_flatMap]
  rw [hlen, List.getElem?_map, Format.entries, getElem?_flatMap_range hi (by simpa using hj)]
  simp [hj]

/-- What the loader makes of the entries: `M_VAL` on the diagonal. -/
def loaded (v : ℤ → ℚ) (a : ℕ → ℕ → ℤ) (i j : ℕ) : ValueType := if i = j then mVal else v (a i j)

theorem fullMatrix_cells :
    Cells n (loaded v a) (fun i j => i ≠ j) ((Format.fullMatrix.entries n a).map v) := by
  have hlen : ∀ i, ((List.range i).flatMap fun i =>
      List.range (Format.fullMatrix.width n i)).length = i * n := fun i => by
    simp [List.length_flatMap, Format.width]
  refine ⟨by simp [Format.entries, List.length_flatMap, Format.width], fun i j hi hj hne => ?_⟩
  rw [loaded, if_neg hne, ← hlen]
  exact entries_cell hi hj

theorem lowerDiagRow_triangle :
    LowerTriangle n (loaded v a) ((Format.lowerDiagRow.entries n a).map v) := by
  intro i j hi hj
  rw [loaded, if_neg (by omega)]
  exact entries_cell hi (Nat.lt_succ_of_lt hj)

theorem loaded_symm (h : ∀ i j, i < n → j < n → a i j = a j i) {i j : ℕ} (hi : i < n) (hj : j < n) :
    loaded v a i j = loaded v a j i := by
  rw [loaded, loaded, h i j hi hj]
  exact if_congr eq_comm rfl rfl

/-- The last line makes the matrix out of the entries read. -/
theorem act_eof {available : ℕ} {s : TspLibLoader} {w : List Char} {d : Point → Point → ValueType}
    (hn : n * n ≤ maxSize) (ha : n * n ≤ available)
    (hsym : fmt = .lowerDiagRow → ∀ i j, i < n → j < n → a i j = a j i)
    (hs : s.nextAction = some fmt.action) (hdim : s.dimension = n)
    (hmatrix : s.matrix = (fmt.entries n a).map v) :
    ∃ s', s.act d available (markerEof ++ w) = .ok s' ∧ s'.dimension = n ∧
      Cells n (loaded v a) (fun _ _ => True) s'.matrix := by
  have hdiag : ∀ i, loaded v a i i = mVal := fun i => if_pos rfl
  cases fmt with
  | lowerDiagRow =>
    obtain ⟨m₀, hm₀, C₀⟩ := resize_cells (f := loaded v a) hn ha
    obtain ⟨r, hr, C⟩ := mirror_cells C₀ hn lowerDiagRow_triangle
      (fun i j hi hj => loaded_symm (hsym rfl) hi hj) hdiag
    refine ⟨{ s with matrix := r.1 }, ?_, hdim, C⟩
    simp [TspLibLoader.act, hs, Format.action, TspLibLoader.readLowerDiagDataLine,
      startsWith_append, hdim, sizeT_of_le hn, hm₀, hmatrix, hr, bind, Except.bind, pure,
      Except.pure]
  | fullMatrix =>
    obtain ⟨m, hm, C⟩ := fixDiagonal_cells (fullMatrix_cells (v := v) (a := a)) hn hdiag
    refine ⟨{ s with matrix := m }, ?_, hdim, C⟩
    simp [TspLibLoader.act, hs, Format.action, TspLibLoader.readFullMatrixDataLine,
      startsWith_append, hdim, hmatrix, hm, bind, Except.bind, pure, Except.pure]

end Data

/-! ### Loading -/

section Load

variable {n available : ℕ} {a : ℕ → ℕ → ℤ} (T : TspLibText n a) (distance : Point → Point → ValueType)

theorem TspLibText.lines_text : lines T.text =
    T.header ++ (markerData ++ T.title) :: T.rows.map Prod.snd ++ [T.lastLine] := by
  have hmarker : ∀ {m w : List Char}, '\n' ∉ m → Blank w → '\n' ∉ m ++ w := fun hm hw h =>
    (List.mem_append.mp h).elim hm hw.newline_notMem
  have hnat : '\n' ∉ writeNat n := fun h => absurd (writeNat_isDigit h) (by decide)
  have hlines : ∀ l ∈ T.header ++ (markerData ++ T.title) :: T.rows.map Prod.snd, '\n' ∉ l := by
    intro l hl
    rcases List.mem_append.mp hl with hl | hl
    · rcases T.header_line l hl with ⟨w, hw, rfl⟩ | ⟨w, hw, rfl⟩ | h
      · rw [← List.append_assoc]
        exact hmarker (fun h => (List.mem_append.mp h).elim (by decide) hnat) hw
      · rw [← List.append_assoc]
        refine hmarker (fun h => (List.mem_append.mp h).elim (by decide) ?_) hw
        cases T.format <;> decide
      · exact h.1
    · rcases List.mem_cons.mp hl with rfl | hl
      · exact hmarker (by decide) T.title_blank
      · obtain ⟨r, hr, rfl⟩ := List.mem_map.mp hl
        exact (T.rows_written r hr).newline_notMem
  have hlast : '\n' ∉ T.lastLine := hmarker (by decide) T.footer_blank
  rw [TspLibText.text, lines_append hlines]
  cases T.ended with
  | true => rw [if_pos rfl, lines_cons hlast, lines]
  | false =>
    rw [if_neg (by decide), List.append_nil, lines_last hlast (List.cons_ne_nil _ _)]

theorem Format.mem_entries {fmt : Format} {z : ℤ} (h : z ∈ fmt.entries n a) :
    ∃ i j, i < n ∧ j < n ∧ z = a i j := by
  obtain ⟨i, hi, hz⟩ := List.mem_flatMap.mp h
  obtain ⟨j, hj, rfl⟩ := List.mem_map.mp hz
  rw [List.mem_range] at hi hj
  refine ⟨i, j, hi, ?_, rfl⟩
  cases fmt with
  | lowerDiagRow => exact hj.trans_le hi
  | fullMatrix => exact hj

theorem load_cells (hn : n * n ≤ maxSize) (ha : n * n ≤ available)
    (hrange : ∀ i j, i < n → j < n → (Binary64.nearest (a i j)).isSome) :
    ∃ m, TspLibLoader.load distance available T.text = .ok (m, n) ∧
      Cells n (loaded Binary64.ofInt a) (fun _ _ => True) m := by
  obtain ⟨s, hs, hnext, hmatrix, hdim, hact⟩ := header_spec (d := distance) hn ha
    (s := { nextAction := some .readCommonLine }) T.header_line rfl
  have hv : ∀ z ∈ T.rows.flatMap Prod.fst, Binary64.nearest z = some (Binary64.ofInt z) := by
    intro z hz
    rw [T.rows_entries] at hz
    obtain ⟨i, j, hi, hj, rfl⟩ := Format.mem_entries hz
    exact Binary64.nearest_ofInt (hrange i j hi hj)
  have htitle : s.act distance available (markerData ++ T.title) =
      .ok { s with nextAction := s.dataAction } := by
    rw [TspLibLoader.act, hnext]
    exact readCommonLine_data
  have hrows := rows_spec (d := distance) available (s := { s with nextAction := s.dataAction })
    (hact (.inr T.format_mem)) T.rows_written hv
  obtain ⟨s', hs', hdim', C⟩ := act_eof (d := distance) (w := T.footer) hn ha T.symmetric
    (v := Binary64.ofInt)
    (s := { s with nextAction := s.dataAction
                   matrix := s.matrix ++ (T.rows.flatMap Prod.fst).map Binary64.ofInt })
    (hact (.inr T.format_mem)) (hdim (.inr T.dimension_mem)) (by simp [hmatrix, T.rows_entries])
  refine ⟨s'.matrix, ?_, C⟩
  rw [TspLibLoader.load, T.lines_text]
  simp only [List.foldlM_append, List.foldlM_cons, List.foldlM_nil, hs, htitle, hrows,
    TspLibText.lastLine, hs', bind, Except.bind, pure, Except.pure, hdim']

/-- Loading the text of a matrix gives the matrix, or its leading block, with every entry at the
`double` nearest to it and `M_VAL` on the diagonal. -/
theorem load_written (hn : n * n ≤ maxSize)
    (hrange : ∀ i j, i < n → j < n → (Binary64.nearest (a i j)).isSome) (maxDimension : ℕ) :
    ∃ m d, loadTsplibProblem distance T.text maxDimension = .ok (m, d) ∧
      d = (if maxDimension ≠ 0 ∧ maxDimension < n then maxDimension else n) ∧
      m.length = d * d ∧ ∀ i j, i < d → j < d →
        m[i * d + j]? = some (if i = j then mVal else Binary64.ofInt (a i j)) := by
  obtain ⟨m, hm, C⟩ := load_cells T distance hn hn hrange
  rw [loadTsplibProblem, loadTsplibProblemWithin, hm]
  by_cases hk : maxDimension ≠ 0 ∧ maxDimension < n
  · obtain ⟨m₀, m', hm₀, hm', C'⟩ := shrink_cells C hn hn hk.2
    refine ⟨m', maxDimension, ?_, (if_pos hk).symm, C'.length,
      fun i j hi hj => C'.cell i j hi hj trivial⟩
    simp [hk, hm₀, hm', bind, Except.bind, pure, Except.pure]
  · refine ⟨m, n, ?_, (if_neg hk).symm, C.length, fun i j hi hj => C.cell i j hi hj trivial⟩
    simp only [bind, Except.bind, if_neg hk]
    rfl

/-- A matrix that no vector holds is not loaded. -/
theorem load_large (hn : maxSize < n * n) (hlt : n < 2 ^ 31) (maxDimension : ℕ) :
    loadTsplibProblem distance T.text maxDimension = .error .lengthError := by
  have hload : TspLibLoader.load distance maxSize T.text = .error .lengthError := by
    rw [TspLibLoader.load, T.lines_text, List.append_assoc, List.foldlM_append,
      header_large hn hlt T.header_line T.dimension_mem rfl]
    rfl
  rw [loadTsplibProblem, loadTsplibProblemWithin, hload]
  rfl

end Load

/-- The least natural number that is no `double`. -/
def wideMatrix (i j : ℕ) : ℤ := if i = 0 ∧ j = 1 then 2 ^ 53 + 1 else 0

def wideText : TspLibText 2 wideMatrix where
  format := .fullMatrix
  symmetric := nofun
  header := ["NAME: wide".toList, "EDGE_WEIGHT_FORMAT: FULL_MATRIX ".toList, "DIMENSION: 2".toList]
  header_line := by
    refine List.forall_mem_cons.mpr ⟨.inr (.inr ⟨by decide, by decide⟩), List.forall_mem_cons.mpr
      ⟨.inr (.inl ⟨[' '], by simp [Blank, isSpace], rfl⟩), List.forall_mem_singleton.mpr
      (.inl ⟨[], by simp [Blank], by decide⟩)⟩⟩
  dimension_mem := ⟨_, .tail _ (.tail _ (.head _)), [], by simp [Blank], by decide⟩
  format_mem := ⟨_, .tail _ (.head _), [' '], by simp [Blank, isSpace], rfl⟩
  title := []
  title_blank := by simp [Blank]
  rows := [([0, 2 ^ 53 + 1, 0], "0 9007199254740993 0".toList), ([0], " 0".toList)]
  rows_written := by
    have hnil : Blank [] := by simp [Blank]
    have hblank : Blank [' '] := by simp [Blank, isSpace]
    exact List.forall_mem_cons.mpr ⟨.cons (w := []) hnil hblank
      (.cons (w := []) hnil hblank (.last (w := []) hnil)), List.forall_mem_singleton.mpr
      (.last (w := [' ']) hblank)⟩
  rows_entries := by decide
  footer := []
  footer_blank := by simp [Blank]
  ended := true

/-- The matrix of `n` rows of zeros, all on one line. -/
def zeroText (n : ℕ) : TspLibText n fun _ _ => 0 where
  format := .fullMatrix
  symmetric := nofun
  header := [markerDimension ++ (writeNat n ++ []), markerFormat ++ (Format.fullMatrix.name ++ [])]
  header_line := List.forall_mem_cons.mpr ⟨.inl ⟨[], by simp [Blank], rfl⟩,
    List.forall_mem_singleton.mpr (.inr (.inl ⟨[], by simp [Blank], rfl⟩))⟩
  dimension_mem := ⟨_, .head _, [], by simp [Blank], rfl⟩
  format_mem := ⟨_, .tail _ (.head _), [], by simp [Blank], rfl⟩
  title := []
  title_blank := by simp [Blank]
  rows := [(List.replicate (n * n) 0, (List.replicate (n * n) (writeInt 0 ++ [' '])).flatten)]
  rows_written := by
    refine List.forall_mem_singleton.mpr ?_
    generalize n * n = k
    induction k with
    | zero => exact .nil (by simp [Blank])
    | succ k ih =>
      exact .cons (w := []) (by simp [Blank]) (by simp [Blank, isSpace]) ih
  rows_entries := by
    refine (List.append_nil _).trans (List.eq_replicate_iff.mpr ⟨?_, fun z hz => ?_⟩).symm
    · simp [Format.entries, List.length_flatMap, Format.width]
    · obtain ⟨_, _, _, _, hz⟩ := Format.mem_entries hz
      exact hz
  footer := []
  footer_blank := by simp [Blank]
  ended := false

theorem load_written_wide : ∃ m,
    loadTsplibProblem (fun _ _ => 0) wideText.text 0 = .ok (m, 2) ∧ m.length = 4 ∧
      m[2]? = some 0 := by
  have hrange : ∀ i j : Fin 2, (Binary64.nearest (wideMatrix i j)).isSome := by decide +kernel
  have hzero : Binary64.ofInt 0 = 0 := Binary64.ofInt_eq_self (by decide)
  obtain ⟨m, d, hm, rfl, hlen, hcell⟩ := load_written wideText (fun _ _ => 0) (by decide)
    (fun i j hi hj => hrange ⟨i, hi⟩ ⟨j, hj⟩) 0
  exact ⟨m, hm, hlen, (hcell 1 0 (by decide) (by decide)).trans (congrArg some hzero)⟩

/-- An entry that is no `double` comes back as another number, and a matrix that no vector holds
does not come back. -/
theorem load_differs :
    (loadTsplibProblem (fun _ _ => 0) wideText.text 0).toOption =
        some ([mVal, 2 ^ 53, 0, mVal], 2) ∧ wideMatrix 0 1 = 2 ^ 53 + 1 ∧
      loadTsplibProblem (fun _ _ => 0) (zeroText (2 ^ 30)).text 0 = .error .lengthError :=
  ⟨by decide +kernel, rfl, load_large _ _ (by decide) (by decide) 0⟩

end Optimer.Tsp
