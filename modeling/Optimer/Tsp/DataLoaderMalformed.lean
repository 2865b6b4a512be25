import Mathlib.Data.List.DropRight
import Mathlib.Data.List.GetD
import Optimer.Tsp.DataLoaderCorrect

/-! What `load_tsplib_problem` makes of any text: when the result is an instance or an exception, and
when the matrix does not fit its dimension or a read goes wrong. -/

namespace Optimer.Tsp
open CText Loop

/-! ### The parts of a text -/

/-- An exception, or a matrix of its dimension with `M_VAL` on the diagonal. -/
def Sound : Except Failure (List ValueType × ℕ) → Prop
  | .error e => e ≠ .undefined
  | .ok (matrix, dimension) => matrix.length = dimension * dimension ∧
      ∀ i < dimension, matrix[i * dimension + i]? = some mVal

def isSection (line : List Char) : Bool := startsWith line markerData || startsWith line markerDataCoords

def isEof (line : List Char) : Bool := startsWith line markerEof

/-- The lines before the first section line. -/
def headerLines (text : List Char) : List (List Char) := (lines text).takeWhile (!isSection ·)

/-- The lines after the first section line. -/
def bodyLines (text : List Char) : List (List Char) := ((lines text).dropWhile (!isSection ·)).tail

/-- What a line of the header says: a dimension (`none` for a number that is no `int`), the action for
the data (`none` for a name that is not known), or nothing. -/
inductive HeaderEntry
  | dimension (number : Option ℤ)
  | action (a : Option Action)
  | other
  deriving DecidableEq, Repr

def formatAction (format : List Char) : Option Action :=
  if format = "LOWER_DIAG_ROW".toList then some .readLowerDiagDataLine
  else if format = "FULL_MATRIX".toList then some .readFullMatrixDataLine
  else none

def displayAction (dataType : List Char) : Option Action :=
  if dataType = "COORD_DISPLAY".toList then some .readCoordsDataLine else none

def entry (line : List Char) : HeaderEntry :=
  if startsWith line markerDimension then .dimension (atoi (line.drop markerDimension.length))
  else if startsWith line markerFormat then
    .action (formatAction (trim (cStr (line.drop markerFormat.length))))
  else if startsWith line markerDispDataType then
    .action (displayAction (trim (cStr (line.drop markerDispDataType.length))))
  else .other

/-- The longest vector that can be reserved. -/
def limit (available : ℕ) : ℕ := min available maxSize

namespace HeaderEntry

/-- No vector can be reserved for the square of the dimension, or the number or the name is not known. -/
def fails (available : ℕ) : HeaderEntry → Bool
  | dimension none => true
  | dimension (some n) => limit available < sizeT ((n % 2 ^ 64).toNat * (n % 2 ^ 64).toNat)
  | action none => true
  | action (some _) => false
  | other => false

def dimension? : HeaderEntry → Option ℕ
  | dimension (some n) => some (n % 2 ^ 64).toNat
  | _ => none

def action? : HeaderEntry → Option Action
  | action a => a
  | _ => none

end HeaderEntry

/-- The last dimension the lines give. -/
def dimensionOf (ls : List (List Char)) : ℕ := (ls.reverse.findSome? fun l => (entry l).dimension?).getD 0

/-- The last action the lines give. -/
def actionOf (ls : List (List Char)) : Option Action := ls.reverse.findSome? fun l => (entry l).action?

/-- The numbers in the lines that are not `EOF`. -/
def values (ls : List (List Char)) : List ValueType := (ls.filter (!isEof ·)).flatMap readDoubles

def beforeEof (ls : List (List Char)) : List (List Char) := ls.takeWhile (!isEof ·)

/-- The lines after the last `EOF`. -/
def afterEof (ls : List (List Char)) : List (List Char) := ls.rtakeWhile (!isEof ·)

/-- Numbers in a row, so many of them and with `M_VAL` at some places, make an instance of dimension
`d`, or of `maxDimension` if that is less: the leading block of such a matrix. -/
def Fits (available maxDimension d len : ℕ) (diag : ℕ → Prop) : Prop :=
  if maxDimension ≠ 0 ∧ maxDimension < d then
    limit available < sizeT (maxDimension * maxDimension) ∨ maxDimension * maxDimension ≤ maxSize ∧
      (∀ i < maxDimension, ∀ j < maxDimension, sizeT (i + j * d) < len) ∧
      ∀ i < maxDimension, diag (sizeT (i + i * d))
  else len = d * d ∧ ∀ i < d, diag (i * d + i)

/-- The lines of the data are what their action asks for. -/
def BodyFits (available maxDimension d : ℕ) (action : Option Action) (body : List (List Char)) : Prop :=
  match action with
  | some .readLowerDiagDataLine =>
    if body.any isEof then
      d * d ≤ maxSize ∧ d * (d + 1) / 2 ≤ (values (beforeEof body)).length + 1 ∧
        (values (afterEof body) = [] ∨ maxDimension ≠ 0 ∧ maxDimension < d)
    else Fits available maxDimension d (values body).length fun x => (values body)[x]? = some mVal
  | some .readFullMatrixDataLine =>
    (body.any isEof → ∀ i < d, sizeT (i * d + i) < (values (beforeEof body)).length) ∧
      Fits available maxDimension d (values body).length fun x => (values body)[x]? = some mVal ∨
        body.any isEof ∧ ∃ i < d, x = sizeT (i * d + i)
  | some .readCoordsDataLine =>
    if body.any isEof then d * d ≤ maxSize ∨ (beforeEof body).length ≠ d
    else Fits available maxDimension d 0 fun _ => False
  | _ => body = [] ∧ Fits available maxDimension d 0 fun _ => False

/-- The text throws in its header, or describes an instance. -/
def Describes (available : ℕ) (text : List Char) (maxDimension : ℕ) : Prop :=
  match (headerLines text).find? fun l => (entry l).fails available with
  | some line => entry line ≠ .dimension none
  | none => BodyFits available maxDimension (dimensionOf (headerLines text)) (actionOf (headerLines text))
      (bodyLines text)

variable {n d i j k : ℕ} {m data : List ValueType} {done ls rest : List (List Char)} {line : List Char}
  {s : TspLibLoader} {available maxDimension : ℕ} {dist : Point → Point → ValueType}

/-! ### Lines that are done -/

theorem values_append : values (done ++ ls) = values done ++ values ls := by
  rw [values, List.filter_append, List.flatMap_append, values, values]

theorem values_data (h : isEof line = false) : values [line] = readDoubles line := by
  simp [values, h]

theorem values_eof (h : isEof line = true) : values [line] = [] := by
  simp [values, h]

theorem beforeEof_append (h : done.any isEof = true) : beforeEof (done ++ rest) = beforeEof done := by
  obtain ⟨line, hmem, hline⟩ := List.any_eq_true.mp h
  rw [beforeEof, beforeEof, List.takeWhile_append, if_neg]
  intro hlen
  have hall := List.takeWhile_eq_self_iff.mp (List.takeWhile_sublist _ |>.eq_of_length hlen)
  simpa [hline] using hall line hmem

/-- Up to the first `EOF`. -/
theorem beforeEof_cons (h : done.any isEof = false) (hline : isEof line = true) :
    beforeEof (done ++ line :: rest) = done := by
  have hall : ∀ l ∈ done, (!isEof l) = true := fun l hl => by
    simpa using List.any_eq_false.mp h l hl
  rw [beforeEof, List.takeWhile_append_of_pos hall, List.takeWhile_cons_of_neg (by simp [hline]),
    List.append_nil]

theorem afterEof_eof (h : isEof line = true) : afterEof (done ++ [line]) = [] :=
  List.rtakeWhile_concat_neg _ _ _ (by simp [h])

theorem afterEof_data (h : isEof line = false) :
    afterEof (done ++ [line]) = afterEof done ++ [line] :=
  List.rtakeWhile_concat_pos _ _ _ (by simp [h])

/-! ### The leading block -/

/-- The end of `load_tsplib_problem`. -/
def shrink (available maxDimension : ℕ) (matrix : List ValueType) (dimension : ℕ) :
    Except Failure (List ValueType × ℕ) := do
  if maxDimension ≠ 0 ∧ maxDimension < dimension then
    let m ← resize available [] (sizeT (maxDimension * maxDimension))
    let m ← (List.range maxDimension).foldlM (shrinkRow maxDimension dimension matrix) m
    return (m, maxDimension)
  else return (matrix, dimension)

theorem ends_store {e : Failure → Prop} (he : i < m.length ∨ e .undefined) (v : ValueType) :
    Ends (fun m' => m'.length = m.length ∧ i < m.length ∧ m' = m.set i v) e (store m i v) := by
  unfold store
  split
  · next h => exact ⟨List.length_set, h, rfl⟩
  · next h => exact he.resolve_left h

theorem ends_fetch {α : Type} {e : Failure → Prop} {v : List α} (he : i < v.length ∨ e .undefined) :
    Ends (fun x => v[i]? = some x) e (fetch v i) := by
  unfold fetch
  cases h : v[i]? with
  | none => exact he.resolve_left (not_lt.mpr (List.getElem?_eq_none_iff.mp h))
  | some x => rfl

/-- A copy that ends has read all cells of the block. -/
theorem ends_shrink (c : ℕ) (h : data.length = c) :
    Ends (fun m' => m'.length = c ∧ ∀ i < k, ∀ j < k, sizeT (i + j * n) < m.length) (· = .undefined)
      ((List.range k).foldlM (shrinkRow k n m) data) := by
  refine Ends.range (fun a (m' : List ValueType) => m'.length = c ∧ ∀ i < a, ∀ j < k, sizeT (i + j * n) < m.length)
    (fun a m' ha ⟨hlen, hread⟩ => ?_) ⟨h, fun _ h => absurd h (Nat.not_lt_zero _)⟩
  refine (Ends.range (fun b (m' : List ValueType) => m'.length = c ∧ ∀ j < b, sizeT (a + j * n) < m.length)
    (fun b m' hb ⟨hlen, hrow⟩ => ?_) ⟨hlen, fun _ h => absurd h (Nat.not_lt_zero _)⟩).mono ?_
  · have hfetch : Ends _ (· = Failure.undefined) (fetch m (sizeT (a + b * n))) := ends_fetch (.inr rfl)
    refine hfetch.bind fun v hv => (ends_store (e := (· = Failure.undefined)) (.inr rfl) v).mono ?_
    rintro m'' ⟨hlen', -, -⟩
    refine ⟨hlen'.trans hlen, fun j hj => ?_⟩
    rcases Nat.lt_succ_iff_lt_or_eq.mp hj with hj | rfl
    · exact hrow j hj
    · exact (List.getElem?_eq_some_iff.mp hv).1
  · rintro m' ⟨hlen, hrow⟩
    refine ⟨hlen, fun i hi => ?_⟩
    rcases Nat.lt_succ_iff_lt_or_eq.mp hi with hi | rfl
    exacts [hread i hi, hrow]

theorem resize_nil (h : n ≤ limit available) : resize available [] n = .ok (List.replicate n 0) := by
  obtain ⟨ha, hn⟩ := le_min_iff.mp h
  simp [resize_ok hn ha]

/-- A vector that is too long is an exception. -/
theorem reserve_error (h : limit available < n) : ∃ e, e ≠ .undefined ∧ reserve available n = .error e := by
  unfold reserve
  split
  · exact ⟨.lengthError, by decide, rfl⟩
  · next hn =>
    exact ⟨.badAlloc, by decide, if_pos ((min_lt_iff.mp h).resolve_right hn)⟩

theorem sound_shrink_iff :
    Sound (shrink available maxDimension m d) ↔
      Fits available maxDimension d m.length fun x => m[x]? = some mVal := by
  unfold shrink Fits
  split
  swap
  · rfl
  rcases lt_or_ge (limit available) (sizeT (maxDimension * maxDimension)) with hthrow | hsize
  · obtain ⟨e, he, herror⟩ := reserve_error hthrow
    rw [resize, herror]
    exact iff_of_true he (.inl hthrow)
  rw [or_iff_right hsize.not_gt, resize_nil hsize]
  show Sound ((List.range maxDimension).foldlM (shrinkRow maxDimension d m) _ >>= fun m' =>
    pure (m', maxDimension)) ↔ _
  by_cases hfit : maxDimension * maxDimension ≤ maxSize ∧
      ∀ i < maxDimension, ∀ j < maxDimension, sizeT (i + j * d) < m.length
  · obtain ⟨hk, hread⟩ := hfit
    obtain ⟨m₀, m', hm₀, hm', C⟩ := shrink_spec (n := d) (m := m)
      (f := fun y x => m.getD (sizeT (x + y * d)) 0) hk
      (sizeT_of_le hk ▸ hsize.trans (min_le_left _ _)) fun i hi j hj => by
        rw [List.getD_eq_getElem _ _ (hread i hi j hj), List.getElem?_eq_getElem]
    rw [resize_nil hsize] at hm₀
    obtain rfl := Except.ok.inj hm₀
    rw [hm']
    show m'.length = _ ∧ _ ↔ _
    rw [and_iff_right C.length, and_iff_right hk, and_iff_right hread]
    refine forall₂_congr fun i hi => ?_
    dsimp only
    rw [C.cell i i hi hi trivial, List.getD_eq_getElem _ _ (hread i hi i hi),
      List.getElem?_eq_getElem (hread i hi i hi)]
  · refine iff_of_false (fun hsound => hfit ?_) fun h => hfit ⟨h.1, h.2.1⟩
    have hends := ends_shrink (k := maxDimension) (n := d) (m := m) _ (List.length_replicate
      (n := sizeT (maxDimension * maxDimension)) (a := (0 : ValueType)))
    cases hrun : (List.range maxDimension).foldlM (shrinkRow maxDimension d m)
        (List.replicate (sizeT (maxDimension * maxDimension)) 0) with
    | error e =>
      rw [hrun] at hends hsound
      exact absurd hends hsound
    | ok m' =>
      rw [hrun] at hends hsound
      have hlen : sizeT (maxDimension * maxDimension) = maxDimension * maxDimension :=
        hends.1.symm.trans hsound.1
      exact ⟨hlen ▸ hsize.trans (min_le_right _ _), hends.2⟩

/-! ### The end of the data -/

/-- Where the indices of the diagonal are in range, the cells there become `M_VAL` and no other cell
changes. -/
theorem ends_fixDiagonal {e : Failure → Prop}
    (he : (∀ i < d, sizeT (i * d + i) < m.length) ∨ e .undefined) :
    Ends (fun m' => m'.length = m.length ∧ (∀ i < d, sizeT (i * d + i) < m.length) ∧
        ∀ x, m'[x]? = some mVal ↔ m[x]? = some mVal ∨ ∃ i < d, x = sizeT (i * d + i))
      e ((List.range d).foldlM (TspLibLoader.fixDiagonal d) m) := by
  refine Ends.range (fun k (m' : List ValueType) => m'.length = m.length ∧
    (∀ i < k, sizeT (i * d + i) < m.length) ∧
      ∀ x, m'[x]? = some mVal ↔ m[x]? = some mVal ∨ ∃ i < k, x = sizeT (i * d + i))
    (fun k m' hk ⟨hlen, hrange, hcell⟩ => ?_) ⟨rfl, by simp, by simp⟩
  refine (ends_store (e := e) (he.imp_left fun h => hlen ▸ h k hk) mVal).mono ?_
  rintro m'' ⟨hlen', hlt, rfl⟩
  refine ⟨hlen'.trans hlen, fun i hi => ?_, fun x => ?_⟩
  · rcases Nat.lt_succ_iff_lt_or_eq.mp hi with hi | rfl
    exacts [hrange i hi, hlen ▸ hlt]
  · rcases eq_or_ne (sizeT (k * d + k)) x with rfl | hx
    · exact iff_of_true (List.getElem?_set_self hlt) (.inr ⟨k, Nat.lt_succ_self k, rfl⟩)
    · rw [List.getElem?_set_ne hx, hcell]
      refine or_congr_right ⟨fun ⟨i, hi, hxi⟩ => ⟨i, Nat.lt_succ_of_lt hi, hxi⟩, fun ⟨i, hi, hxi⟩ => ?_⟩
      rcases Nat.lt_succ_iff_lt_or_eq.mp hi with hi | rfl
      exacts [⟨i, hi, hxi⟩, absurd hxi.symm hx]

/-- How many numbers are before row `i` of a lower triangle. -/
abbrev triangle (i : ℕ) : ℕ := ((List.range i).flatMap fun i => List.range (i + 1)).length

theorem triangle_succ (i : ℕ) : triangle (i + 1) = triangle i + (i + 1) := by
  simp [triangle, List.range_succ]

theorem triangle_eq (i : ℕ) : triangle i = i * (i + 1) / 2 := by
  have h : triangle i * 2 = i * (i + 1) := by
    induction i with
    | zero => rfl
    | succ i ih =>
      rw [triangle_succ, Nat.add_mul, ih]
      ring
  exact (Nat.div_eq_of_eq_mul_left Nat.zero_lt_two h.symm).symm

theorem triangle_mono (h : i ≤ j) : triangle i ≤ triangle j := by
  induction h with
  | refl => exact le_rfl
  | step _ ih => exact ih.trans (triangle_succ _ ▸ Nat.le_add_right _ _)

/-- The last number of the triangle, which is on the diagonal, may be missing. -/
theorem mirror_ok (hd : d * d ≤ maxSize) (ha : d * d ≤ available) (hdata : d * (d + 1) / 2 ≤ data.length + 1) :
    ∃ m₀ r, resize available [] (sizeT (d * d)) = .ok m₀ ∧
      (List.range d).foldlM (TspLibLoader.mirrorRow d data) (m₀, 0) = .ok r ∧
      r.1.length = d * d ∧ ∀ i < d, r.1[i * d + i]? = some mVal := by
  let f := fun i j => if i = j then mVal else data.getD (triangle (max i j) + min i j) 0
  obtain ⟨m₀, hm₀, C⟩ := resize_cells (f := f) hd ha
  have htri : LowerTriangle d f data := fun i j hi hj => by
    have hlt : triangle i + j < data.length := by
      have hle := triangle_mono (Nat.succ_le_of_lt hi)
      rw [triangle_succ, triangle_eq d] at hle
      omega
    simp only [f, if_neg hj.ne', max_eq_left hj.le, min_eq_right hj.le]
    rw [List.getD_eq_getElem _ _ hlt]
    exact List.getElem?_eq_getElem hlt
  obtain ⟨r, hr, C'⟩ := mirror_cells C hd htri
    (fun i j _ _ => by simp only [f, eq_comm (a := i), max_comm i, min_comm i]) fun i => if_pos rfl
  exact ⟨m₀, r, by rw [sizeT_of_le hd, hm₀], hr, C'.length, fun i hi =>
    (C'.cell i i hi hi trivial).trans (congrArg some (if_pos rfl))⟩

/-- A mirroring that ends has found the cells and the numbers. -/
theorem ends_mirror (hsize : sizeT (d * d) ≤ maxSize) (hdim : d * d ≤ maxSize ∨ 2 ^ 63 ≤ d)
    (hlt : d < 2 ^ 64) (hm : m.length = sizeT (d * d)) :
    Ends (fun _ => d * d ≤ maxSize ∧ d * (d + 1) / 2 ≤ data.length + 1) (· = .undefined)
      ((List.range d).foldlM (TspLibLoader.mirrorRow d data) (m, 0)) := by
  have hrows : Ends (fun r : List ValueType × ℕ => r.2 = triangle d ∧ r.1.length = sizeT (d * d) ∧
      ∀ i < d, ∀ j < i, triangle i + j < data.length ∧ sizeT (i * d + j) < sizeT (d * d))
      (· = Failure.undefined) ((List.range d).foldlM (TspLibLoader.mirrorRow d data) (m, 0)) := by
    refine Ends.range (fun k (r : List ValueType × ℕ) => r.2 = triangle k ∧
      r.1.length = sizeT (d * d) ∧
      ∀ i < k, ∀ j < i, triangle i + j < data.length ∧ sizeT (i * d + j) < sizeT (d * d))
      (fun i r hi hinv => ?_) ⟨rfl, hm, fun _ h => absurd h (Nat.not_lt_zero _)⟩
    obtain ⟨hpos, hlen, hrow⟩ := hinv
    refine (Ends.range (fun k (r : List ValueType × ℕ) => r.2 = triangle i + k ∧
      r.1.length = sizeT (d * d) ∧
      ∀ j < k, j < i → triangle i + j < data.length ∧ sizeT (i * d + j) < sizeT (d * d))
      (fun j r hj hinv => ?_) ⟨hpos, hlen, fun _ h => absurd h (Nat.not_lt_zero _)⟩).mono ?_
    · obtain ⟨hpos, hlen, hcol⟩ := hinv
      rw [TspLibLoader.mirrorCell]
      split
      · have hfetch : Ends _ (· = Failure.undefined) (fetch data r.2) := ends_fetch (.inr rfl)
        refine hfetch.bind fun v hv =>
          (ends_store (e := (· = Failure.undefined)) (.inr rfl) v).bind fun m₁ h₁ =>
            (ends_store (e := (· = Failure.undefined)) (.inr rfl) v).bind fun m₂ h₂ => ?_
        obtain ⟨hlen₁, hcell, _⟩ := h₁
        obtain ⟨hlen₂, _, _⟩ := h₂
        refine ⟨congrArg (· + 1) hpos, hlen₂.trans (hlen₁.trans hlen), fun j' hj' hji => ?_⟩
        rcases Nat.lt_succ_iff_lt_or_eq.mp hj' with hj' | rfl
        · exact hcol j' hj' hji
        · exact ⟨hpos ▸ (List.getElem?_eq_some_iff.mp hv).1, hlen ▸ hcell⟩
      · next heq =>
        obtain rfl : i = j := not_not.mp heq
        refine (ends_store (e := (· = Failure.undefined)) (.inr rfl) mVal).bind
          fun m₁ h₁ => ?_
        obtain ⟨hlen₁, _, _⟩ := h₁
        refine ⟨congrArg (· + 1) hpos, hlen₁.trans hlen, fun j' hj' hji => ?_⟩
        exact hcol j' hji hji
    · rintro r' ⟨hpos', hlen', hcol⟩
      refine ⟨hpos'.trans (triangle_succ i).symm, hlen', fun i' hi' j hj => ?_⟩
      rcases Nat.lt_succ_iff_lt_or_eq.mp hi' with hi' | rfl
      exacts [hrow i' hi' j hj, hcol j (by omega) hj]
  refine hrows.mono fun r hr => ?_
  obtain ⟨_, _, hall⟩ := hr
  rcases Nat.lt_or_ge d 2 with hd | hd
  · have hd : d = 0 ∨ d = 1 := by omega
    rcases hd with rfl | rfl <;> simp [maxSize]
  · have hsmall : d < sizeT (d * d) := by
      have h := (hall 1 hd 0 Nat.one_pos).2
      rwa [Nat.one_mul, Nat.add_zero, sizeT, Nat.mod_eq_of_lt hlt] at h
    have hlast := (hall (d - 1) (by omega) (d - 2) (by omega)).1
    have htri := triangle_succ (d - 1)
    rw [Nat.sub_add_cancel (by omega), triangle_eq d] at htri
    refine ⟨hdim.resolve_right fun hge => ?_, by omega⟩
    unfold maxSize at hsize
    omega

/-- The cells that the distances have reached before row `i` and column `j`. -/
def spanned (i j x y : ℕ) : Prop := min x y < i ∨ min x y = i ∧ max x y < j

theorem distance_ok {coords : List Point} (hd : d * d ≤ maxSize) (hc : coords.length = d)
    (hm : m.length = d * d) :
    ∃ m', (List.range d).foldlM (TspLibLoader.distanceRow dist d coords) m = .ok m' ∧
      m'.length = d * d ∧ ∀ i < d, m'[i * d + i]? = some mVal := by
  let f := fun i j => if i = j then mVal else dist (coords.getD (min i j) {}) (coords.getD (max i j) {})
  have hfetch : ∀ i < d, fetch coords i = .ok (coords.getD i {}) := fun i hi => by
    rw [fetch, List.getElem?_eq_getElem (hc ▸ hi), List.getD_eq_getElem _ _ (hc ▸ hi)]
  have hcell : ∀ i j m, i ≤ j → j < d → Cells d f (spanned i j) m →
      ∃ m', TspLibLoader.distanceCell dist d coords i m j = .ok m' ∧ Cells d f (spanned i (j + 1)) m' := by
    intro i j m hij hj C
    rw [TspLibLoader.distanceCell]
    rcases hij.lt_or_eq with hlt | rfl
    · obtain ⟨m₁, hm₁, C₁⟩ := C.store hd (hlt.trans hj) hj
      obtain ⟨m₂, hm₂, C₂⟩ := C₁.store hd hj (hlt.trans hj)
      have hval : f i j = dist (coords.getD i {}) (coords.getD j {}) := by
        simp only [f, if_neg hlt.ne, min_eq_left hlt.le, max_eq_right hlt.le]
      have hval' : f j i = dist (coords.getD i {}) (coords.getD j {}) := by
        simp only [f, if_neg hlt.ne', min_eq_right hlt.le, max_eq_left hlt.le]
      refine ⟨m₂, ?_, C₂.mono fun x y _ _ h => ?_⟩
      · rw [if_pos hlt.ne, hfetch i (hlt.trans hj), hfetch j hj]
        rw [hval] at hm₁
        rw [hval'] at hm₂
        simp only [bind, Except.bind, hm₁, hm₂]
      · unfold spanned at h ⊢
        omega
    · obtain ⟨m₁, hm₁, C₁⟩ := C.store hd hj hj
      refine ⟨m₁, (if_neg (not_not.mpr rfl)).trans ?_, C₁.mono fun x y _ _ h => ?_⟩
      · rwa [show f i i = mVal from if_pos rfl] at hm₁
      · unfold spanned at h ⊢
        omega
  have hrow : ∀ i m, i < d → Cells d f (spanned i i) m →
      ∃ m', TspLibLoader.distanceRow dist d coords m i = .ok m' ∧
        Cells d f (spanned (i + 1) (i + 1)) m' := by
    intro i m hi C
    obtain ⟨m', hm', C'⟩ := Ends.ok (Ends.range' (m := d - i)
      (f := TspLibLoader.distanceCell dist d coords i) (fun j => Cells d f (spanned i j))
      (fun j m hij hj C => by
        obtain ⟨m', hm', C'⟩ := hcell i j m hij (by omega) C
        rw [hm']
        exact C') C)
    refine ⟨m', hm', C'.mono fun x y hx hy h => ?_⟩
    unfold spanned at h ⊢
    omega
  obtain ⟨m', hm', C⟩ := foldlM_range (fun i => Cells d f (spanned i i)) (s := m)
    (fun i m hi C => hrow i m hi C) ⟨hm, fun x y _ _ h => by unfold spanned at h; omega⟩
  refine ⟨m', hm', C.length, fun i hi => (C.cell i i hi hi ?_).trans (congrArg some (if_pos rfl))⟩
  unfold spanned
  omega

/-- A negative dimension leads out of the matrix in the first row. -/
theorem ends_distance {coords : List Point} (hsize : sizeT (d * d) ≤ maxSize) (hdim : 2 ^ 63 ≤ d)
    (hlt : d < 2 ^ 64) (hm : m.length = sizeT (d * d)) :
    Ends (fun _ => False) (· = .undefined)
      ((List.range d).foldlM (TspLibLoader.distanceRow dist d coords) m) := by
  have hrows : Ends (fun m' : List ValueType => m'.length = sizeT (d * d) ∧ (0 < d → d < sizeT (d * d)))
      (· = Failure.undefined) ((List.range d).foldlM (TspLibLoader.distanceRow dist d coords) m) := by
    refine Ends.range (fun k (m' : List ValueType) => m'.length = sizeT (d * d) ∧
      (0 < k → d < sizeT (d * d))) (fun i m hi hinv => ?_) ⟨hm, fun h => absurd h (by omega)⟩
    obtain ⟨hlen, hrow⟩ := hinv
    refine (Ends.range' (m := d - i) (fun k (m' : List ValueType) => m'.length = sizeT (d * d) ∧
      (i = 0 → 1 < k → d < sizeT (d * d))) (fun j m hij hj hinv => ?_)
      ⟨hlen, fun h0 h => absurd h (by omega)⟩).mono ?_
    · obtain ⟨hlen, hcol⟩ := hinv
      rw [TspLibLoader.distanceCell]
      split
      · have hfetch : ∀ i, Ends _ (· = Failure.undefined) (fetch coords i) := fun i =>
          ends_fetch (.inr rfl)
        refine (hfetch i).bind fun a _ => (hfetch j).bind fun b _ =>
          (ends_store (e := (· = Failure.undefined)) (.inr rfl) _).bind fun m₁ h₁ =>
            (ends_store (e := (· = Failure.undefined)) (.inr rfl) _).mono fun m₂ h₂ => ?_
        obtain ⟨hlen₁, _, _⟩ := h₁
        obtain ⟨hlen₂, hcell, _⟩ := h₂
        refine ⟨hlen₂.trans (hlen₁.trans hlen), fun h0 h => ?_⟩
        rcases Nat.lt_or_ge 1 j with h1 | h1
        · exact hcol h0 h1
        · obtain rfl : j = 1 := by omega
          rw [h0, Nat.one_mul, Nat.add_zero, sizeT, Nat.mod_eq_of_lt hlt, hlen₁, hlen] at hcell
          exact hcell
      · refine (ends_store (e := (· = Failure.undefined)) (.inr rfl) _).mono fun m₁ h₁ => ?_
        exact ⟨h₁.1.trans hlen, fun h0 h => by omega⟩
    · rintro m' ⟨hlen', hcol⟩
      refine ⟨hlen', fun _ => ?_⟩
      rcases Nat.eq_zero_or_pos i with h0 | hpos
      exacts [hcol h0 (by omega), hrow hpos]
  refine hrows.mono fun m' h => ?_
  have := h.2 (by omega)
  unfold maxSize at hsize
  omega

/-! ### The header -/

/-- What the lines of a header leave: nothing of the data, and a dimension for which a vector could
be reserved. A negative number is a dimension near `2 ^ 64`. -/
structure HeaderDone (available : ℕ) (s : TspLibLoader) : Prop where
  next : s.nextAction = some .readCommonLine
  action : s.dataAction ≠ some .readCommonLine
  matrix : s.matrix = []
  coords : s.coords = []
  lt : s.dimension < 2 ^ 64
  size : sizeT (s.dimension * s.dimension) ≤ limit available
  small : s.dimension * s.dimension ≤ maxSize ∨ 2 ^ 63 ≤ s.dimension

theorem atoi_range {l : List Char} {z : ℤ} (h : atoi l = some z) : -2 ^ 31 ≤ z ∧ z < 2 ^ 31 := by
  simp only [atoi, Option.ite_none_right_eq_some, Option.some.injEq] at h
  obtain ⟨hz, rfl⟩ := h
  exact hz

/-- What a line of the header leaves, or how it fails. -/
def EntryRead (available : ℕ) (s : TspLibLoader) (line : List Char) (t : TspLibLoader) : Prop :=
  HeaderDone available t ∧ (entry line).fails available = false ∧
    t.dimension = (entry line).dimension?.getD s.dimension ∧
    t.dataAction = (entry line).action?.or s.dataAction

def EntryFail (available : ℕ) (line : List Char) (e : Failure) : Prop :=
  (entry line).fails available = true ∧ (e ≠ .undefined ↔ entry line ≠ .dimension none)

theorem HeaderDone.readDimension (h : HeaderDone available s) (hline : startsWith line markerDimension = true) :
    Ends (EntryRead available s line) (EntryFail available line) (s.readDimension available line) := by
  have hentry : entry line = .dimension (atoi (line.drop markerDimension.length)) := if_pos hline
  unfold TspLibLoader.readDimension EntryRead EntryFail
  rw [hentry]
  cases hz : atoi (line.drop markerDimension.length) with
  | none => exact ⟨rfl, iff_of_false (not_not.mpr rfl) (not_not.mpr rfl)⟩
  | some z =>
    obtain ⟨hge, hlt⟩ := atoi_range hz
    rcases lt_or_ge (limit available) (sizeT ((z % 2 ^ 64).toNat * (z % 2 ^ 64).toNat)) with hsize | hsize
    · obtain ⟨e, he, herror⟩ := reserve_error hsize
      simp only [herror]
      exact ⟨decide_eq_true hsize, iff_of_true he fun h => by cases h⟩
    obtain ⟨ha, hmax⟩ := le_min_iff.mp hsize
    simp only [reserve_ok hmax ha]
    refine ⟨⟨h.next, h.action, h.matrix, h.coords, ?_, hsize, ?_⟩, decide_eq_false hsize.not_gt, rfl, rfl⟩
    · show (z % 2 ^ 64).toNat < 2 ^ 64
      omega
    · rcases lt_or_ge z 0 with hneg | hpos
      · right
        show 2 ^ 63 ≤ (z % 2 ^ 64).toNat
        omega
      · left
        have hd : (z % 2 ^ 64).toNat < 2 ^ 31 := by omega
        have hsq := Nat.mul_lt_mul'' hd hd
        have hmod : sizeT ((z % 2 ^ 64).toNat * (z % 2 ^ 64).toNat) = _ :=
          Nat.mod_eq_of_lt (hsq.trans (by decide))
        exact hmod ▸ hmax

/-- What a line makes of the loader that names an action, if the name is known. -/
def withAction (s : TspLibLoader) (action : Option Action) (what : List Char) :
    Except Failure TspLibLoader :=
  match action with
  | some a => .ok { s with dataAction := some a }
  | none => .error (.domainError what)

theorem readFormat_eq (s : TspLibLoader) (line : List Char) :
    s.readFormat line = withAction s (formatAction (trim (cStr (line.drop markerFormat.length))))
      ("Unknown format: ".toList ++ trim (cStr (line.drop markerFormat.length))) := by
  unfold TspLibLoader.readFormat formatAction
  dsimp only
  split
  · rfl
  · split <;> rfl

theorem readDisplayDataType_eq (s : TspLibLoader) (line : List Char) :
    s.readDisplayDataType line =
      withAction s (displayAction (trim (cStr (line.drop markerDispDataType.length))))
        ("Unknown display data type: ".toList ++ trim (cStr (line.drop markerDispDataType.length))) := by
  unfold TspLibLoader.readDisplayDataType displayAction
  dsimp only
  split <;> rfl

theorem formatAction_ne (format : List Char) : formatAction format ≠ some .readCommonLine := by
  unfold formatAction
  split
  · nofun
  · split <;> nofun

theorem displayAction_ne (dataType : List Char) : displayAction dataType ≠ some .readCommonLine := by
  unfold displayAction
  split <;> nofun

/-- A line that names an action. -/
theorem HeaderDone.withAction (h : HeaderDone available s) {action : Option Action} {what : List Char}
    (hentry : entry line = .action action) (ha : action ≠ some .readCommonLine) :
    Ends (EntryRead available s line) (EntryFail available line) (Tsp.withAction s action what) := by
  unfold EntryRead EntryFail
  rw [hentry]
  cases action with
  | none => exact ⟨rfl, iff_of_true nofun nofun⟩
  | some a => exact ⟨⟨h.next, ha, h.matrix, h.coords, h.lt, h.size, h.small⟩, rfl, rfl, rfl⟩

/-- A header line. -/
theorem HeaderDone.readCommonLine (h : HeaderDone available s) (hline : isSection line = false) :
    Ends (EntryRead available s line) (EntryFail available line) (s.readCommonLine available line) := by
  obtain ⟨hdata, hcoords⟩ := Bool.or_eq_false_iff.mp hline
  unfold TspLibLoader.readCommonLine
  rw [hdata, hcoords]
  split
  · next hdim => exact h.readDimension hdim
  next hdim =>
  split
  · next hformat =>
    rw [readFormat_eq]
    exact h.withAction (by rw [entry, if_neg hdim, if_pos hformat]) (formatAction_ne _)
  next hformat =>
  split
  · next hdisp =>
    rw [readDisplayDataType_eq]
    exact h.withAction (by rw [entry, if_neg hdim, if_neg hformat, if_pos hdisp]) (displayAction_ne _)
  · next hdisp =>
    have hentry : entry line = .other := by rw [entry, if_neg hdim, if_neg hformat, if_neg hdisp]
    show EntryRead available s line s
    unfold EntryRead
    rw [hentry]
    exact ⟨h, rfl, rfl, rfl⟩

theorem isSection_headerLines {text : List Char} (h : line ∈ headerLines text) :
    isSection line = false := by
  simpa using List.mem_takeWhile_imp h

/-- The state the header ends in. -/
def declared (available : ℕ) (text : List Char) : Except Failure TspLibLoader :=
  (headerLines text).foldlM (TspLibLoader.readCommonLine available) { nextAction := some .readCommonLine }

/-- What lines of the header leave: none of them fails, and the last ones that say something count. -/
structure HeaderRead (available : ℕ) (ls : List (List Char)) (s : TspLibLoader) : Prop
    extends HeaderDone available s where
  fine : (ls.find? fun l => (entry l).fails available) = none
  dimension : s.dimension = dimensionOf ls
  dataAction : s.dataAction = actionOf ls

/-- How lines of the header fail. -/
def HeaderFail (available : ℕ) (ls : List (List Char)) (e : Failure) : Prop :=
  ∃ line, (ls.find? fun l => (entry l).fails available) = some line ∧
    (e ≠ .undefined ↔ entry line ≠ .dimension none)

theorem headerDone_init : HeaderDone available { nextAction := some .readCommonLine } :=
  ⟨rfl, nofun, rfl, rfl, by decide, Nat.zero_le _, .inl (by decide)⟩

theorem HeaderRead.step (H : HeaderRead available done s) (rest : List (List Char)) (hline : isSection line = false) :
    Ends (HeaderRead available (done ++ [line])) (HeaderFail available (done ++ line :: rest))
      (s.readCommonLine available line) := by
  refine (H.toHeaderDone.readCommonLine hline).imp (fun t ⟨ht, hfine, hdim, hact⟩ => ⟨ht, ?_, ?_, ?_⟩)
    fun e ⟨hfail, he⟩ => ⟨line, ?_, he⟩
  · rw [List.find?_append, H.fine, Option.none_or, List.find?_cons_of_neg (by simp [hfine])]
    rfl
  · rw [hdim, H.dimension, dimensionOf, dimensionOf, List.reverse_concat, List.findSome?_cons]
    cases (entry line).dimension? <;> rfl
  · rw [hact, H.dataAction, actionOf, actionOf, List.reverse_concat, List.findSome?_cons]
    cases (entry line).action? <;> rfl
  · rw [List.find?_append, H.fine, Option.none_or]
    exact List.find?_cons_of_pos hfail

theorem declared_spec (available : ℕ) (text : List Char) :
    Ends (HeaderRead available (headerLines text)) (HeaderFail available (headerLines text))
      (declared available text) := by
  refine Ends.foldlM (HeaderRead available) (fun done line rest s hl H => ?_) ⟨headerDone_init, rfl, rfl, rfl⟩
  have hmem : line ∈ headerLines text := hl ▸ by simp
  rw [hl]
  exact H.step rest (isSection_headerLines hmem)

/-- The header is read by `read_common_line`, and the rest by the action it has set. -/
theorem load_eq (available : ℕ) (text : List Char) : TspLibLoader.load dist available text = do
    let h ← declared available text
    let s ← (bodyLines text).foldlM (TspLibLoader.act dist available) { h with nextAction := h.dataAction }
    return (s.matrix, s.dimension) := by
  have hheader : ∀ (ls : List (List Char)) s, (∀ l ∈ ls, isSection l = false) → HeaderDone available s →
      ls.foldlM (TspLibLoader.act dist available) s = ls.foldlM (TspLibLoader.readCommonLine available) s := by
    intro ls
    induction ls with
    | nil => exact fun _ _ _ => rfl
    | cons l ls ih =>
      intro s hls hs
      obtain ⟨hl, hls⟩ := List.forall_mem_cons.mp hls
      have hact : TspLibLoader.act dist available s l = s.readCommonLine available l := by
        rw [TspLibLoader.act, hs.next]
      have hnext := hs.readCommonLine hl
      rw [List.foldlM_cons, List.foldlM_cons, hact]
      cases hrun : s.readCommonLine available l with
      | error e => rfl
      | ok t =>
        rw [hrun] at hnext
        exact ih t hls hnext.1
  have hsection : ∀ s l, isSection l = true →
      TspLibLoader.readCommonLine available s l = .ok { s with nextAction := s.dataAction } := by
    intro s l hl
    rcases Bool.or_eq_true_iff.mp hl with h | h
    all_goals
      obtain ⟨w, rfl⟩ := List.isPrefixOf_iff_prefix.mp h
      rfl
  have hsplit : lines text = headerLines text ++ (lines text).dropWhile (!isSection ·) :=
    List.takeWhile_append_dropWhile.symm
  have hrun := hheader (headerLines text) { nextAction := some .readCommonLine }
    (fun l hl => isSection_headerLines hl) headerDone_init
  have hspec := declared_spec available text
  rw [TspLibLoader.load, hsplit, List.foldlM_append, hrun]
  show (declared available text >>= _) >>= _ = declared available text >>= _
  cases hd : declared available text with
  | error e => rfl
  | ok h =>
    rw [hd] at hspec
    show (List.foldlM (TspLibLoader.act dist available) h ((lines text).dropWhile (!isSection ·)) >>= _) = _
    cases hdrop : (lines text).dropWhile (!isSection ·) with
    | nil =>
      have hbody : bodyLines text = [] := by rw [bodyLines, hdrop]; rfl
      rw [hbody]
      rfl
    | cons l body =>
      have hbody : bodyLines text = body := by rw [bodyLines, hdrop]; rfl
      have hl : isSection l = true := by
        have hhead := List.head?_dropWhile_not (!isSection ·) (lines text)
        rw [hdrop] at hhead
        simpa using hhead
      have hact : TspLibLoader.act dist available h l = .ok { h with nextAction := h.dataAction } := by
        rw [TspLibLoader.act, hspec.next]
        exact hsection h l hl
      rw [hbody, List.foldlM_cons, hact]
      rfl

/-! ### The data -/

theorem sound_bind_iff {x : Except Failure TspLibLoader} {B : Prop}
    (h : Ends (fun t => Sound (shrink available maxDimension t.matrix t.dimension) ↔ B)
      (fun e => e ≠ .undefined ↔ B) x) :
    Sound (x >>= fun t => shrink available maxDimension t.matrix t.dimension) ↔ B := by
  cases x with
  | error e => exact h
  | ok t => exact h

/-- An instance with numbers after it is one only if its leading block is taken. -/
theorem fits_append {a v : List ValueType} (hd : d * d ≤ maxSize) (hc : a.length = d * d)
    (hdiag : ∀ i < d, a[i * d + i]? = some mVal) :
    Fits available maxDimension d (a ++ v).length (fun x => (a ++ v)[x]? = some mVal) ↔
      v = [] ∨ maxDimension ≠ 0 ∧ maxDimension < d := by
  have hleft : ∀ i < d, (a ++ v)[i * d + i]? = some mVal := fun i hi => by
    rw [List.getElem?_append_left (hc ▸ cell_lt hi hi)]
    exact hdiag i hi
  unfold Fits
  split
  · next hmax =>
    refine iff_of_true (.inr ⟨?_, fun i hi j hj => ?_, fun i hi => ?_⟩) (.inr hmax)
    · exact (Nat.mul_le_mul hmax.2.le hmax.2.le).trans hd
    · have hlt : j * d + i < d * d := cell_lt (hj.trans hmax.2) (hi.trans hmax.2)
      rw [Nat.add_comm, sizeT_of_le (hlt.le.trans hd), List.length_append, hc]
      omega
    · have hlt : i < d := hi.trans hmax.2
      rw [Nat.add_comm, sizeT_cell hd hlt hlt]
      exact hleft i hlt
  · next hmax =>
    rw [or_iff_left hmax, and_iff_left hleft, List.length_append, hc, Nat.add_eq_left,
      List.length_eq_zero_iff]

section Lower

/-- There are numbers enough for the lower triangle. -/
def Enough (d : ℕ) (ls : List (List Char)) : Prop :=
  d * d ≤ maxSize ∧ d * (d + 1) / 2 ≤ (values (beforeEof ls)).length + 1

/-- What the lines have left of the lower triangle. -/
structure LowerDone (d : ℕ) (ls : List (List Char)) (t : TspLibLoader) : Prop where
  next : t.nextAction = some .readLowerDiagDataLine
  dimension : t.dimension = d
  opened : ls.any isEof = false → t.matrix = values ls
  closed : ls.any isEof = true → Enough d ls ∧ ∃ a : List ValueType, a.length = d * d ∧
    (∀ i < d, a[i * d + i]? = some mVal) ∧ t.matrix = a ++ values (afterEof ls)

theorem any_data (h : isEof line = false) : (done ++ [line]).any isEof = done.any isEof := by
  simp [h]

theorem any_eof (h : isEof line = true) : (done ++ line :: rest).any isEof = true := by
  simp [h]

theorem LowerDone.step {t : TspLibLoader} (T : LowerDone d done t) (rest : List (List Char))
    (hsize : sizeT (d * d) ≤ limit available) (hdim : d * d ≤ maxSize ∨ 2 ^ 63 ≤ d) (hlt : d < 2 ^ 64) :
    Ends (LowerDone d (done ++ [line]))
      (fun e => e = .undefined ∧ ¬ Enough d (done ++ line :: rest) ∧ isEof line = true)
      (t.act dist available line) := by
  rw [TspLibLoader.act, T.next]
  show Ends _ _ (t.readLowerDiagDataLine available line)
  cases hline : isEof line with
  | false =>
    have hact : t.readLowerDiagDataLine available line = .ok { t with matrix := t.matrix ++ readDoubles line } :=
      if_pos (by rw [← isEof, hline]; decide)
    rw [hact]
    refine ⟨T.next, T.dimension, fun h => ?_, fun h => ?_⟩
    · rw [any_data hline] at h
      rw [values_append, values_data hline, T.opened h]
    · rw [any_data hline] at h
      obtain ⟨henough, a, hc, hdiag, hmatrix⟩ := T.closed h
      refine ⟨?_, a, hc, hdiag, ?_⟩
      · rwa [Enough, beforeEof_append h]
      · rw [afterEof_data hline, values_append, values_data hline, ← List.append_assoc, ← hmatrix]
  | true =>
    have hact : t.readLowerDiagDataLine available line = (do
        let matrix ← resize available [] (sizeT (d * d))
        let m ← (List.range d).foldlM (TspLibLoader.mirrorRow d t.matrix) (matrix, 0)
        return { t with matrix := m.1 }) := by
      rw [← T.dimension]
      exact if_neg (by rw [← isEof, hline]; decide)
    have hany : (done ++ [line]).any isEof = true := any_eof hline
    -- With numbers enough the matrix is closed.
    have hclose : d * d ≤ maxSize → d * (d + 1) / 2 ≤ t.matrix.length + 1 →
        Enough d (done ++ [line]) → Ends (LowerDone d (done ++ [line]))
          (fun e => e = .undefined ∧ ¬ Enough d (done ++ line :: rest) ∧ true = true)
          (t.readLowerDiagDataLine available line) := by
      intro hd hdata henough
      obtain ⟨m₀, r, hm₀, hr, hlen, hdiag⟩ := mirror_ok hd
        (sizeT_of_le hd ▸ hsize.trans (min_le_left _ _)) hdata
      rw [hact, hm₀]
      show Ends _ _ (List.foldlM _ _ _ >>= _)
      rw [hr]
      refine ⟨T.next, T.dimension, fun h => absurd h (by rw [hany]; decide), fun _ => ⟨henough, r.1,
        hlen, hdiag, ?_⟩⟩
      rw [afterEof_eof hline]
      exact (List.append_nil _).symm
    cases hdone : done.any isEof with
    | true =>
      obtain ⟨henough, a, hc, _, hmatrix⟩ := T.closed hdone
      refine hclose henough.1 ?_ (by rwa [Enough, beforeEof_append hdone])
      have hle := Nat.le_mul_self d
      rw [hmatrix, List.length_append, hc, Nat.mul_add_one]
      omega
    | false =>
      have hmatrix := T.opened hdone
      by_cases henough : Enough d (done ++ [line])
      · refine hclose henough.1 ?_ henough
        have h := henough.2
        rwa [beforeEof_cons hdone hline, ← hmatrix] at h
      · have hnot : ¬ Enough d (done ++ line :: rest) := by
          have hsame : beforeEof (done ++ [line]) = done := beforeEof_cons hdone hline
          rwa [Enough, beforeEof_cons hdone hline, ← hsame]
        have hrun : Ends (fun _ => d * d ≤ maxSize ∧ d * (d + 1) / 2 ≤ t.matrix.length + 1) (· = .undefined)
            ((List.range d).foldlM (TspLibLoader.mirrorRow d t.matrix)
              (List.replicate (sizeT (d * d)) 0, 0)) :=
          ends_mirror (hsize.trans (min_le_right _ _)) hdim hlt List.length_replicate
        rw [hact, resize_nil hsize]
        show Ends _ _ (List.foldlM _ _ _ >>= _)
        cases hr : (List.range d).foldlM (TspLibLoader.mirrorRow d t.matrix)
            (List.replicate (sizeT (d * d)) 0, 0) with
        | error e =>
          rw [hr] at hrun
          exact ⟨hrun, hnot, rfl⟩
        | ok r =>
          rw [hr] at hrun
          refine absurd ?_ henough
          rw [Enough, beforeEof_cons hdone hline, ← hmatrix]
          exact hrun

theorem lower_iff (h : HeaderDone available s) {body : List (List Char)} :
    Sound (body.foldlM (TspLibLoader.act dist available) { s with nextAction := some .readLowerDiagDataLine } >>=
      fun t => shrink available maxDimension t.matrix t.dimension) ↔
      BodyFits available maxDimension s.dimension (some .readLowerDiagDataLine) body := by
  have hrun : Ends (LowerDone s.dimension body)
      (fun e => e = .undefined ∧ ¬ Enough s.dimension body ∧ body.any isEof = true)
      (body.foldlM (TspLibLoader.act dist available) { s with nextAction := some .readLowerDiagDataLine }) := by
    refine Ends.foldlM (LowerDone s.dimension) (fun done line rest t hl T => ?_)
      ⟨rfl, rfl, fun _ => h.matrix, nofun⟩
    refine (T.step rest h.size h.small h.lt).imp (fun _ ht => ht) fun e ⟨he, hnot, hline⟩ => ?_
    exact ⟨he, hl ▸ hnot, by simp [hl, hline]⟩
  refine sound_bind_iff (hrun.imp (fun t T => ?_) fun e ⟨he, hnot, hany⟩ => ?_)
  · rw [sound_shrink_iff, T.dimension, BodyFits]
    split
    · next hany =>
      obtain ⟨henough, a, hc, hdiag, hmatrix⟩ := T.closed hany
      rw [hmatrix, fits_append henough.1 hc hdiag, and_iff_right henough.1, and_iff_right henough.2]
    · next hany => rw [T.opened (eq_false_of_ne_true hany)]
  · rw [BodyFits, if_pos hany]
    exact iff_of_false (not_not.mpr he) fun hfits => hnot ⟨hfits.1, hfits.2.1⟩

end Lower

section Full

/-- The cells of the diagonal are in range where the first `EOF` sets them. -/
def InRange (d : ℕ) (ls : List (List Char)) : Prop :=
  ls.any isEof → ∀ i < d, sizeT (i * d + i) < (values (beforeEof ls)).length

/-- What the lines have left of the full matrix. -/
structure FullDone (d : ℕ) (ls : List (List Char)) (t : TspLibLoader) : Prop where
  next : t.nextAction = some .readFullMatrixDataLine
  dimension : t.dimension = d
  length : t.matrix.length = (values ls).length
  range : InRange d ls
  cell : ∀ x, t.matrix[x]? = some mVal ↔
    (values ls)[x]? = some mVal ∨ ls.any isEof ∧ ∃ i < d, x = sizeT (i * d + i)

theorem values_before_le : (values (beforeEof done)).length ≤ (values done).length := by
  have h : done = beforeEof done ++ done.dropWhile (!isEof ·) := List.takeWhile_append_dropWhile.symm
  rw [congrArg values h, values_append, List.length_append]
  exact Nat.le_add_right _ _

theorem FullDone.step {t : TspLibLoader} (T : FullDone d done t) :
    Ends (FullDone d (done ++ [line]))
      (fun e => e = .undefined ∧ ¬ InRange d (done ++ line :: rest)) (t.act dist available line) := by
  rw [TspLibLoader.act, T.next]
  show Ends _ _ (t.readFullMatrixDataLine line)
  cases hline : isEof line with
  | false =>
    have hact : t.readFullMatrixDataLine line = .ok { t with matrix := t.matrix ++ readDoubles line } :=
      if_pos (by rw [← isEof, hline]; decide)
    have hvalues : values (done ++ [line]) = values done ++ readDoubles line := by
      rw [values_append, values_data hline]
    rw [hact]
    refine ⟨T.next, T.dimension, ?_, fun h => ?_, fun x => ?_⟩
    · rw [hvalues, List.length_append, List.length_append, T.length]
    · rw [any_data hline] at h
      rw [beforeEof_append h]
      exact T.range h
    · rw [any_data hline, hvalues]
      rcases Nat.lt_or_ge x (values done).length with hx | hx
      · rw [List.getElem?_append_left (T.length ▸ hx), List.getElem?_append_left hx]
        exact T.cell x
      · rw [List.getElem?_append_right (T.length ▸ hx), List.getElem?_append_right hx, T.length]
        refine (or_iff_left ?_).symm
        rintro ⟨hany, i, hi, rfl⟩
        exact absurd (((T.range hany) i hi).trans_le values_before_le) (not_lt.mpr hx)
  | true =>
    have hact : t.readFullMatrixDataLine line = (do
        let matrix ← (List.range d).foldlM (TspLibLoader.fixDiagonal d) t.matrix
        return { t with matrix := matrix }) := by
      rw [← T.dimension]
      exact if_neg (by rw [← isEof, hline]; decide)
    have hvalues : values (done ++ [line]) = values done := by
      rw [values_append, values_eof hline, List.append_nil]
    have hany : (done ++ [line]).any isEof = true := any_eof hline
    have hfail : (∀ i < d, sizeT (i * d + i) < t.matrix.length) ∨
        Failure.undefined = .undefined ∧ ¬ InRange d (done ++ line :: rest) := by
      rw [T.length]
      cases hdone : done.any isEof with
      | true => exact .inl fun i hi => (T.range hdone i hi).trans_le values_before_le
      | false =>
        refine or_iff_not_imp_right.mpr fun hin => ?_
        have hin := not_not.mp (not_and.mp hin rfl)
        rw [InRange, beforeEof_cons hdone hline] at hin
        exact hin (any_eof hline)
    rw [hact]
    refine (ends_fixDiagonal (e := fun e => e = .undefined ∧ ¬ InRange d (done ++ line :: rest))
      hfail).bind fun m' hm' => ?_
    obtain ⟨hlen, hrange, hcell⟩ := hm'
    refine ⟨T.next, T.dimension, by rw [hvalues]; exact hlen.trans T.length, fun _ => ?_, fun x => ?_⟩
    · cases hdone : done.any isEof with
      | true =>
        rw [beforeEof_append hdone]
        exact T.range hdone
      | false =>
        rw [beforeEof_cons hdone hline, ← T.length]
        exact hrange
    · rw [hany, hvalues, and_iff_right rfl]
      refine (hcell x).trans ?_
      rw [T.cell x, or_assoc, or_congr_right]
      exact or_iff_right_of_imp And.right

theorem full_iff (h : HeaderDone available s) {body : List (List Char)} :
    Sound (body.foldlM (TspLibLoader.act dist available) { s with nextAction := some .readFullMatrixDataLine } >>=
      fun t => shrink available maxDimension t.matrix t.dimension) ↔
      BodyFits available maxDimension s.dimension (some .readFullMatrixDataLine) body := by
  have hrun : Ends (FullDone s.dimension body) (fun e => e = .undefined ∧ ¬ InRange s.dimension body)
      (body.foldlM (TspLibLoader.act dist available) { s with nextAction := some .readFullMatrixDataLine }) := by
    refine Ends.foldlM (FullDone s.dimension) (fun done line rest t hl T => hl ▸ T.step)
      ⟨rfl, rfl, by rw [h.matrix]; rfl, nofun, fun x => by simp [h.matrix, values]⟩
  refine sound_bind_iff (hrun.imp (fun t T => ?_) fun e ⟨he, hnot⟩ => ?_)
  · show _ ↔ InRange s.dimension body ∧ _
    rw [sound_shrink_iff, T.dimension, and_iff_right T.range, T.length]
    simp only [T.cell]
  · exact iff_of_false (not_not.mpr he) fun hfits => hnot hfits.1

end Full

section Coords

/-- What the lines have left of the distances. -/
structure CoordsDone (d : ℕ) (ls : List (List Char)) (t : TspLibLoader) : Prop where
  next : t.nextAction = some .readCoordsDataLine
  dimension : t.dimension = d
  opened : ls.any isEof = false → t.coords.length = ls.length ∧ t.matrix = []
  closed : ls.any isEof = true → d * d ≤ maxSize ∧ t.matrix.length = d * d ∧
    ∀ i < d, t.matrix[i * d + i]? = some mVal

/-- How reading coordinates fails: by throwing, unless the dimension is negative. -/
def CoordsFail (d : ℕ) (ls : List (List Char)) (e : Failure) : Prop :=
  ls.any isEof ∧ (e ≠ .undefined ↔ d * d ≤ maxSize ∨ (beforeEof ls).length ≠ d)

theorem exists_resize (hn : n ≤ limit available) (hm : m.length ≤ n) :
    ∃ m', resize available m n = .ok m' ∧ m'.length = n := by
  obtain ⟨ha, hmax⟩ := le_min_iff.mp hn
  refine ⟨_, resize_ok hmax ha, ?_⟩
  rw [List.length_append, List.length_take, List.length_replicate]
  omega

theorem CoordsDone.step {t : TspLibLoader} (T : CoordsDone d done t) (rest : List (List Char))
    (hsize : sizeT (d * d) ≤ limit available) (hdim : d * d ≤ maxSize ∨ 2 ^ 63 ≤ d) (hlt : d < 2 ^ 64) :
    Ends (CoordsDone d (done ++ [line])) (CoordsFail d (done ++ line :: rest)) (t.act dist available line) := by
  rw [TspLibLoader.act, T.next]
  show Ends _ _ (t.readCoordsDataLine dist available line)
  cases hline : isEof line with
  | false =>
    have hact : t.readCoordsDataLine dist available line =
      .ok { t with coords := t.coords ++ [TspLibLoader.readPoint line] } :=
      if_pos (by rw [← isEof, hline]; decide)
    rw [hact]
    refine ⟨T.next, T.dimension, fun h => ?_, fun h => ?_⟩
    · rw [any_data hline] at h
      obtain ⟨hlen, hmatrix⟩ := T.opened h
      refine ⟨?_, hmatrix⟩
      show (t.coords ++ [TspLibLoader.readPoint line]).length = _
      rw [List.length_append, List.length_append, hlen, List.length_singleton, List.length_singleton]
    · rw [any_data hline] at h
      exact T.closed h
  | true =>
    have hact : t.readCoordsDataLine dist available line =
        if t.coords.length ≠ d then .error (.logicError "Read invalid number of coords".toList)
        else do
          let matrix ← resize available t.matrix (sizeT (d * d))
          let matrix ← (List.range d).foldlM (TspLibLoader.distanceRow dist d t.coords) matrix
          return { t with matrix := matrix } := by
      rw [← T.dimension]
      exact if_neg (by rw [← isEof, hline]; decide)
    have hany : ∀ ls, (done ++ line :: ls).any isEof = true := fun _ => any_eof hline
    have hbefore : done.any isEof = false → (beforeEof (done ++ line :: rest)).length = t.coords.length :=
      fun h => by rw [beforeEof_cons h hline, (T.opened h).1]
    have hm : t.matrix.length ≤ sizeT (d * d) := by
      cases hdone : done.any isEof with
      | true =>
        obtain ⟨hd, hlen, _⟩ := T.closed hdone
        rw [hlen, sizeT_of_le hd]
      | false => rw [(T.opened hdone).2]; exact Nat.zero_le _
    obtain ⟨m₀, hm₀, hlen₀⟩ := exists_resize hsize hm
    rw [hact]
    by_cases hcount : t.coords.length = d
    · rw [if_neg (not_not.mpr hcount), hm₀]
      show Ends _ _ (List.foldlM _ _ _ >>= _)
      rcases hdim with hd | hneg
      · obtain ⟨m', hm', hlen, hdiag⟩ : ∃ m', (List.range d).foldlM
            (TspLibLoader.distanceRow dist d t.coords) m₀ = .ok m' ∧ m'.length = d * d ∧
              ∀ i < d, m'[i * d + i]? = some mVal :=
          distance_ok hd hcount (hlen₀.trans (sizeT_of_le hd))
        rw [hm']
        exact ⟨T.next, T.dimension, fun h => absurd h (by rw [hany]; decide), fun _ => ⟨hd, hlen, hdiag⟩⟩
      · have hlarge : ¬ d * d ≤ maxSize := fun hd => by
          have hle := (Nat.le_mul_self d).trans hd
          unfold maxSize at hle
          omega
        have hopen : done.any isEof = false :=
          eq_false_of_ne_true fun h => hlarge (T.closed h).1
        refine ((ends_distance (hsize.trans (min_le_right _ _)) hneg hlt hlen₀).imp
          (fun _ h => h) fun e he => ?_).bind
          fun _ h => h.elim
        refine ⟨hany rest, iff_of_false (not_not.mpr he) (not_or.mpr ⟨hlarge, not_not.mpr ?_⟩)⟩
        rw [hbefore hopen, hcount]
    · rw [if_pos hcount]
      refine ⟨hany rest, iff_of_true (fun h => by cases h) ?_⟩
      cases hdone : done.any isEof with
      | true => exact .inl (T.closed hdone).1
      | false => exact .inr (hbefore hdone ▸ hcount)

/-- An instance needs nothing else. -/
theorem fits_closed {a : List ValueType} (hd : d * d ≤ maxSize) (hc : a.length = d * d)
    (hdiag : ∀ i < d, a[i * d + i]? = some mVal) :
    Fits available maxDimension d a.length fun x => a[x]? = some mVal := by
  have h : Fits available maxDimension d (a ++ []).length (fun x => (a ++ [])[x]? = some mVal) :=
    (fits_append hd hc hdiag).mpr (.inl rfl)
  rwa [List.append_nil] at h

theorem coords_iff (h : HeaderDone available s) {body : List (List Char)} :
    Sound (body.foldlM (TspLibLoader.act dist available) { s with nextAction := some .readCoordsDataLine } >>=
      fun t => shrink available maxDimension t.matrix t.dimension) ↔
      BodyFits available maxDimension s.dimension (some .readCoordsDataLine) body := by
  have hrun : Ends (CoordsDone s.dimension body) (CoordsFail s.dimension body)
      (body.foldlM (TspLibLoader.act dist available) { s with nextAction := some .readCoordsDataLine }) := by
    refine Ends.foldlM (CoordsDone s.dimension)
      (fun done line rest t hl T => hl ▸ T.step rest h.size h.small h.lt)
      ⟨rfl, rfl, fun _ => ⟨by rw [h.coords]; rfl, h.matrix⟩, nofun⟩
  refine sound_bind_iff (hrun.imp (fun t T => ?_) fun e ⟨hany, hiff⟩ => ?_)
  · rw [sound_shrink_iff, T.dimension, BodyFits]
    split
    · next hany =>
      obtain ⟨hd, hlen, hdiag⟩ := T.closed hany
      exact iff_of_true (fits_closed hd hlen hdiag) (.inl hd)
    · next hany =>
      rw [(T.opened (eq_false_of_ne_true hany)).2]
      simp
  · rw [BodyFits, if_pos hany]
    exact hiff

end Coords

theorem none_iff (h : HeaderDone available s) {body : List (List Char)} :
    Sound (body.foldlM (TspLibLoader.act dist available) { s with nextAction := none } >>=
      fun t => shrink available maxDimension t.matrix t.dimension) ↔
      BodyFits available maxDimension s.dimension none body := by
  cases body with
  | nil =>
    show Sound (shrink available maxDimension s.matrix s.dimension) ↔ [] = [] ∧ _
    rw [sound_shrink_iff, h.matrix, and_iff_right rfl]
    simp
  | cons line body => exact iff_of_false (fun h => h rfl) fun h => nomatch h.1

/-- The data, whatever action the header has set. -/
theorem body_iff (h : HeaderDone available s) {action : Option Action} (ha : action ≠ some .readCommonLine)
    {body : List (List Char)} :
    Sound (body.foldlM (TspLibLoader.act dist available) { s with nextAction := action } >>=
      fun t => shrink available maxDimension t.matrix t.dimension) ↔
      BodyFits available maxDimension s.dimension action body := by
  cases action with
  | none => exact none_iff h
  | some action =>
    cases action with
    | readCommonLine => exact absurd rfl ha
    | readLowerDiagDataLine => exact lower_iff h
    | readFullMatrixDataLine => exact full_iff h
    | readCoordsDataLine => exact coords_iff h

/-- `load_tsplib_problem` throws or returns an instance if and only if the text throws in its header or
describes an instance, whatever memory there is. -/
theorem loadTsplibProblem_sound_iff (available : ℕ) (distance : Point → Point → ValueType)
    (text : List Char) (maxDimension : ℕ) :
    Sound (loadTsplibProblemWithin available distance text maxDimension) ↔
      Describes available text maxDimension := by
  have hload : loadTsplibProblemWithin available distance text maxDimension =
      TspLibLoader.load distance available text >>= fun r => shrink available maxDimension r.1 r.2 := rfl
  have hspec := declared_spec available text
  rw [hload, load_eq, Describes]
  cases hd : declared available text with
  | error e =>
    rw [hd] at hspec
    obtain ⟨line, hfind, he⟩ := hspec
    rw [hfind]
    exact he
  | ok h =>
    rw [hd] at hspec
    rw [hspec.fine, ← hspec.dimension, ← hspec.dataAction]
    have hrun : ∀ x : Except Failure TspLibLoader,
        ((Except.ok h >>= fun _ => x >>= fun s => pure (s.matrix, s.dimension)) >>=
          fun r : List ValueType × ℕ => shrink available maxDimension r.1 r.2) =
        x >>= fun t => shrink available maxDimension t.matrix t.dimension := fun x => by cases x <;> rfl
    exact (iff_of_eq (congrArg Sound (hrun _))).trans (body_iff hspec.toHeaderDone hspec.action)

/-- Without an `EOF` line nothing checks what has been read: no data at all leaves an empty matrix, and
data before its format has no action to go to. -/
theorem loadTsplibProblem_malformed :
    loadTsplibProblem (fun _ _ => 0) "DIMENSION: 3\n".toList 0 = .ok ([], 3) ∧
      ¬ Sound (loadTsplibProblem (fun _ _ => 0) "DIMENSION: 3\n".toList 0) ∧
      loadTsplibProblem (fun _ _ => 0) "EDGE_WEIGHT_SECTION\n1\n".toList 0 = .error .undefined ∧
      ¬ Sound (loadTsplibProblem (fun _ _ => 0) "EDGE_WEIGHT_SECTION\n1\n".toList 0) := by
  have hempty : loadTsplibProblem (fun _ _ => 0) "DIMENSION: 3\n".toList 0 = .ok ([], 3) := by
    decide +kernel
  have hcall : loadTsplibProblem (fun _ _ => 0) "EDGE_WEIGHT_SECTION\n1\n".toList 0 =
      .error .undefined := by decide +kernel
  refine ⟨hempty, ?_, hcall, ?_⟩
  · rw [hempty]
    exact fun h => nomatch h.1
  · rw [hcall]
    exact fun h => h rfl

end Optimer.Tsp
