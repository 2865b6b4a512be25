import Optimer.Tsp.OneTree
import Optimer.Tsp.OneTreeSpec

/-! `MSOneTree::solve` makes a minimum 1-tree, unless the first vertex it joins to vertex `1` is
vertex `0`. -/

namespace Optimer.MSOneTree
open Optimer.Tsp SpanningTree

variable {T : Type*} [LinearOrder T]

/-! ### The first smallest entry of a row -/

theorem minElement_spec (row : ℕ → T) {n : ℕ} (hn : 0 < n) :
    minElement row n < n ∧ (∀ j < n, row (minElement row n) ≤ row j) ∧
      ∀ j < minElement row n, row (minElement row n) < row j := by
  have h := Loop.foldl_range' (a := 1) (m := n - 1)
    (f := fun best j => if row j < row best then j else best)
    (fun k best => best < k ∧ (∀ j < k, row best ≤ row j) ∧ ∀ j < best, row best < row j)
    (fun k best hk hlt ⟨hb, hle, hfirst⟩ => ?_) (s := 0) ⟨Nat.one_pos, by simp, by simp⟩
  · rwa [Nat.add_sub_cancel' hn] at h
  · split
    · next hlt' =>
      refine ⟨Nat.lt_succ_self k, fun j hj => ?_, fun j hj => hlt'.trans_le (hle j hj)⟩
      rcases Nat.lt_succ_iff_lt_or_eq.mp hj with hj | rfl
      exacts [hlt'.le.trans (hle j hj), le_rfl]
    · next hge =>
      refine ⟨Nat.lt_succ_of_lt hb, fun j hj => ?_, hfirst⟩
      rcases Nat.lt_succ_iff_lt_or_eq.mp hj with hj | rfl
      exacts [hle j hj, not_lt.mp hge]

/-- The costs `MSOneTree::solve` is meant for. -/
structure EdgeCosts [MaxVal T] (n : ℕ) (matrix : ℕ → ℕ → T) : Prop where
  symm : SymmetricOn n matrix
  lt_maxVal : ∀ i < n, ∀ j < n, i ≠ j → matrix i j < maxVal
  lt_diag : ∀ i < n, ∀ j < n, i ≠ j → ∀ k < n, matrix i j < matrix k k

/-- The same without the diagonal. -/
structure OffDiagonal [MaxVal T] (n : ℕ) (matrix : ℕ → ℕ → T) : Prop where
  symm : SymmetricOn n matrix
  lt_maxVal : ∀ i < n, ∀ j < n, i ≠ j → matrix i j < maxVal

theorem EdgeCosts.offDiagonal [MaxVal T] {n : ℕ} {matrix : ℕ → ℕ → T} (C : EdgeCosts n matrix) :
    OffDiagonal n matrix := ⟨C.symm, C.lt_maxVal⟩

section Mins

variable [MaxVal T] {n i j k v : ℕ} {matrix : ℕ → ℕ → T} {mins : (ℕ → ℕ) × (ℕ → T)}

/-- Vertex `i` of the tree knows a nearest vertex outside. -/
structure Nearest (n : ℕ) (matrix : ℕ → ℕ → T) (mins : (ℕ → ℕ) × (ℕ → T)) (i : ℕ) : Prop where
  mem : mins.1 i ∈ Finset.Ico 1 n
  outside : n ≤ mins.1 (mins.1 i)
  value : mins.2 i = matrix i (mins.1 i)
  least : ∀ j ∈ Finset.Ico 1 n, n ≤ mins.1 j → mins.2 i ≤ matrix i j

omit [MaxVal T] in
theorem Nearest.congr {mins' : (ℕ → ℕ) × (ℕ → T)} (N : Nearest n matrix mins i)
    (hstatus : ∀ k, mins'.1 k < n ↔ mins.1 k < n) (h1 : mins'.1 i = mins.1 i)
    (h2 : mins'.2 i = mins.2 i) : Nearest n matrix mins' i where
  mem := h1 ▸ N.mem
  outside := by
    have := N.outside
    rw [← not_lt] at this ⊢
    rwa [hstatus, h1]
  value := by rw [h1, h2, N.value]
  least j hj hout := by
    rw [h2]
    exact N.least j hj (not_lt.mp ((hstatus j).not.mp (not_lt.mpr hout)))

/-- The inner loop of `update_mins` for vertex `i` before column `j`; `mins` are the arrays before
the loop. -/
structure Looked (n : ℕ) (matrix : ℕ → ℕ → T) (mins : (ℕ → ℕ) × (ℕ → T)) (i j : ℕ)
    (r : (ℕ → ℕ) × (ℕ → T)) : Prop where
  other : ∀ k, k ≠ i → r.1 k = mins.1 k ∧ r.2 k = mins.2 k
  included : r.1 i < n
  least : ∀ k, 1 ≤ k → k < j → n ≤ mins.1 k → r.2 i ≤ matrix i k
  found : r.2 i = maxVal ∨ 1 ≤ r.1 i ∧ n ≤ mins.1 (r.1 i) ∧ r.2 i = matrix i (r.1 i)

theorem Looked.status {r : (ℕ → ℕ) × (ℕ → T)} (L : Looked n matrix mins i j r)
    (hin : mins.1 i < n) (k : ℕ) : r.1 k < n ↔ mins.1 k < n := by
  by_cases hk : k = i
  · subst hk
    exact iff_of_true L.included hin
  · rw [(L.other k hk).1]

theorem Looked.step {r : (ℕ → ℕ) × (ℕ → T)} (L : Looked n matrix mins i j r)
    (hin : mins.1 i < n) (hj : 1 ≤ j) (hjn : j < n) :
    Looked n matrix mins i (j + 1) (Prim.updateMin matrix n i r j) := by
  have hstatus := L.status hin j
  rw [Prim.updateMin, Prim.vertexIsIncluded]
  by_cases hin' : mins.1 j < n
  · rw [if_pos (decide_eq_true (hstatus.mpr hin'))]
    refine { L with least := fun k hk hkj hout => L.least k hk ?_ hout }
    rcases Nat.lt_succ_iff_lt_or_eq.mp hkj with hkj | rfl
    exacts [hkj, absurd hin' (not_lt.mpr hout)]
  · rw [if_neg (by simpa using hstatus.not.mpr hin')]
    split
    · next hlt =>
      refine ⟨fun k hk => ?_, ?_, fun k hk hkj hk' => ?_, .inr ?_⟩ <;> simp only
      · rw [Function.update_of_ne hk, Function.update_of_ne hk]
        exact L.other k hk
      · rwa [Function.update_self]
      · rw [Function.update_self]
        rcases Nat.lt_succ_iff_lt_or_eq.mp hkj with hkj | rfl
        exacts [hlt.le.trans (L.least k hk hkj hk'), le_rfl]
      · rw [Function.update_self, Function.update_self]
        exact ⟨hj, not_lt.mp hin', rfl⟩
    · next hge =>
      refine { L with least := fun k hk hkj hk' => ?_ }
      rcases Nat.lt_succ_iff_lt_or_eq.mp hkj with hkj | rfl
      exacts [L.least k hk hkj hk', not_lt.mp hge]

theorem updateMin_looked (mins : (ℕ → ℕ) × (ℕ → T)) (hin : mins.1 i < n) :
    Looked n matrix mins i n ((List.range' 1 (n - 1)).foldl (Prim.updateMin matrix n i)
      (mins.1, Function.update mins.2 i maxVal)) := by
  have hstart : Looked n matrix mins i 1 (mins.1, Function.update mins.2 i maxVal) :=
    ⟨fun k hk => ⟨rfl, Function.update_of_ne hk _ _⟩, hin, fun k hk hk' => by omega,
      .inl (Function.update_self ..)⟩
  have L := Loop.foldl_range' (a := 1) (m := n - 1) (f := Prim.updateMin matrix n i)
    (Looked n matrix mins i) (fun k r hk hlt L => L.step hin hk (by omega)) hstart
  rwa [Nat.add_sub_cancel' (by omega)] at L

/-- The inner loop of `update_mins` finds the nearest vertex outside, when there is one. -/
theorem updateMin_spec (mins : (ℕ → ℕ) × (ℕ → T)) (C : OffDiagonal n matrix)
    (hi : i ∈ Finset.Ico 1 n) (hin : mins.1 i < n) :
    ∃ r, (List.range' 1 (n - 1)).foldl (Prim.updateMin matrix n i)
        (mins.1, Function.update mins.2 i maxVal) = r ∧
      (∀ k, k ≠ i → r.1 k = mins.1 k ∧ r.2 k = mins.2 k) ∧ (∀ k, r.1 k < n ↔ mins.1 k < n) ∧
      ((∃ j ∈ Finset.Ico 1 n, n ≤ mins.1 j) → Nearest n matrix r i) := by
  have L : Looked n matrix mins i n _ := updateMin_looked mins hin
  rw [Finset.mem_Ico] at hi
  refine ⟨_, rfl, L.other, L.status hin, fun ⟨j, hj, hout⟩ => ?_⟩
  generalize (List.range' 1 (n - 1)).foldl (Prim.updateMin matrix n i) _ = r at *
  rw [Finset.mem_Ico] at hj
  have hlt := (L.least j hj.1 hj.2 hout).trans_lt
    (C.lt_maxVal i hi.2 j hj.2 fun h => absurd hin (not_lt.mpr (h ▸ hout)))
  obtain ⟨hone, hout', hval⟩ := L.found.resolve_left hlt.ne
  have hstill : ∀ {k}, n ≤ r.1 k ↔ n ≤ mins.1 k := fun {k} => by
    rw [← not_lt, ← not_lt, L.status hin]
  exact ⟨Finset.mem_Ico.mpr ⟨hone, L.included⟩, hstill.mpr hout', hval, fun k hk hk' =>
    L.least k (Finset.mem_Ico.mp hk).1 (Finset.mem_Ico.mp hk).2 (hstill.mp hk')⟩

/-- The outer loop of `update_mins` before row `k`. -/
structure Updated (n : ℕ) (matrix : ℕ → ℕ → T) (mins : (ℕ → ℕ) × (ℕ → T)) (k : ℕ)
    (r : (ℕ → ℕ) × (ℕ → T)) : Prop where
  status : ∀ i, r.1 i < n ↔ mins.1 i < n
  later : ∀ i, k ≤ i → r.1 i = mins.1 i ∧ r.2 i = mins.2 i
  nearest : (∃ j ∈ Finset.Ico 1 n, n ≤ mins.1 j) →
    ∀ i, 1 ≤ i → i < k → mins.1 i < n → Nearest n matrix r i

theorem Updated.step {r : (ℕ → ℕ) × (ℕ → T)} (U : Updated n matrix mins k r)
    (C : OffDiagonal n matrix) (hv : v < n) (hk : k ∈ Finset.Ico 1 n)
    (hmins : mins.1 k < n → mins.1 k = v ∨ Nearest n matrix mins k) :
    Updated n matrix mins (k + 1) (Prim.updateRow matrix n v r k) := by
  rw [Prim.updateRow]
  split
  · next hkv =>
    obtain ⟨r', hr', hother, hstatus', hnear⟩ := updateMin_spec r C hk (hkv ▸ hv)
    rw [hr']
    refine ⟨fun i => (hstatus' i).trans (U.status i), fun i hi => ?_, fun hout i hi hik hin => ?_⟩
    · obtain ⟨h1, h2⟩ := hother i (by omega)
      rw [h1, h2]
      exact U.later i (by omega)
    · rcases Nat.lt_succ_iff_lt_or_eq.mp hik with hik | rfl
      · obtain ⟨h1, h2⟩ := hother i (by omega)
        exact (U.nearest hout i hi hik hin).congr hstatus' h1 h2
      · obtain ⟨j, hj, hj'⟩ := hout
        exact hnear ⟨j, hj, not_lt.mp ((U.status j).not.mpr (not_lt.mpr hj'))⟩
  · next hkv =>
    refine ⟨U.status, fun i hi => U.later i (by omega), fun hout i hi hik hin => ?_⟩
    rcases Nat.lt_succ_iff_lt_or_eq.mp hik with hik | rfl
    · exact U.nearest hout i hi hik hin
    · obtain ⟨h1, h2⟩ := U.later i le_rfl
      rw [h1] at hkv
      exact ((hmins hin).resolve_left hkv).congr U.status h1 h2

/-- `update_mins` after `v` joined the tree: every vertex of the tree knows a nearest vertex outside
again, when there is one. -/
theorem updateMins_spec (mins : (ℕ → ℕ) × (ℕ → T)) (C : OffDiagonal n matrix) (hv : v < n)
    (hmins : ∀ i ∈ Finset.Ico 1 n, mins.1 i < n → mins.1 i = v ∨ Nearest n matrix mins i) :
    (∀ k, (Prim.updateMins matrix n v mins).1 k < n ↔ mins.1 k < n) ∧
      ((∃ j ∈ Finset.Ico 1 n, n ≤ mins.1 j) → ∀ i ∈ Finset.Ico 1 n, mins.1 i < n →
        Nearest n matrix (Prim.updateMins matrix n v mins) i) := by
  have hstart : Updated n matrix mins 1 mins :=
    ⟨fun _ => .rfl, fun _ _ => ⟨rfl, rfl⟩, fun _ i hi hi' => by omega⟩
  have U := Loop.foldl_range' (a := 1) (m := n - 1) (f := Prim.updateRow matrix n v)
    (Updated n matrix mins) (fun k r hk hlt U =>
      have hk : k ∈ Finset.Ico 1 n := Finset.mem_Ico.mpr ⟨hk, by omega⟩
      U.step C hv hk (hmins k hk)) hstart
  refine ⟨U.status, fun hout i hi hin => ?_⟩
  rw [Finset.mem_Ico] at hi
  exact U.nearest hout i hi.1 (by omega) hin

end Mins

/-! ### Prim's algorithm -/

section Prim

variable [MaxVal T] [AddCommGroup T] {n : ℕ} {matrix : ℕ → ℕ → T} {s : Prim.State T}
  {S : Finset ℕ}

/-- The tree on the vertices `S` while it grows. -/
structure Prim.Inv (n : ℕ) (matrix : ℕ → ℕ → T) (s : Prim.State T) (S : Finset ℕ) : Prop where
  grown : Grown matrix (Finset.Ico 1 n) Prim.startPoint S s.edges
  value : s.totalCost = SpanningTree.cost matrix s.edges
  included : ∀ i ∈ Finset.Ico 1 n, s.minIndices i < n ↔ i ∈ S
  nearest : (∃ j ∈ Finset.Ico 1 n, j ∉ S) → ∀ i ∈ S, Nearest n matrix (s.minIndices, s.minValues) i

omit [MaxVal T] [AddCommGroup T] in
/-- The edge of least value among those the tree knows. -/
theorem selectMin_spec {S : Finset ℕ} (hstart : Prim.startPoint ∈ S) (hS : S ⊆ Finset.Ico 1 n)
    (hin : ∀ i ∈ Finset.Ico 1 n, s.minIndices i < n ↔ i ∈ S) :
    ∃ u ∈ S, (List.range' (Prim.startPoint + 1) (n - (Prim.startPoint + 1))).foldl
        (Prim.selectMin n s) (Prim.startPoint, s.minValues Prim.startPoint) = (u, s.minValues u) ∧
      ∀ i ∈ S, s.minValues u ≤ s.minValues i := by
  have h := Loop.foldl_range' (a := 2) (m := n - 2) (f := Prim.selectMin n s)
    (fun k best => best.1 ∈ S ∧ best.2 = s.minValues best.1 ∧
      ∀ i ∈ S, i < k → best.2 ≤ s.minValues i)
    (fun k best hk hlt ⟨hmem, hval, hle⟩ => ?_)
    (s := (Prim.startPoint, s.minValues Prim.startPoint)) ⟨hstart, rfl, fun i hi hik => ?_⟩
  · obtain ⟨hmem, hval, hle⟩ := h
    refine ⟨_, hmem, Prod.ext rfl hval, fun i hi => hval ▸ hle i hi ?_⟩
    have := (Finset.mem_Ico.mp (hS hi)).2
    omega
  · have hkmem : k ∈ Finset.Ico 1 n := Finset.mem_Ico.mpr ⟨by omega, by omega⟩
    rw [Prim.selectMin, Prim.vertexIsIncluded]
    by_cases hkS : k ∈ S
    · rw [if_neg (by simpa using (hin k hkmem).mpr hkS)]
      split
      · next hlt' =>
        refine ⟨hkS, rfl, fun i hi hik => ?_⟩
        rcases Nat.lt_succ_iff_lt_or_eq.mp hik with hik | rfl
        exacts [hlt'.le.trans (hle i hi hik), le_rfl]
      · next hge =>
        refine ⟨hmem, hval, fun i hi hik => ?_⟩
        rcases Nat.lt_succ_iff_lt_or_eq.mp hik with hik | rfl
        exacts [hle i hi hik, not_lt.mp hge]
    · rw [if_pos (by simpa using (hin k hkmem).not.mpr hkS)]
      refine ⟨hmem, hval, fun i hi hik => ?_⟩
      rcases Nat.lt_succ_iff_lt_or_eq.mp hik with hik | rfl
      exacts [hle i hi hik, absurd hi hkS]
  · have h1 := (Finset.mem_Ico.mp (hS hi)).1
    obtain rfl : i = Prim.startPoint := by
      unfold Prim.startPoint
      omega
    exact le_rfl

variable [IsOrderedAddMonoid T]

/-- A round adds the nearest vertex. -/
theorem Prim.Inv.step (I : Prim.Inv n matrix s S) (C : OffDiagonal n matrix)
    (hout : ∃ j ∈ Finset.Ico 1 n, j ∉ S) :
    ∃ v ∈ Finset.Ico 1 n, v ∉ S ∧ Prim.Inv n matrix (Prim.step matrix n s) (insert v S) := by
  have hnear := I.nearest hout
  obtain ⟨u, hu, hsel, hle⟩ := selectMin_spec I.grown.root I.grown.subset I.included
  obtain ⟨v, hv⟩ : ∃ v, s.minIndices u = v := ⟨_, rfl⟩
  have N := hnear u hu
  have hvmem : v ∈ Finset.Ico 1 n := hv ▸ N.mem
  have hvS : v ∉ S := by
    rw [← I.included v hvmem, not_lt, ← hv]
    exact N.outside
  have huval : s.minValues u = matrix u v := by
    rw [← hv]
    exact N.value
  have hmin : ∀ x ∈ S, ∀ y ∈ Finset.Ico 1 n, y ∉ S → matrix u v ≤ matrix x y := fun x hx y hy hyS =>
    huval ▸ (hle x hx).trans ((hnear x hx).least y hy (not_lt.mp ((I.included y hy).not.mpr hyS)))
  have hsymm : ∀ a ∈ Finset.Ico 1 n, ∀ b ∈ Finset.Ico 1 n, matrix a b = matrix b a :=
    fun a ha b hb => C.symm a (Finset.mem_Ico.mp ha).2 b (Finset.mem_Ico.mp hb).2
  have G := I.grown.step hsymm hu hvmem hvS hmin
  have hvn : v < n := (Finset.mem_Ico.mp hvmem).2
  -- The arrays once `v` is marked, and what `update_mins` makes of them.
  have hmark : ∀ i ∈ Finset.Ico 1 n,
      Function.update s.minIndices v v i < n ↔ i ∈ insert v S := fun i hi => by
    by_cases hiv : i = v
    · simp [hiv, hvn]
    · rw [Function.update_of_ne hiv, I.included i hi, Finset.mem_insert, or_iff_right hiv]
  have hmins : ∀ i ∈ Finset.Ico 1 n, Function.update s.minIndices v v i < n →
      Function.update s.minIndices v v i = v ∨
        Nearest n matrix (Function.update s.minIndices v v, s.minValues) i := by
    intro i hi hin
    by_cases hiv : i = v
    · exact .inl (by rw [hiv, Function.update_self])
    · have hiS : i ∈ S := Finset.mem_of_mem_insert_of_ne ((hmark i hi).mp hin) hiv
      refine or_iff_not_imp_left.mpr fun hne => ?_
      rw [Function.update_of_ne hiv] at hne
      have Ni := hnear i hiS
      refine ⟨by simpa only [Function.update_of_ne hiv] using Ni.mem, ?_, ?_, fun j hj hj' => ?_⟩
      · simp only [Function.update_of_ne hiv, Function.update_of_ne hne]
        exact Ni.outside
      · simp only [Function.update_of_ne hiv]
        exact Ni.value
      · refine Ni.least j hj ?_
        by_cases hjv : j = v
        · simp only [hjv, Function.update_self] at hj'
          omega
        · simpa only [Function.update_of_ne hjv] using hj'
  obtain ⟨hstatus, hnear'⟩ := updateMins_spec (Function.update s.minIndices v v, s.minValues)
    C hvn hmins
  have hstep : Prim.step matrix n s =
      { minIndices := (Prim.updateMins matrix n v (Function.update s.minIndices v v, s.minValues)).1
        minValues := (Prim.updateMins matrix n v (Function.update s.minIndices v v, s.minValues)).2
        edges := s.edges ++ [(u, v)], totalCost := s.totalCost + matrix u v } := by
    rw [Prim.step, hsel]
    simp only [hv, huval]
  rw [hstep]
  refine ⟨v, hvmem, hvS, G, ?_, fun i hi => (hstatus i).trans (hmark i hi), fun hout' i hi => ?_⟩
  · simp [SpanningTree.cost, I.value]
  · refine hnear' ?_ i (G.subset hi) ((hmark i (G.subset hi)).mpr hi)
    obtain ⟨j, hj, hjS⟩ := hout'
    exact ⟨j, hj, not_lt.mp ((hmark j hj).not.mpr hjS)⟩

omit [AddCommGroup T] [IsOrderedAddMonoid T] in
/-- The diagonal is not the smallest entry of row `1`. -/
theorem minElement_ne_one (C : EdgeCosts n matrix) (hn : 3 ≤ n) :
    minElement (matrix Prim.startPoint) n ≠ 1 := by
  intro hself
  have := (minElement_spec (matrix Prim.startPoint) (show 0 < n by omega)).2.1 0 (by omega)
  rw [hself] at this
  exact absurd (C.lt_diag 1 (by omega) 0 (by omega) (by decide) 1 (by omega)) (not_lt.mpr this)

omit [AddCommGroup T] [IsOrderedAddMonoid T] in
/-- The first vertex to join `1` is not `0`, when another one is nearer. -/
theorem minElement_ne_zero_iff (C : EdgeCosts n matrix) (hn : 3 ≤ n) :
    minElement (matrix Prim.startPoint) n ≠ 0 ↔
      ∃ j, 2 ≤ j ∧ j < n ∧ matrix 1 j < matrix 1 0 := by
  obtain ⟨hlt, hle, hfirst⟩ := minElement_spec (matrix Prim.startPoint) (show 0 < n by omega)
  have hone := minElement_ne_one C hn
  constructor
  · intro hne
    exact ⟨_, by omega, hlt, hfirst 0 (Nat.pos_of_ne_zero hne)⟩
  · rintro ⟨j, _, hjn, hj⟩ hzero
    have := hle j hjn
    rw [hzero] at this
    exact absurd hj (not_lt.mpr this)

omit [IsOrderedAddMonoid T] in
theorem Prim.Inv.start (hn : 3 ≤ n) (hfirst : 2 ≤ minElement (matrix Prim.startPoint) n) :
    Prim.Inv n matrix (Prim.start matrix n) {Prim.startPoint} := by
  obtain ⟨hlt, hle, _⟩ := minElement_spec (matrix Prim.startPoint) (show 0 < n by omega)
  have hone : minElement (matrix Prim.startPoint) n ≠ Prim.startPoint := by
    unfold Prim.startPoint at hfirst ⊢
    omega
  have hmem : Prim.startPoint ∈ Finset.Ico 1 n := Finset.mem_Ico.mpr ⟨le_rfl, by
    unfold Prim.startPoint
    omega⟩
  refine ⟨Grown.start hmem, rfl, fun i hi => ?_, fun _ i hi => ?_⟩
  · by_cases hi1 : i = Prim.startPoint
    · simp [Prim.start, hi1, hlt]
    · simp [Prim.start, hi1]
  · obtain rfl := Finset.mem_singleton.mp hi
    refine ⟨?_, ?_, ?_, fun j hj _ => ?_⟩ <;> simp only [Prim.start, Function.update_self]
    · exact Finset.mem_Ico.mpr ⟨by omega, hlt⟩
    · rw [Function.update_of_ne hone]
    · exact hle j (Finset.mem_Ico.mp hj).2

theorem Prim.Inv.run (C : OffDiagonal n matrix) (hn : 3 ≤ n)
    (hfirst : 2 ≤ minElement (matrix Prim.startPoint) n) {k : ℕ} (hk : k ≤ n - 2) :
    ∃ S, S.card = k + 1 ∧ Prim.Inv n matrix ((Prim.step matrix n)^[k] (Prim.start matrix n)) S := by
  induction k with
  | zero => exact ⟨_, Finset.card_singleton _, Prim.Inv.start hn hfirst⟩
  | succ k ih =>
    obtain ⟨S, hcard, I⟩ := ih (by omega)
    have hout : ∃ j ∈ Finset.Ico 1 n, j ∉ S := by
      by_contra hall
      push Not at hall
      have := Finset.card_le_card hall
      rw [Nat.card_Ico] at this
      omega
    obtain ⟨v, _, hvS, I'⟩ := I.step C hout
    refine ⟨insert v S, by rw [Finset.card_insert_of_notMem hvS, hcard], ?_⟩
    rwa [Function.iterate_succ_apply']

/-- Prim's algorithm makes a minimum spanning tree of the vertices from `1` on. -/
theorem prim_spec (C : OffDiagonal n matrix) (hn : 3 ≤ n)
    (hfirst : 2 ≤ minElement (matrix Prim.startPoint) n) :
    IsTree (Finset.Ico 1 n) (Prim.solve matrix n).edges ∧
      ((Prim.solve matrix n).edges.map fun e => s(e.1, e.2)).Nodup ∧
      (Prim.solve matrix n).value = SpanningTree.cost matrix (Prim.solve matrix n).edges ∧
      ∀ tree, IsTree (Finset.Ico 1 n) tree →
        (Prim.solve matrix n).value ≤ SpanningTree.cost matrix tree := by
  obtain ⟨S, hcard, I⟩ := Prim.Inv.run C hn hfirst le_rfl
  have hS : Finset.Ico 1 n ⊆ S := by
    have heq := Finset.eq_of_subset_of_card_le I.grown.subset (by rw [Nat.card_Ico, hcard]; omega)
    exact heq ▸ Finset.Subset.refl _
  exact ⟨I.grown.isTree hS, I.grown.nodup, I.value, fun tree htree =>
    I.value.trans_le (I.grown.cost_le hS htree)⟩

end Prim

/-! ### The two edges at vertex `0` -/

section TwoMins

variable [MaxVal T] {n : ℕ} {matrix : ℕ → ℕ → T}

/-- The loop over row `0` before column `k`. -/
structure TwoLooked (n : ℕ) (matrix : ℕ → ℕ → T) (k : ℕ) (r : TwoMins T) : Prop where
  le : r.value0 ≤ r.value1
  least0 : ∀ j < k, r.value0 ≤ matrix 0 j
  least1 : ∀ j < k, j ≠ r.index0 → r.value1 ≤ matrix 0 j
  found0 : r.value0 = maxVal ∨ r.index0 < k ∧ r.value0 = matrix 0 r.index0
  found1 : r.value1 = maxVal ∨ r.index1 < k ∧ r.value1 = matrix 0 r.index1 ∧ r.index1 ≠ r.index0
  le_maxVal : r.value1 ≤ maxVal

theorem TwoLooked.step {k : ℕ} {r : TwoMins T} (L : TwoLooked n matrix k r) :
    TwoLooked n matrix (k + 1) (twoMinsStep matrix r k) := by
  rw [twoMinsStep]
  split
  · next hlt =>
    refine ⟨hlt.le, fun j hj => ?_, fun j hj hne => ?_, .inr ⟨Nat.lt_succ_self k, rfl⟩, ?_,
      L.le.trans L.le_maxVal⟩
    · rcases Nat.lt_succ_iff_lt_or_eq.mp hj with hj | rfl
      exacts [hlt.le.trans (L.least0 j hj), le_rfl]
    · exact L.least0 j ((Nat.lt_succ_iff_lt_or_eq.mp hj).resolve_right hne)
    · exact L.found0.imp id fun ⟨hi, hv⟩ => ⟨Nat.lt_succ_of_lt hi, hv, hi.ne⟩
  · next hge0 =>
    have hge0 := not_lt.mp hge0
    split
    · next hlt =>
      have hne : r.index0 < k := by
        refine (L.found0.resolve_left fun hmax => ?_).1
        exact absurd (hlt.trans_le L.le_maxVal) (not_lt.mpr (hmax ▸ hge0))
      refine ⟨hge0, fun j hj => ?_, fun j hj hja => ?_,
        L.found0.imp id fun ⟨hi, hv⟩ => ⟨Nat.lt_succ_of_lt hi, hv⟩,
        .inr ⟨Nat.lt_succ_self k, rfl, hne.ne'⟩, hlt.le.trans L.le_maxVal⟩
      · rcases Nat.lt_succ_iff_lt_or_eq.mp hj with hj | rfl
        exacts [L.least0 j hj, hge0]
      · rcases Nat.lt_succ_iff_lt_or_eq.mp hj with hj | rfl
        exacts [hlt.le.trans (L.least1 j hj hja), le_rfl]
    · next hge1 =>
      refine ⟨L.le, fun j hj => ?_, fun j hj hja => ?_,
        L.found0.imp id fun ⟨hi, hv⟩ => ⟨Nat.lt_succ_of_lt hi, hv⟩,
        L.found1.imp id fun ⟨hi, hv, hne⟩ => ⟨Nat.lt_succ_of_lt hi, hv, hne⟩, L.le_maxVal⟩
      · rcases Nat.lt_succ_iff_lt_or_eq.mp hj with hj | rfl
        exacts [L.least0 j hj, hge0]
      · rcases Nat.lt_succ_iff_lt_or_eq.mp hj with hj | rfl
        exacts [L.least1 j hj hja, not_lt.mp hge1]

theorem twoMins_looked (n : ℕ) (matrix : ℕ → ℕ → T) : TwoLooked n matrix n (twoMins matrix n) := by
  have hstart : TwoLooked n matrix 0 ⟨maxVal, n, maxVal, n⟩ :=
    ⟨le_rfl, by simp, by simp, .inl rfl, .inl rfl, le_rfl⟩
  have L := Loop.foldl_range' (a := 0) (m := n) (f := twoMinsStep matrix) (TwoLooked n matrix)
    (fun k r _ _ L => L.step) hstart
  rwa [Nat.zero_add, ← List.range_eq_range'] at L

theorem twoMins_spec (C : OffDiagonal n matrix)
    (hzero : ∃ j ∈ Finset.Ico 1 n, ∃ k ∈ Finset.Ico 1 n, j ≠ k ∧ matrix 0 j < matrix 0 0 ∧
      matrix 0 k < matrix 0 0) :
    ∃ a ∈ Finset.Ico 1 n, ∃ b ∈ Finset.Ico 1 n, a ≠ b ∧
      twoMins matrix n = ⟨matrix 0 a, a, matrix 0 b, b⟩ ∧
      (∀ j ∈ Finset.Ico 1 n, matrix 0 a ≤ matrix 0 j) ∧
      ∀ j ∈ Finset.Ico 1 n, j ≠ a → matrix 0 b ≤ matrix 0 j := by
  have L := twoMins_looked n matrix
  generalize twoMins matrix n = r at *
  have hlt : ∀ j ∈ Finset.Ico 1 n, matrix 0 j < maxVal := fun j hj => by
    rw [Finset.mem_Ico] at hj
    exact C.lt_maxVal 0 (by omega) j hj.2 (by omega)
  -- An edge that is cheaper than the diagonal is found before both `max_val` and the diagonal.
  have hfound : ∀ {v i j}, j ∈ Finset.Ico 1 n → matrix 0 j < matrix 0 0 → v ≤ matrix 0 j →
      (v = maxVal ∨ i < n ∧ v = matrix 0 i) → i ∈ Finset.Ico 1 n ∧ v = matrix 0 i := by
    intro v i j hj hj0 hle hv
    obtain ⟨hi, rfl⟩ := hv.resolve_left (hle.trans_lt (hlt j hj)).ne
    refine ⟨Finset.mem_Ico.mpr ⟨Nat.pos_of_ne_zero ?_, hi⟩, rfl⟩
    rintro rfl
    exact absurd hj0 (not_lt.mpr hle)
  obtain ⟨j, hj, k, hk, hjk, hj0, hk0⟩ := hzero
  obtain ⟨ha, hva⟩ := hfound hj hj0 (L.least0 j (Finset.mem_Ico.mp hj).2) L.found0
  obtain ⟨l, hl, hl0, hla⟩ : ∃ l ∈ Finset.Ico 1 n, matrix 0 l < matrix 0 0 ∧ l ≠ r.index0 := by
    by_cases h : j = r.index0
    exacts [⟨k, hk, hk0, h ▸ hjk.symm⟩, ⟨j, hj, hj0, h⟩]
  have hle := L.least1 l (Finset.mem_Ico.mp hl).2 hla
  obtain ⟨hb, hvb⟩ := hfound hl hl0 hle (L.found1.imp id fun h => ⟨h.1, h.2.1⟩)
  have hlt1 : r.value1 < maxVal := hle.trans_lt (hlt l hl)
  refine ⟨r.index0, ha, r.index1, hb, ((L.found1.resolve_left hlt1.ne).2.2).symm, ?_,
    fun j hj => hva ▸ L.least0 j (Finset.mem_Ico.mp hj).2,
    fun j hj hne => hvb ▸ L.least1 j (Finset.mem_Ico.mp hj).2 hne⟩
  cases r
  simp only at hva hvb
  rw [hva, hvb]

end TwoMins

/-! ### The 1-tree -/

section Solve

variable [MaxVal T] [AddCommGroup T] {n : ℕ} {matrix : ℕ → ℕ → T}

/-- The first round joins the vertex `min_element` gives. -/
theorem prim_edges (matrix : ℕ → ℕ → T) (hn : 3 ≤ n) : ∃ rest, (Prim.solve matrix n).edges =
    (Prim.startPoint, minElement (matrix Prim.startPoint) n) :: rest := by
  have happend : ∀ k (s : Prim.State T), ∃ rest,
      ((Prim.step matrix n)^[k] s).edges = s.edges ++ rest := by
    intro k
    induction k with
    | zero => exact fun s => ⟨[], (List.append_nil _).symm⟩
    | succ k ih =>
      intro s
      obtain ⟨rest, hrest⟩ := ih (Prim.step matrix n s)
      exact ⟨_, hrest.trans (List.append_assoc ..)⟩
  have hlt := (minElement_spec (matrix Prim.startPoint) (show 0 < n by omega)).1
  have hone : Prim.startPoint ∈ Finset.Ico 1 n := Finset.mem_Ico.mpr ⟨le_rfl, by
    unfold Prim.startPoint
    omega⟩
  have hin : ∀ i ∈ Finset.Ico 1 n,
      (Prim.start matrix n).minIndices i < n ↔ i ∈ ({Prim.startPoint} : Finset ℕ) := fun i _ => by
    by_cases hi1 : i = Prim.startPoint
    · simp [Prim.start, hi1, hlt]
    · simp [Prim.start, hi1]
  obtain ⟨u, hu, hsel, _⟩ := selectMin_spec (Finset.mem_singleton_self _)
    (Finset.singleton_subset_iff.mpr hone) hin
  obtain rfl := Finset.mem_singleton.mp hu
  have hfirst : (Prim.step matrix n (Prim.start matrix n)).edges =
      [(Prim.startPoint, minElement (matrix Prim.startPoint) n)] := by
    rw [Prim.step, hsel]
    simp [Prim.start]
  obtain ⟨rest, hrest⟩ := happend (n - 3) (Prim.step matrix n (Prim.start matrix n))
  refine ⟨rest, ?_⟩
  rw [hfirst, ← Function.iterate_succ_apply, show (n - 3).succ = n - 2 by omega] at hrest
  exact hrest

variable [IsOrderedAddMonoid T]

/-- The solution is a minimum 1-tree if the first smallest entry of row `1` is that of a vertex from `2`
on and two edges of vertex `0` are cheaper than its diagonal entry. -/
theorem solve_isMin_of (C : OffDiagonal n matrix) (hn : 3 ≤ n)
    (hfirst : 2 ≤ minElement (matrix Prim.startPoint) n)
    (hzero : ∃ j ∈ Finset.Ico 1 n, ∃ k ∈ Finset.Ico 1 n, j ≠ k ∧ matrix 0 j < matrix 0 0 ∧
      matrix 0 k < matrix 0 0) :
    IsMinOneTree n matrix (solve matrix n).value (solve matrix n).edges := by
  obtain ⟨htree, hnodup, hvalue, hleast⟩ := prim_spec C hn hfirst
  obtain ⟨a, ha, b, hb, hab, htwo, hmin, hmin'⟩ := twoMins_spec C hzero
  have hedges : (solve matrix n).edges = (Prim.solve matrix n).edges ++ [(0, a), (0, b)] := by
    rw [solve, htwo]
  have hval : (solve matrix n).value = (Prim.solve matrix n).value + (matrix 0 a + matrix 0 b) := by
    rw [solve, htwo]
  have hzero : ∀ {e : Edge}, e ∈ (Prim.solve matrix n).edges → e.1 ≠ 0 ∧ e.2 ≠ 0 := fun he => by
    obtain ⟨h1, h2⟩ := htree.mem _ he
    rw [Finset.mem_Ico] at h1 h2
    omega
  refine ⟨⟨_, a, b, by rw [hedges], htree, hab, ha, hb⟩, ?_, ?_, ?_, ?_⟩
  · have := htree.length
    rw [Nat.card_Ico] at this
    rw [hedges, List.length_append, List.length_cons, List.length_singleton]
    omega
  · rw [hedges, List.map_append]
    refine List.nodup_append'.mpr ⟨hnodup, ?_, fun x hx hx' => ?_⟩
    · have := (Finset.mem_Ico.mp ha).1
      simp only [List.map_cons, List.map_nil, List.nodup_cons, List.mem_cons, List.not_mem_nil,
        or_false, Sym2.eq_iff, List.nodup_nil, not_false_eq_true, and_true]
      omega
    · obtain ⟨e, he, rfl⟩ := List.mem_map.mp hx
      obtain ⟨h1, h2⟩ := hzero he
      simp only [List.map_cons, List.map_nil, List.mem_cons, List.not_mem_nil, or_false,
        Sym2.eq_iff] at hx'
      omega
  · simp [hval, hedges, hvalue, SpanningTree.cost]
  · rintro other ⟨tree, c, d, hperm, htree', hcd, hc, hd⟩
    have hpair : matrix 0 a + matrix 0 b ≤ matrix 0 c + matrix 0 d := by
      by_cases hca : c = a
      · subst hca
        gcongr
        exact hmin' d hd (Ne.symm hcd)
      · rw [add_comm (matrix 0 a)]
        gcongr
        exacts [hmin' c hc hca, hmin d hd]
    calc (solve matrix n).value = (Prim.solve matrix n).value + (matrix 0 a + matrix 0 b) := hval
      _ ≤ SpanningTree.cost matrix tree + (matrix 0 c + matrix 0 d) :=
        add_le_add (hleast tree htree') hpair
      _ = SpanningTree.cost matrix other := by
        rw [cost_perm hperm]
        simp [SpanningTree.cost]

theorem solve_isMin (C : EdgeCosts n matrix) (hn : 3 ≤ n)
    (hnear : ∃ j, 2 ≤ j ∧ j < n ∧ matrix 1 j < matrix 1 0) :
    IsMinOneTree n matrix (solve matrix n).value (solve matrix n).edges := by
  have hdiag : ∀ j ∈ Finset.Ico 1 n, matrix 0 j < matrix 0 0 := fun j hj => by
    rw [Finset.mem_Ico] at hj
    exact C.lt_diag 0 (by omega) j hj.2 (by omega) 0 (by omega)
  refine solve_isMin_of C.offDiagonal hn ?_ ⟨1, Finset.mem_Ico.mpr (by omega), 2,
    Finset.mem_Ico.mpr (by omega), by decide, hdiag 1 (Finset.mem_Ico.mpr (by omega)),
    hdiag 2 (Finset.mem_Ico.mpr (by omega))⟩
  have hzero := (minElement_ne_zero_iff C hn).mpr hnear
  have hone := minElement_ne_one C hn
  omega

omit [IsOrderedAddMonoid T] in
/-- When vertex `0` joins the tree, three edges touch it. -/
theorem solve_not_oneTree (hn : 3 ≤ n) (hzero : minElement (matrix Prim.startPoint) n = 0) :
    ¬ IsOneTree n (solve matrix n).edges := by
  rintro ⟨tree, a, b, hperm, htree, -⟩
  obtain ⟨rest, hrest⟩ := prim_edges matrix hn
  let touches : Edge → Bool := fun e => e.1 = 0 ∨ e.2 = 0
  have htwo : (solve matrix n).edges.countP touches = 2 := by
    have hnone : tree.countP touches = 0 := List.countP_eq_zero.mpr fun e he => by
      obtain ⟨h1, h2⟩ := htree.mem e he
      rw [Finset.mem_Ico] at h1 h2
      simp only [touches, decide_eq_true_eq]
      omega
    rw [hperm.countP_eq, List.countP_append, hnone]
    rfl
  have hthree : 3 ≤ (solve matrix n).edges.countP touches := by
    rw [solve, hrest, hzero, List.cons_append, List.countP_cons, List.countP_append]
    simp only [touches, List.countP_cons, List.countP_nil, true_or, or_true, decide_true, if_true]
    omega
  omega

/-- The solution is a minimum 1-tree, and so a lower bound for every tour, exactly when some vertex
is nearer to vertex `1` than vertex `0` is. -/
theorem solve_isMin_iff (C : EdgeCosts n matrix) (hn : 3 ≤ n) :
    (IsMinOneTree n matrix (solve matrix n).value (solve matrix n).edges ∧
      ∀ p, IsTour n p → (solve matrix n).value ≤ ∑ i ∈ Finset.range n, matrix i (p i)) ↔
    ∃ j, 2 ≤ j ∧ j < n ∧ matrix 1 j < matrix 1 0 := by
  constructor
  · rintro ⟨hmin, -⟩
    by_contra hnear
    exact solve_not_oneTree hn (not_not.mp ((minElement_ne_zero_iff C hn).not.mpr hnear))
      hmin.oneTree
  · intro hnear
    have hmin := solve_isMin C hn hnear
    exact ⟨hmin, fun p hp => hmin.le_tour hn C.symm hp⟩

end Solve

/-- Three vertices, `2` nearest to `1`. -/
def nearCosts (i j : ℕ) : ValueType :=
  if i = j then 10 else if i + j = 3 then 1 else if i + j = 2 then 2 else 4

theorem nearCosts_edgeCosts : EdgeCosts 3 nearCosts where
  symm := by decide
  lt_maxVal := by decide +kernel
  lt_diag := by decide

theorem solve_isMin_near :
    IsMinOneTree 3 nearCosts (solve nearCosts 3).value (solve nearCosts 3).edges ∧
      (solve nearCosts 3).value = 7 :=
  ⟨((solve_isMin_iff nearCosts_edgeCosts (by decide)).mpr ⟨2, by decide +kernel⟩).1,
    by decide +kernel⟩

/-- Four vertices, `0` nearest to `1` but at a distance. -/
def farCosts (i j : ℕ) : ValueType :=
  if i = j then 1000 else if i + j = 1 then 99 else if i + j = 2 then 50
  else if i * j = 0 then 1 else if i = 1 ∨ j = 1 then 100 else 1

theorem farCosts_edgeCosts : EdgeCosts 4 farCosts where
  symm := by
    unfold SymmetricOn
    decide +kernel
  lt_maxVal := by decide +kernel
  lt_diag := by decide +kernel

/-- Vertex `0` joins the tree, vertex `3` does not, and a tour is cheaper than the value. -/
theorem solve_joins_zero : EdgeCosts 4 farCosts ∧
    (solve farCosts 4).edges = [(1, 0), (1, 2), (0, 3), (0, 2)] ∧
    ¬ IsOneTree 4 (solve farCosts 4).edges ∧
    ∃ p, IsTour 4 p ∧ ∑ i ∈ Finset.range 4, farCosts i (p i) < (solve farCosts 4).value :=
  ⟨farCosts_edgeCosts, by decide +kernel, solve_not_oneTree (by decide) (by decide +kernel),
    [0, 1, 2, 3].formPerm, isTour_formPerm (.refl _), by decide +kernel⟩

end Optimer.MSOneTree
