import Optimer.Tsp.OneTreeCorrect

/-! What `MSOneTree::solve` returns for any matrix: `n` edges, whose cost is the value as long as that is
below `max_val`. -/

namespace Optimer.MSOneTree
open Optimer.Tsp SpanningTree

variable {T : Type*} [LinearOrder T] [MaxVal T] {n k v : ℕ} {matrix : ℕ → ℕ → T}
  {mins r : (ℕ → ℕ) × (ℕ → T)}

/-- The value of a vertex is that of an edge, unless none was found. -/
def Known (matrix : ℕ → ℕ → T) (mins : (ℕ → ℕ) × (ℕ → T)) (i : ℕ) : Prop :=
  mins.2 i = matrix i (mins.1 i) ∨ mins.2 i = maxVal

/-- The outer loop of `update_mins` before row `k`, for any matrix. -/
structure Renewed (n : ℕ) (matrix : ℕ → ℕ → T) (mins : (ℕ → ℕ) × (ℕ → T)) (k : ℕ)
    (r : (ℕ → ℕ) × (ℕ → T)) : Prop where
  status : ∀ i, r.1 i < n ↔ mins.1 i < n
  later : ∀ i, k ≤ i → r.1 i = mins.1 i ∧ r.2 i = mins.2 i
  known : ∀ i, 1 ≤ i → i < k → mins.1 i < n → Known matrix r i

theorem Renewed.step (R : Renewed n matrix mins k r) (hv : v < n) (hk : k ∈ Finset.Ico 1 n)
    (hmins : mins.1 k < n → mins.1 k = v ∨ Known matrix mins k) :
    Renewed n matrix mins (k + 1) (Prim.updateRow matrix n v r k) := by
  rw [Prim.updateRow]
  split
  · next hkv =>
    have hkn : r.1 k < n := hkv ▸ hv
    have L : Looked n matrix r k n _ := updateMin_looked r hkn
    refine ⟨fun i => (L.status hkn i).trans (R.status i), fun i hi => ?_, fun i hi hik hin => ?_⟩
    · obtain ⟨h1, h2⟩ := L.other i (by omega)
      rw [h1, h2]
      exact R.later i (by omega)
    · rcases Nat.lt_succ_iff_lt_or_eq.mp hik with hik | rfl
      · obtain ⟨h1, h2⟩ := L.other i (by omega)
        unfold Known
        rw [h1, h2]
        exact R.known i hi hik hin
      · exact L.found.symm.imp_left fun h => h.2.2
  · next hkv =>
    refine ⟨R.status, fun i hi => R.later i (by omega), fun i hi hik hin => ?_⟩
    rcases Nat.lt_succ_iff_lt_or_eq.mp hik with hik | rfl
    · exact R.known i hi hik hin
    · obtain ⟨h1, h2⟩ := R.later i le_rfl
      rw [h1] at hkv
      unfold Known
      rw [h1, h2]
      exact (hmins hin).resolve_left hkv

theorem updateMins_known (mins : (ℕ → ℕ) × (ℕ → T)) (hv : v < n)
    (hmins : ∀ i ∈ Finset.Ico 1 n, mins.1 i < n → mins.1 i = v ∨ Known matrix mins i) :
    (∀ k, (Prim.updateMins matrix n v mins).1 k < n ↔ mins.1 k < n) ∧
      ∀ i ∈ Finset.Ico 1 n, mins.1 i < n → Known matrix (Prim.updateMins matrix n v mins) i := by
  have hstart : Renewed n matrix mins 1 mins :=
    ⟨fun _ => .rfl, fun _ _ => ⟨rfl, rfl⟩, fun i hi hi' => by omega⟩
  have R := Loop.foldl_range' (a := 1) (m := n - 1) (f := Prim.updateRow matrix n v)
    (Renewed n matrix mins) (fun k r hk hlt R =>
      have hk : k ∈ Finset.Ico 1 n := Finset.mem_Ico.mpr ⟨hk, by omega⟩
      R.step hv hk (hmins k hk)) hstart
  refine ⟨R.status, fun i hi hin => ?_⟩
  rw [Finset.mem_Ico] at hi
  exact R.known i hi.1 (by omega) hin

section Prim

variable [AddCommGroup T] [IsOrderedAddMonoid T] {s : Prim.State T}

/-- The edges so far, for any matrix. -/
structure Prim.Shape (n : ℕ) (matrix : ℕ → ℕ → T) (s : Prim.State T) : Prop where
  start : s.minIndices Prim.startPoint < n
  known : ∀ i ∈ Finset.Ico 1 n, s.minIndices i < n → Known matrix (s.minIndices, s.minValues) i
  within : ∀ e ∈ s.edges, e.1 < n ∧ e.2 < n
  nonneg : 0 ≤ s.totalCost
  value : s.totalCost = SpanningTree.cost matrix s.edges ∨ maxVal ≤ s.totalCost

theorem Prim.Shape.step (I : Prim.Shape n matrix s) (hn : 2 ≤ n)
    (hpos : ∀ i < n, ∀ j < n, 0 ≤ matrix i j) (hmax : (0 : T) ≤ maxVal) :
    Prim.Shape n matrix (Prim.step matrix n s) := by
  classical
  obtain ⟨u, hu, hsel, _⟩ := selectMin_spec (s := s)
    (S := (Finset.Ico 1 n).filter fun i => s.minIndices i < n)
    (Finset.mem_filter.mpr ⟨Finset.mem_Ico.mpr ⟨le_rfl, hn⟩, I.start⟩) (Finset.filter_subset _ _)
    (fun i hi => by simp only [Finset.mem_filter, hi, true_and])
  obtain ⟨hu, hun⟩ := Finset.mem_filter.mp hu
  obtain ⟨v, hv⟩ : ∃ v, s.minIndices u = v := ⟨_, rfl⟩
  have hvn : v < n := hv ▸ hun
  have hmins : ∀ i ∈ Finset.Ico 1 n, Function.update s.minIndices v v i < n →
      Function.update s.minIndices v v i = v ∨
        Known matrix (Function.update s.minIndices v v, s.minValues) i := by
    intro i hi hin
    by_cases hiv : i = v
    · exact .inl (by rw [hiv, Function.update_self])
    · rw [Function.update_of_ne hiv] at hin
      refine .inr ?_
      simp only [Known, Function.update_of_ne hiv]
      exact I.known i hi hin
  obtain ⟨hstatus, hknown⟩ := updateMins_known (Function.update s.minIndices v v, s.minValues) hvn hmins
  have hincluded : ∀ i, s.minIndices i < n → Function.update s.minIndices v v i < n := fun i hi => by
    by_cases hiv : i = v
    · rwa [hiv, Function.update_self]
    · rwa [Function.update_of_ne hiv]
  have hstep : Prim.step matrix n s =
      { minIndices := (Prim.updateMins matrix n v (Function.update s.minIndices v v, s.minValues)).1
        minValues := (Prim.updateMins matrix n v (Function.update s.minIndices v v, s.minValues)).2
        edges := s.edges ++ [(u, v)], totalCost := s.totalCost + s.minValues u } := by
    rw [Prim.step, hsel]
    simp only [hv]
  have huv : s.minValues u = matrix u v ∨ s.minValues u = maxVal := hv ▸ I.known u hu hun
  have huv0 : 0 ≤ s.minValues u := by
    rcases huv with h | h <;> rw [h]
    exacts [hpos u (Finset.mem_Ico.mp hu).2 v hvn, hmax]
  rw [hstep]
  refine ⟨(hstatus _).mpr (hincluded _ I.start), fun i hi hin => hknown i hi ((hstatus i).mp hin),
    fun e he => ?_, add_nonneg I.nonneg huv0, ?_⟩
  · rcases List.mem_append.mp he with he | he
    · exact I.within e he
    · cases List.mem_singleton.mp he
      exact ⟨(Finset.mem_Ico.mp hu).2, hvn⟩
  · rcases I.value with htotal | htotal
    · rcases huv with h | h
      · exact .inl (by simp [SpanningTree.cost, htotal, h])
      · exact .inr (h ▸ le_add_of_nonneg_left I.nonneg)
    · exact .inr (le_add_of_le_of_nonneg htotal huv0)

theorem Prim.Shape.run (hn : 2 ≤ n) (hpos : ∀ i < n, ∀ j < n, 0 ≤ matrix i j)
    (hmax : (0 : T) ≤ maxVal) (k : ℕ) :
    Prim.Shape n matrix ((Prim.step matrix n)^[k] (Prim.start matrix n)) := by
  induction k with
  | zero =>
    obtain ⟨hlt, _⟩ := minElement_spec (matrix Prim.startPoint) (show 0 < n by omega)
    refine ⟨by simpa [Prim.start] using hlt, fun i hi hin => ?_, fun _ he => absurd he List.not_mem_nil,
      le_rfl, .inl rfl⟩
    by_cases hi1 : i = Prim.startPoint
    · exact .inl (by simp [Prim.start, hi1])
    · simp [Prim.start, hi1] at hin
  | succ k ih =>
    rw [Function.iterate_succ_apply']
    exact ih.step hn hpos hmax

end Prim

/-- Both minima of row `0` are entries of it. -/
theorem twoMins_shape (hn : 2 ≤ n) (hlt : ∀ j < n, matrix 0 j < maxVal) :
    ∃ a < n, ∃ b < n, twoMins matrix n = ⟨matrix 0 a, a, matrix 0 b, b⟩ := by
  have L := twoMins_looked n matrix
  generalize twoMins matrix n = r at *
  have h0 : r.value0 < maxVal := (L.least0 0 (by omega)).trans_lt (hlt 0 (by omega))
  obtain ⟨j, hj, hne⟩ : ∃ j < n, j ≠ r.index0 := by
    by_cases h : r.index0 = 0
    exacts [⟨1, by omega, by omega⟩, ⟨0, by omega, Ne.symm h⟩]
  have h1 : r.value1 < maxVal := (L.least1 j hj hne).trans_lt (hlt j hj)
  obtain ⟨ha, hva⟩ := L.found0.resolve_left h0.ne
  obtain ⟨hb, hvb, _⟩ := L.found1.resolve_left h1.ne
  refine ⟨r.index0, ha, r.index1, hb, ?_⟩
  cases r
  simp only at hva hvb
  rw [hva, hvb]

variable [AddCommGroup T] [IsOrderedAddMonoid T]

omit [IsOrderedAddMonoid T] in
theorem prim_length (k : ℕ) (s : Prim.State T) :
    ((Prim.step matrix n)^[k] s).edges.length = s.edges.length + k := by
  induction k generalizing s with
  | zero => rfl
  | succ k ih =>
    rw [Function.iterate_succ_apply, ih]
    simp only [Prim.step, List.length_append, List.length_singleton]
    omega

omit [IsOrderedAddMonoid T] in
theorem length_solve (hn : 2 ≤ n) : (solve matrix n).edges.length = n := by
  simp only [solve, Prim.solve, List.length_append, prim_length, Prim.start, List.length_nil,
    List.length_cons]
  omega

/-- The solution for any matrix of non-negative numbers. -/
structure Shaped (n : ℕ) (matrix : ℕ → ℕ → T) (sol : Solution T) : Prop where
  length : sol.edges.length = n
  within : ∀ e ∈ sol.edges, e.1 < n ∧ e.2 < n
  zero : ∃ b, (0, b) ∈ sol.edges
  value : sol.value = SpanningTree.cost matrix sol.edges ∨ maxVal ≤ sol.value

theorem solve_shaped (hn : 2 ≤ n) (hpos : ∀ i < n, ∀ j < n, 0 ≤ matrix i j)
    (hlt : ∀ j < n, matrix 0 j < maxVal) : Shaped n matrix (solve matrix n) := by
  have hmax : (0 : T) ≤ maxVal := (hpos 0 (by omega) 0 (by omega)).trans (hlt 0 (by omega)).le
  have I := Prim.Shape.run hn hpos hmax (n - 2)
  obtain ⟨a, ha, b, hb, htwo⟩ := twoMins_shape hn hlt
  have hsol : solve matrix n =
      { value := (Prim.solve matrix n).value + (matrix 0 a + matrix 0 b)
        edges := (Prim.solve matrix n).edges ++ [(0, a), (0, b)] } := by
    rw [solve, htwo]
  have htwo0 : 0 ≤ matrix 0 a + matrix 0 b :=
    add_nonneg (hpos 0 (by omega) a ha) (hpos 0 (by omega) b hb)
  rw [hsol]
  refine ⟨hsol ▸ length_solve hn, fun e he => ?_, ⟨a, by simp⟩, ?_⟩
  · rcases List.mem_append.mp he with he | he
    · exact I.within e he
    · rcases List.mem_pair.mp he with rfl | rfl
      exacts [⟨by omega, ha⟩, ⟨by omega, hb⟩]
  · refine I.value.imp (fun h => ?_) fun h => le_add_of_le_of_nonneg h htwo0
    simp only [Prim.solve, h, SpanningTree.cost, List.map_append, List.sum_append, List.map_cons,
      List.map_nil, List.sum_cons, List.sum_nil, add_zero]

end Optimer.MSOneTree
