import Mathlib.Algebra.BigOperators.Fin
import Mathlib.Algebra.Order.BigOperators.Group.Finset
import Mathlib.Data.Finset.Prod
import Mathlib.Data.List.Rotate
import Mathlib.Data.Set.Finite.Lemmas
import Mathlib.GroupTheory.Perm.List
import Optimer.Lib.Assignment
import Optimer.Tsp.Types

/-! Hamiltonian tours, as the map from every vertex to the next one, and closed routes. -/

namespace Optimer.Tsp
open Assignment Finset

/-- A permutation of the vertices below `n`. -/
abbrev IsPerm (n : ℕ) (p : ℕ → ℕ) : Prop := Assigns (range n) (range n) p

/-- A Hamiltonian tour: every vertex has a next one of its own, and each is reached from vertex `0`. -/
structure IsTour (n : ℕ) (p : ℕ → ℕ) : Prop where
  perm : IsPerm n p
  reach : ∀ i < n, ∃ k, p^[k] 0 = i

/-- The cost of an assignment, in particular of a tour. -/
def cost (n : ℕ) (matrix : ℕ → ℕ → ValueType) (p : ℕ → ℕ) : ValueType := ∑ i ∈ range n, matrix i (p i)

/-- The least cost of a Hamiltonian tour. -/
def IsOptimum (n : ℕ) (matrix : ℕ → ℕ → ValueType) (v : ValueType) : Prop :=
  IsLeast (cost n matrix '' {p | IsTour n p}) v

variable {n i j : ℕ} {p q : ℕ → ℕ} {matrix : ℕ → ℕ → ValueType}

namespace IsPerm

theorem lt (h : IsPerm n p) (hi : i < n) : p i < n := by
  have := h.mapsTo (mem_coe.mpr (mem_range.mpr hi))
  exact mem_range.mp (mem_coe.mp this)

theorem inj (h : IsPerm n p) (hi : i < n) (hj : j < n) (heq : p i = p j) : i = j :=
  h.injOn (mem_coe.mpr (mem_range.mpr hi)) (mem_coe.mpr (mem_range.mpr hj)) heq

theorem surj (h : IsPerm n p) (hj : j < n) : ∃ i < n, p i = j := by
  obtain ⟨i, hi, heq⟩ := h.surjOn (mem_coe.mpr (mem_range.mpr hj))
  exact ⟨i, mem_range.mp (mem_coe.mp hi), heq⟩

theorem of_injective (hlt : ∀ i < n, p i < n) (hinj : ∀ i < n, ∀ j < n, p i = p j → i = j) :
    IsPerm n p :=
  assigns_of_injOn (fun i hi => by simpa using hlt i (by simpa using hi))
    (fun i hi j hj => hinj i (by simpa using hi) j (by simpa using hj)) le_rfl

end IsPerm

/-- What the solvers are promised about the costs. -/
structure Costs (data : InitialData) : Prop where
  diag : ∀ i < data.rank, data.matrix i i = mVal
  nonneg : ∀ i < data.rank, ∀ j < data.rank, i ≠ j → 0 ≤ data.matrix i j
  small : ∀ s : Finset Edge, s ⊆ (range data.rank).offDiag → s.card = data.rank →
    ∑ e ∈ s, data.matrix e.1 e.2 < mVal

namespace Costs

variable {data : InitialData}

/-- Costs are small if there is a small bound for all of them. -/
theorem of_le {x : ValueType} (hdiag : ∀ i < data.rank, data.matrix i i = mVal)
    (hle : ∀ i < data.rank, ∀ j < data.rank, i ≠ j → 0 ≤ data.matrix i j ∧ data.matrix i j ≤ x)
    (hx : data.rank • x < mVal) : Costs data where
  diag := hdiag
  nonneg i hi j hj hij := (hle i hi j hj hij).1
  small s hs hcard := by
    refine (sum_le_card_nsmul s _ x fun e he => ?_).trans_lt (hcard ▸ hx)
    obtain ⟨h1, h2, hne⟩ := mem_offDiag.mp (hs he)
    exact (hle _ (mem_range.mp h1) _ (mem_range.mp h2) hne).2

/-- At most `n` arcs cost less than `M_VAL` together. -/
theorem sum_lt (h : Costs data) (hn : 2 ≤ data.rank) {s : Finset Edge}
    (hs : s ⊆ (range data.rank).offDiag) (hcard : s.card ≤ data.rank) :
    ∑ e ∈ s, data.matrix e.1 e.2 < mVal := by
  have hle : data.rank ≤ (range data.rank).offDiag.card := by
    rw [offDiag_card, card_range]
    have := Nat.mul_le_mul_right data.rank hn
    omega
  obtain ⟨t, hst, hsub, ht⟩ := exists_subsuperset_card_eq hs hcard hle
  have hnonneg : ∀ e ∈ t, 0 ≤ data.matrix e.1 e.2 := fun e he => by
    have he := hsub he
    simp only [mem_offDiag, mem_range] at he
    exact h.nonneg _ he.1 _ he.2.1 he.2.2
  calc ∑ e ∈ s, data.matrix e.1 e.2 ≤ ∑ e ∈ t, data.matrix e.1 e.2 :=
        sum_le_sum_of_subset_of_nonneg hst fun e he _ => hnonneg e he
    _ < mVal := h.small t hsub ht

/-- No arc costs `M_VAL`. -/
theorem lt (h : Costs data) (hn : 2 ≤ data.rank) (hi : i < data.rank) (hj : j < data.rank)
    (hne : i ≠ j) : data.matrix i j < mVal := by
  have hmem : (i, j) ∈ (range data.rank).offDiag := by simp [hi, hj, hne]
  have hlt := h.sum_lt hn (singleton_subset_iff.mpr hmem) (by rw [card_singleton]; omega)
  rwa [sum_singleton] at hlt

/-- Two arcs of a row cost less than `M_VAL` together. -/
theorem add_lt (h : Costs data) (hn : 2 ≤ data.rank) {k : ℕ} (hi : i < data.rank) (hj : j < data.rank)
    (hk : k < data.rank) (hij : i ≠ j) (hik : i ≠ k) (hjk : j ≠ k) :
    data.matrix i j + data.matrix i k < mVal := by
  have hpair : (i, j) ≠ (i, k) := fun heq => hjk (congrArg Prod.snd heq)
  have hsub : {(i, j), (i, k)} ⊆ (range data.rank).offDiag := by
    intro e he
    rcases mem_insert.mp he with rfl | he
    · simp [hi, hj, hij]
    · cases mem_singleton.mp he
      simp [hi, hk, hik]
  have hlt := h.sum_lt hn hsub (by rw [card_pair hpair]; exact hn)
  rwa [sum_pair hpair] at hlt

theorem le (h : Costs data) (hn : 2 ≤ data.rank) (hi : i < data.rank) (hj : j < data.rank) :
    data.matrix i j ≤ mVal := by
  by_cases hij : i = j
  · rw [hij, h.diag j hj]
  · exact (h.lt hn hi hj hij).le

/-- Two different vertices are enough for all costs to be at most `M_VAL`. -/
theorem le' (h : Costs data) (hi : i < data.rank) (hj : j < data.rank) : data.matrix i j ≤ mVal := by
  by_cases hij : i = j
  · rw [hij, h.diag j hj]
  · exact h.le (by omega) hi hj

theorem mVal_pos : 0 < mVal := by decide +kernel

theorem nonneg' (h : Costs data) (hi : i < data.rank) (hj : j < data.rank) :
    0 ≤ data.matrix i j := by
  by_cases hij : i = j
  · rw [hij, h.diag j hj]
    exact mVal_pos.le
  · exact h.nonneg i hi j hj hij

/-- A permutation without a fixed point costs less than `M_VAL`. -/
theorem cost_lt (h : Costs data) (hp : IsPerm data.rank p) (hne : ∀ i < data.rank, p i ≠ i) :
    cost data.rank data.matrix p < mVal := by
  have hinj : Set.InjOn (fun i => (i, p i)) (range data.rank : Set ℕ) :=
    fun a _ b _ hab => congrArg Prod.fst hab
  have hsub : (range data.rank).image (fun i => (i, p i)) ⊆ (range data.rank).offDiag := by
    intro e he
    obtain ⟨i, hi, rfl⟩ := mem_image.mp he
    have hi := mem_range.mp hi
    simp [hi, hp.lt hi, (hne i hi).symm]
  have hlt := h.small _ hsub (by rw [card_image_of_injOn hinj, card_range])
  rwa [sum_image hinj] at hlt

end Costs

namespace IsTour

theorem iterate_lt (h : IsTour n p) (hn : 0 < n) (k : ℕ) : p^[k] 0 < n := by
  induction k with
  | zero => exact hn
  | succ k ih =>
    rw [Function.iterate_succ_apply']
    exact h.perm.lt ih

/-- A tour leaves no proper part of the vertices closed. -/
theorem eq_range (h : IsTour n p) {s : Finset ℕ} (hs : s ⊆ range n) (hne : s.Nonempty)
    (hclosed : ∀ i ∈ s, p i ∈ s) : s = range n := by
  obtain ⟨a, ha⟩ := hne
  have hn : 0 < n := Nat.zero_lt_of_lt (mem_range.mp (hs ha))
  have hsurj := surjOn_of_injOn_of_card_le p hclosed (h.perm.injOn.mono (coe_subset.mpr hs)) le_rfl
  have hback : ∀ i < n, p i ∈ s → i ∈ s := fun i hi hpi => by
    obtain ⟨b, hb, heq⟩ := hsurj hpi
    exact h.perm.inj (mem_range.mp (hs hb)) hi heq ▸ hb
  have hzero : ∀ k, p^[k] 0 ∈ s → 0 ∈ s := fun k => by
    induction k with
    | zero => exact id
    | succ k ih =>
      rw [Function.iterate_succ_apply']
      exact fun hk => ih (hback _ (h.iterate_lt hn k) hk)
  have hall : ∀ k, p^[k] 0 ∈ s := fun k => by
    induction k with
    | zero =>
      obtain ⟨k, hk⟩ := h.reach a (mem_range.mp (hs ha))
      exact hzero k (hk ▸ ha)
    | succ k ih =>
      rw [Function.iterate_succ_apply']
      exact hclosed _ ih
  refine Subset.antisymm hs fun j hj => ?_
  obtain ⟨k, rfl⟩ := h.reach j (mem_range.mp hj)
  exact hall k

/-- A tour of at least two vertices stays at none. -/
theorem ne (h : IsTour n p) (hn : 2 ≤ n) (hi : i < n) : p i ≠ i := by
  intro hfix
  have hall : {i} = range n := h.eq_range (by simpa using hi) (singleton_nonempty i) (by simpa using hfix)
  have hcard := congrArg card hall
  simp at hcard
  omega

theorem congr (h : IsTour n p) (hq : ∀ i < n, q i = p i) (hn : 0 < n) : IsTour n q := by
  have hiter : ∀ k, q^[k] 0 = p^[k] 0 := fun k => by
    induction k with
    | zero => rfl
    | succ k ih =>
      rw [Function.iterate_succ_apply', Function.iterate_succ_apply', ih, hq _ (h.iterate_lt hn k)]
  refine ⟨?_, fun i hi => ?_⟩
  · exact (Set.EqOn.bijOn_iff fun i hi => hq i (by simpa using hi)).mpr h.perm
  · obtain ⟨k, hk⟩ := h.reach i hi
    exact ⟨k, (hiter k).trans hk⟩

end IsTour

theorem cost_congr (hq : ∀ i < n, q i = p i) : cost n matrix q = cost n matrix p :=
  sum_congr rfl fun i hi => by rw [hq i (mem_range.mp hi)]

/-! ### Closed routes -/

/-- A route that starts at a vertex, visits every vertex once and comes back to the first. -/
def ClosedRoute (n : ℕ) (route : List ℕ) : Prop :=
  ∃ v l, (v :: l).Perm (List.range n) ∧ route = v :: (l ++ [v])

variable {v : ℕ} {l route : List ℕ}

/-- The next vertices along a list without repetition. -/
theorem map_formPerm (hl : l.Nodup) : l.map l.formPerm = l.rotate 1 := by
  refine List.ext_getElem (by simp) fun k hk _ => ?_
  rw [List.getElem_map, List.getElem_rotate]
  exact List.formPerm_apply_getElem l hl k (by simpa using hk)

theorem isTour_formPerm (hl : l.Perm (List.range n)) : IsTour n l.formPerm := by
  have hmem : ∀ i, i ∈ l ↔ i < n := fun i => by rw [hl.mem_iff, List.mem_range]
  have hnodup : l.Nodup := hl.nodup_iff.mpr List.nodup_range
  refine ⟨.of_injective (fun i hi => ?_) fun i _ j _ heq => l.formPerm.injective heq, fun i hi => ?_⟩
  · exact (hmem _).mp (List.formPerm_apply_mem_of_mem ((hmem i).mpr hi))
  · obtain ⟨a, ha, ha0⟩ := List.getElem_of_mem ((hmem 0).mpr (Nat.zero_lt_of_lt hi))
    obtain ⟨b, hb, hbi⟩ := List.getElem_of_mem ((hmem i).mpr hi)
    refine ⟨b + (l.length - a), ?_⟩
    rw [← Equiv.Perm.coe_pow, ← ha0, List.formPerm_pow_apply_getElem l hnodup, ← hbi]
    congr 1
    rw [show a + (b + (l.length - a)) = b + l.length by omega, Nat.add_mod_right, Nat.mod_eq_of_lt hb]

theorem calcValue_closed (v : ℕ) (l : List ℕ) (hl : (v :: l).Nodup) :
    calcValue matrix (v :: (l ++ [v])) =
      ((v :: l).map fun i => matrix i ((v :: l).formPerm i)).sum := by
  have hnext : l ++ [v] = (v :: l).map (v :: l).formPerm := by rw [map_formPerm hl]; simp
  have hzip : List.zipWith matrix (v :: (l ++ [v])) (l ++ [v]) =
      (v :: l).map fun i => matrix i ((v :: l).formPerm i) := by
    refine List.ext_getElem (by simp) fun k hk hk' => ?_
    rw [List.length_map] at hk'
    rw [List.getElem_zipWith, List.getElem_map, ← List.getElem_map (v :: l).formPerm]
    · congr 1
      · exact List.getElem_append_left hk'
      · simp only [hnext]
    · rwa [List.length_map]
  rw [calcValue, List.tail_cons, hzip]

/-- A closed route is a tour of the same cost. -/
theorem ClosedRoute.exists_tour (h : ClosedRoute n route) :
    ∃ p, IsTour n p ∧ cost n matrix p = calcValue matrix route := by
  obtain ⟨v, l, hperm, rfl⟩ := h
  refine ⟨(v :: l).formPerm, isTour_formPerm hperm, ?_⟩
  rw [calcValue_closed v l (hperm.nodup_iff.mpr List.nodup_range), (hperm.map _).sum_eq]
  rfl

/-- There are only finitely many costs, so one is the least. -/
theorem exists_optimum (n : ℕ) (matrix : ℕ → ℕ → ValueType) : ∃ v, IsOptimum n matrix v := by
  have hfinite : (cost n matrix '' {p | IsTour n p}).Finite := by
    refine (Set.finite_range fun f : Fin n → Fin n => ∑ i : Fin n, matrix i (f i)).subset ?_
    rintro _ ⟨p, hp, rfl⟩
    exact ⟨fun i => ⟨p i, hp.perm.lt i.2⟩, Fin.sum_univ_eq_sum_range (fun i => matrix i (p i)) n⟩
  obtain ⟨v, hv, hle⟩ := Set.exists_min_image _ id hfinite ⟨_, _, isTour_formPerm (.refl _), rfl⟩
  exact ⟨v, hv, hle⟩

end Optimer.Tsp
