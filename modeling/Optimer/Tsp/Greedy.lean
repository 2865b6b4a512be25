import Optimer.Tsp.NearestNeighbour

/-! `get_greedy_solution` ends, and the solution the searches start from is a tour with its own cost. -/

namespace Optimer.Tsp

variable {n : ℕ} {matrix : ℕ → ℕ → ValueType} {sol : Solution}

/-! ### The greedy solution -/

/-- A tour with its own cost as a solution. -/
structure Proper (n : ℕ) (matrix : ℕ → ℕ → ValueType) (sol : Solution) : Prop where
  closed : ClosedRoute n sol.route
  value : sol.value = calcValue matrix sol.route

theorem getGreedySolutionFrom_spec {start fuel : ℕ} (hs : start < n) (hf : n < fuel)
    (hm : ∀ i < n, ∀ j < n, i ≠ j → matrix i j < mVal) :
    ∃ sol, getGreedySolutionFrom fuel matrix n start = some sol ∧ Proper n matrix sol := by
  obtain ⟨sol, hrun, ⟨l, hperm, hroute⟩, hvalue⟩ :=
    getGreedySolutionFrom_of_leadsOn hs hf (leadsOn_of_arcs hs hm)
  exact ⟨sol, hrun, ⟨start, l, hperm, hroute⟩, hvalue⟩

theorem Proper.twoOpt {fuel : ℕ} (h : Proper n matrix sol) (hf : (n + 1).factorial < fuel) :
    ∃ r, twoOpt fuel matrix sol = some r ∧ Proper n matrix r.1 := by
  have hlen : sol.route.length = n + 1 := by
    obtain ⟨v, l, hperm, hr⟩ := h.closed
    have := hperm.length_eq
    simp_all
  obtain ⟨r, hrun, hr, _⟩ := twoOpt_spec matrix (hlen ▸ hf)
  refine ⟨r, hrun, ?_, twoOpt_value h.value hr⟩
  rcases hr with rfl | ⟨_, hr⟩
  exacts [h.closed, hr.rearranged.closedRoute h.closed]

/-- A solution that is a tour is worth the cost of one. -/
theorem Proper.exists_tour (h : Proper n matrix sol) : ∃ p, IsTour n p ∧ cost n matrix p = sol.value := by
  obtain ⟨p, hp, hc⟩ := @ClosedRoute.exists_tour n matrix _ h.closed
  exact ⟨p, hp, hc.trans h.value.symm⟩

variable {data : InitialData}

theorem Proper.lt (h : Proper data.rank data.matrix sol) (hc : Costs data) (hn : 2 ≤ data.rank) :
    sol.value < mVal := by
  obtain ⟨p, hp, heq⟩ := h.exists_tour
  exact heq ▸ hc.cost_lt hp.perm fun i hi => hp.ne hn hi

/-- `get_greedy_solution` ends with a tour. -/
theorem getGreedySolution_spec (hc : Costs data) (hn : 2 ≤ data.rank) {fuel : ℕ}
    (hf : (data.rank + 1).factorial < fuel) :
    ∃ sol, getGreedySolution fuel data.matrix data.rank = some sol ∧
      Proper data.rank data.matrix sol := by
  have hm : ∀ i < data.rank, ∀ j < data.rank, i ≠ j → data.matrix i j < mVal :=
    fun i hi j hj => hc.lt hn hi hj
  have hfuel : data.rank < fuel :=
    (Nat.lt_succ_self _).trans (Nat.lt_of_le_of_lt (Nat.self_le_factorial _) hf)
  have hround : ∀ i < data.rank, ∀ best, best.value = mVal ∨ Proper data.rank data.matrix best →
      ∃ sol, greedyRound fuel data.matrix data.rank best i = some sol ∧
        Proper data.rank data.matrix sol := by
    intro i hi best hbest
    obtain ⟨sol, hrun, hsol⟩ := getGreedySolutionFrom_spec hi hfuel hm
    obtain ⟨r, hopt, hr⟩ := hsol.twoOpt hf
    refine ⟨if r.1.value < best.value then r.1 else best, by simp [greedyRound, hrun, hopt], ?_⟩
    split
    · exact hr
    · next hge => exact hbest.resolve_left fun h => hge (h ▸ hr.lt hc hn)
  have hfold : ∀ is : List ℕ, (∀ i ∈ is, i < data.rank) → ∀ best, Proper data.rank data.matrix best →
      ∃ sol, is.foldlM (greedyRound fuel data.matrix data.rank) best = some sol ∧
        Proper data.rank data.matrix sol := by
    intro is
    induction is with
    | nil => exact fun _ best hbest => ⟨best, rfl, hbest⟩
    | cons i is ih =>
      intro his best hbest
      obtain ⟨sol, hrun, hsol⟩ := hround i (his i List.mem_cons_self) best (.inr hbest)
      obtain ⟨sol', hrun', hsol'⟩ := ih (fun j hj => his j (List.mem_cons_of_mem i hj)) sol hsol
      exact ⟨sol', by simp [List.foldlM_cons, hrun, hrun'], hsol'⟩
  obtain ⟨k, hk⟩ := Nat.exists_eq_add_of_le' (Nat.le_of_succ_le hn)
  have hrange : List.range data.rank = 0 :: (List.range k).map Nat.succ := by
    rw [hk, List.range_succ_eq_map]
  obtain ⟨sol, hrun, hsol⟩ := hround 0 (by omega) { value := mVal, route := [] } (.inl rfl)
  obtain ⟨sol', hrun', hsol'⟩ := hfold ((List.range k).map Nat.succ) (fun i hi => by
    obtain ⟨j, hj, rfl⟩ := List.mem_map.mp hi
    have := List.mem_range.mp hj
    omega) sol hsol
  refine ⟨sol', ?_, hsol'⟩
  rw [getGreedySolution, hrange, List.foldlM_cons, hrun]
  exact hrun'

/-! ### More rounds -/

theorem foldlM_mono {α β : Type*} {f g : β → α → Option β} {l : List α} {b r : β}
    (hfg : ∀ b a r, f b a = some r → g b a = some r) (h : l.foldlM f b = some r) :
    l.foldlM g b = some r := by
  induction l generalizing b with
  | nil => exact h
  | cons a l ih =>
    simp only [List.foldlM_cons, Option.bind_eq_bind, Option.bind_eq_some_iff] at h ⊢
    obtain ⟨c, hc, hr⟩ := h
    exact ⟨c, hfg b a c hc, ih hr⟩

/-- The greedy solution does not depend on the bound on the rounds. -/
theorem getGreedySolution_mono {fuel fuel' : ℕ} (h : getGreedySolution fuel matrix n = some sol)
    (hle : fuel ≤ fuel') : getGreedySolution fuel' matrix n = some sol := by
  refine foldlM_mono (fun best i r hr => ?_) h
  simp only [greedyRound, getGreedySolutionFrom, twoOpt, Option.bind_eq_bind, Option.bind_eq_some_iff]
    at hr ⊢
  obtain ⟨s, ⟨t, ht, hs⟩, u, hu, hr⟩ := hr
  exact ⟨s, ⟨t, Loop.iterate_mono ht hle, hs⟩, u, Loop.iterate_mono hu hle, hr⟩

theorem getGreedySolution_value {fuel fuel' : ℕ} {v : ValueType}
    (h : getGreedySolution fuel matrix n = some sol)
    (hv : (getGreedySolution fuel' matrix n).map Solution.value = some v) (hle : fuel' ≤ fuel) :
    sol.value = v := by
  obtain ⟨sol', h', rfl⟩ := Option.map_eq_some_iff.mp hv
  rw [Option.some.inj (h.symm.trans (getGreedySolution_mono h' hle))]

end Optimer.Tsp
