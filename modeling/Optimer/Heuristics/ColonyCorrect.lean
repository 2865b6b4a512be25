import Mathlib.Algebra.Order.BigOperators.Group.Finset
import Optimer.Heuristics.Colony

/-! A colony ends if its ants find vertices to go to, and from then on it has the best of all tours its ants have
found; the pheromone stays between two bounds. -/

namespace Optimer.AcoTsp
open Optimer.Tsp

variable {n : ℕ} {dist theta : ℕ → ℕ → ValueType} {sol best : Solution} {solutions : List Solution}
  {params : ColonyParams}

/-! ### The pheromone -/

theorem addAt_apply {x : ValueType} {e : Edge} {i j : ℕ} :
    addAt x theta e i j = theta i j + if (i, j) = e then x else 0 := by
  obtain ⟨k, l⟩ := e
  rcases eq_or_ne i k with rfl | hi
  · rcases eq_or_ne j l with rfl | hj
    · simp [addAt]
    · simp [addAt, hj]
  · simp [addAt, hi]

theorem foldl_addAt {x : ValueType} {edges : List Edge} (h : edges.Nodup) {i j : ℕ} :
    edges.foldl (addAt x) theta i j = theta i j + if (i, j) ∈ edges then x else 0 := by
  induction edges generalizing theta with
  | nil => simp
  | cons e edges ih =>
    obtain ⟨he, hedges⟩ := List.nodup_cons.mp h
    rw [List.foldl_cons, ih hedges, addAt_apply, add_assoc]
    rcases eq_or_ne (i, j) e with rfl | hne
    · simp [he]
    · simp [hne]

/-- A closed route takes no edge twice. -/
theorem nodup_edges {route : List ℕ} (h : ClosedRoute n route) : (route.zip route.tail).Nodup := by
  obtain ⟨v, l, hperm, rfl⟩ := h
  have hnodup : (v :: l).Nodup := hperm.nodup_iff.mpr List.nodup_range
  have hzip : (v :: (l ++ [v])).zip (l ++ [v]) = (v :: l).zip (l ++ [v]) := by
    have happ : ((v :: l) ++ [v]).zip ((l ++ [v]) ++ []) = _ := List.zip_append (by simp)
    simpa using happ
  have hfst : ((v :: l).zip (l ++ [v])).map Prod.fst = v :: l := List.map_fst_zip (by simp)
  rw [List.tail_cons, hzip]
  exact List.Nodup.of_map Prod.fst (hfst.symm ▸ hnodup)

/-- One ant raises the pheromone of an edge at most once. -/
theorem deposit_bounds (theta : ℕ → ℕ → ValueType) (h : Proper n dist sol) {q least : ValueType} (hq : 0 ≤ q)
    (hleast : 0 < least) (hle : least ≤ sol.value) (i j : ℕ) :
    theta i j ≤ deposit q theta sol i j ∧ deposit q theta sol i j ≤ theta i j + q / least := by
  have hpos : 0 ≤ q / sol.value := div_nonneg hq (hleast.le.trans hle)
  have hquot : q / sol.value ≤ q / least := div_le_div_of_nonneg_left hq hleast hle
  rw [deposit, foldl_addAt (nodup_edges h.closed)]
  split
  · exact ⟨le_add_of_nonneg_right hpos, by gcongr⟩
  · exact ⟨le_add_of_nonneg_right le_rfl, by rw [add_zero]; exact le_add_of_nonneg_right (hpos.trans hquot)⟩

theorem deposits_bounds (theta : ℕ → ℕ → ValueType) {q least : ValueType} (hq : 0 ≤ q) (hleast : 0 < least)
    (h : ∀ sol ∈ solutions, Proper n dist sol ∧ least ≤ sol.value) (i j : ℕ) :
    theta i j ≤ solutions.foldl (deposit q) theta i j ∧
      solutions.foldl (deposit q) theta i j ≤ theta i j + solutions.length * (q / least) := by
  induction solutions generalizing theta with
  | nil => simp
  | cons sol solutions ih =>
    obtain ⟨⟨hsol, hle⟩, hrest⟩ := List.forall_mem_cons.mp h
    obtain ⟨hlow, hhigh⟩ := deposit_bounds theta hsol hq hleast hle i j
    obtain ⟨hlow', hhigh'⟩ := ih (deposit q theta sol) hrest
    rw [List.foldl_cons, List.length_cons]
    refine ⟨hlow.trans hlow', hhigh'.trans ?_⟩
    push_cast
    linarith

/-! ### The best solution -/

theorem takeBest_cases (best : Solution) (solutions : List Solution) :
    (takeBest best solutions = best ∨
      takeBest best solutions ∈ solutions ∧ (takeBest best solutions).value < best.value) ∧
      (takeBest best solutions).value ≤ best.value ∧
      ∀ sol ∈ solutions, (takeBest best solutions).value ≤ sol.value := by
  induction solutions generalizing best with
  | nil => exact ⟨.inl rfl, le_rfl, nofun⟩
  | cons sol solutions ih =>
    rw [takeBest, List.foldl_cons]
    change (takeBest _ solutions = best ∨ takeBest _ solutions ∈ _ ∧ (takeBest _ solutions).value < _) ∧
      (takeBest _ solutions).value ≤ _ ∧ ∀ s ∈ _, (takeBest _ solutions).value ≤ _
    by_cases hlt : sol.value < best.value
    · rw [if_pos hlt]
      obtain ⟨hfrom, hle, hall⟩ := ih sol
      refine ⟨.inr ⟨?_, hle.trans_lt hlt⟩, hle.trans hlt.le, List.forall_mem_cons.mpr ⟨hle, hall⟩⟩
      rcases hfrom with heq | ⟨hmem, _⟩
      · rw [heq]
        exact List.mem_cons_self
      · exact List.mem_cons_of_mem _ hmem
    · rw [if_neg hlt]
      obtain ⟨hfrom, hle, hall⟩ := ih best
      refine ⟨hfrom.imp_right fun h => ⟨List.mem_cons_of_mem _ h.1, h.2⟩, hle,
        List.forall_mem_cons.mpr ⟨hle.trans (not_lt.mp hlt), hall⟩⟩

/-! ### The ants -/

section Ants

variable {pow : ValueType → ValueType → ValueType} {sort : (ℕ → ValueType) → List ℕ → List ℕ} {ant : Ant}
  {ants : List Ant} {random : ℕ → ℕ} {fuel fuel' k : ℕ}

theorem solve_mono (h : ant.solve pow sort random fuel = some sol) (hle : fuel ≤ fuel') :
    ant.solve pow sort random fuel' = some sol := by
  simp only [Ant.solve, Option.bind_eq_bind, Option.bind_eq_some_iff] at h ⊢
  obtain ⟨s, hs, front, hfront, r, hr, hsol⟩ := h
  exact ⟨s, Loop.iterate_mono hs hle, front, hfront, r, Loop.iterate_mono hr hle, hsol⟩

/-- An ant with an empty candidate list goes nowhere. -/
theorem solve_none (hlists : ¬ ant.Lists) (hn : 2 ≤ ant.dimension) (hs : ant.startPoint < ant.dimension) :
    ant.solve pow sort random fuel = none := by
  have hne : getListPoints ant.dimension (ant.start.appendVertex ant.startPoint).selectedVertices ≠ [] := by
    refine List.ne_nil_of_mem (a := if ant.startPoint = 0 then 1 else 0)
      ((State.Inv.initial (n := ant.dimension) hs).mem_points.mpr ?_)
    show _ ∧ _ ∉ [ant.startPoint]
    split <;> simp <;> omega
  have hbody : solveBody pow sort ant random ant.start = none := by
    rw [solveBody, if_pos (show ant.start.currVertex < ant.dimension from hs)]
    exact congrArg (Option.map _) (getNextPoint_none hlists hne)
  cases fuel with
  | zero => rfl
  | succ fuel =>
    rw [Ant.solve, Loop.iterate, hbody]
    rfl

end Ants

/-! ### The colony -/

/-- What the colony is given: distances that are positive, pheromone that evaporates at a rate, and the functions of
the library. -/
structure Setting (n : ℕ) (dist : ℕ → ℕ → ValueType) (params : ColonyParams)
    (pow : ValueType → ValueType → ValueType) (sort : (ℕ → ValueType) → List ℕ → List ℕ) (shuffled : List ℕ) :
    Prop where
  dist_pos : ∀ i < n, ∀ j < n, i ≠ j → 0 < dist i j
  p_nonneg : 0 ≤ params.p
  p_le : params.p ≤ 1
  q_nonneg : 0 ≤ params.q
  pow_pos : ∀ x a, 0 < x → 0 < pow x a
  sort_perm : ∀ row l, (sort row l).Perm l
  shuffled_perm : shuffled.Perm (List.range n)

/-- A bound that neither the first pheromone nor any later one exceeds, where no tour is shorter than `least`. -/
structure Bounds (n : ℕ) (dist : ℕ → ℕ → ValueType) (params : ColonyParams) (least bound : ValueType) : Prop where
  start : ∀ i < n, ∀ j < n, i ≠ j → dist i j * (1 - params.p) + hundredth ≤ bound
  step : hundredth + (n / 2 : ℕ) * (params.q / least) ≤ params.p * bound

/-- The state after some iterations. -/
structure Colony.Inv (n : ℕ) (dist : ℕ → ℕ → ValueType) (params : ColonyParams) (c : Colony) (rounds : ℕ) : Prop where
  theta_ge : ∀ i < n, ∀ j < n, i ≠ j → hundredth ≤ c.matrixTheta i j
  theta_le : ∀ least bound, IsOptimum n dist least → Bounds n dist params least bound →
    ∀ i < n, ∀ j < n, i ≠ j → c.matrixTheta i j ≤ bound
  proper : ∀ sol ∈ c.found, Proper n dist sol
  length : c.found.length = rounds * (n / 2)
  best : c.bestSolution = takeBest { value := mVal } c.found

/-- No ant lists candidates, or all ants list some. -/
def Lists (n : ℕ) (params : ColonyParams) : Prop := params.candidateListFactor ≤ 0 ∨ 4 ≤ n

section Colony

variable {pow : ValueType → ValueType → ValueType} {sort : (ℕ → ValueType) → List ℕ → List ℕ} {shuffled : List ℕ}
  {fuel fuel' k left m : ℕ} {c c' : Colony} {ant : Ant} {ants : List Ant}

theorem hundredth_pos : 0 < hundredth := by norm_num [hundredth]

/-- Every tour is as long as its edges. -/
theorem optimum_pos (h : Setting n dist params pow sort shuffled) (hn : 2 ≤ n) {least : ValueType}
    (hleast : IsOptimum n dist least) : 0 < least := by
  obtain ⟨⟨p, hp, rfl⟩, _⟩ := hleast
  refine Finset.sum_pos (fun i hi => ?_) ⟨0, Finset.mem_range.mpr (by omega)⟩
  rw [Finset.mem_range] at hi
  exact h.dist_pos i hi _ (hp.perm.lt hi) (hp.ne hn hi).symm

theorem optimum_le (h : Proper n dist sol) {least : ValueType} (hleast : IsOptimum n dist least) :
    least ≤ sol.value := by
  obtain ⟨p, hp, heq⟩ := h.exists_tour
  exact heq ▸ hleast.2 ⟨p, hp, rfl⟩

theorem colonyStart_inv (h : Setting n dist params pow sort shuffled) :
    (colonyStart dist params).Inv n dist params 0 where
  theta_ge i hi j hj hij := by
    have hmul : 0 ≤ dist i j * (1 - params.p) := mul_nonneg (h.dist_pos i hi j hj hij).le (sub_nonneg.mpr h.p_le)
    exact le_add_of_nonneg_left hmul
  theta_le _ _ _ hb := hb.start
  proper _ hsol := absurd hsol List.not_mem_nil
  length := (Nat.zero_mul _).symm
  best := rfl

theorem updatePheromone_bounds (theta : ℕ → ℕ → ValueType) (h : Setting n dist params pow sort shuffled)
    (hsols : ∀ sol ∈ solutions, Proper n dist sol) (hn : 2 ≤ n ∨ solutions = []) {least : ValueType}
    (hleast : IsOptimum n dist least) (i j : ℕ) :
    theta i j * (1 - params.p) + hundredth ≤ updatePheromone params solutions theta i j ∧
      updatePheromone params solutions theta i j ≤
        theta i j * (1 - params.p) + hundredth + solutions.length * (params.q / least) := by
  rcases hn with hn | rfl
  · exact deposits_bounds (fun i j => theta i j * (1 - params.p) + hundredth) h.q_nonneg
      (optimum_pos h hn hleast) (fun sol hsol => ⟨hsols sol hsol, optimum_le (hsols sol hsol) hleast⟩) i j
  · simp [updatePheromone]

/-- What a round of ants does to the pheromone. -/
theorem Colony.Inv.next (hc : c.Inv n dist params m) (h : Setting n dist params pow sort shuffled)
    (hsols : ∀ sol ∈ solutions, Proper n dist sol) (hlen : solutions.length = n / 2) (hn : 2 ≤ n ∨ solutions = []) :
    Colony.Inv n dist params
      { matrixTheta := updatePheromone params solutions c.matrixTheta
        bestSolution := takeBest c.bestSolution solutions
        found := c.found ++ solutions } (m + 1) where
  theta_ge i hi j hj hij := by
    obtain ⟨least, hleast⟩ := exists_optimum n dist
    have hold : 0 ≤ c.matrixTheta i j * (1 - params.p) :=
      mul_nonneg (hundredth_pos.le.trans (hc.theta_ge i hi j hj hij)) (sub_nonneg.mpr h.p_le)
    exact (le_add_of_nonneg_left hold).trans (updatePheromone_bounds c.matrixTheta h hsols hn hleast i j).1
  theta_le least bound hleast hb i hi j hj hij := by
    have hold := mul_le_mul_of_nonneg_right (hc.theta_le least bound hleast hb i hi j hj hij) (sub_nonneg.mpr h.p_le)
    have hnew := (updatePheromone_bounds c.matrixTheta h hsols hn hleast i j).2
    have hstep := hb.step
    rw [hlen] at hnew
    show updatePheromone params solutions c.matrixTheta i j ≤ bound
    linarith
  proper sol hsol := (List.mem_append.mp hsol).elim (hc.proper sol) (hsols sol)
  length := by rw [List.length_append, hc.length, hlen, Nat.succ_mul]
  best := by
    show takeBest c.bestSolution solutions = takeBest _ (c.found ++ solutions)
    rw [hc.best]
    exact List.foldl_append.symm

/-- The ants of an iteration. -/
theorem mem_ants (h : Setting n dist params pow sort shuffled) (hant : ant ∈ c.ants dist n params shuffled) :
    ∃ start < n, ant = Ant.init {} dist c.matrixTheta n params.toParams start := by
  obtain ⟨start, hstart, rfl⟩ := List.mem_map.mp hant
  exact ⟨start, List.mem_range.mp (h.shuffled_perm.mem_iff.mp (List.mem_of_mem_take hstart)), rfl⟩

theorem length_ants (h : Setting n dist params pow sort shuffled) :
    (c.ants dist n params shuffled).length = n / 2 := by
  rw [Colony.ants, List.length_map, List.length_take, h.shuffled_perm.length_eq, List.length_range]
  exact min_eq_left (Nat.div_le_self ..)

theorem ant_solves (h : Setting n dist params pow sort shuffled) (hc : c.Inv n dist params m)
    (hlists : Lists n params) (hant : ant ∈ c.ants dist n params shuffled) (random : ℕ → ℕ) :
    ∃ fuel sol, ant.solve pow sort random fuel = some sol ∧ Proper n dist sol := by
  obtain ⟨start, hstart, rfl⟩ := mem_ants h hant
  have hweighs : (Ant.init {} dist c.matrixTheta n params.toParams start).Weighs pow := fun i hi j hj hij =>
    div_pos (h.pow_pos _ _ (hundredth_pos.trans_le (hc.theta_ge i hi j hj hij)))
      (h.pow_pos _ _ (h.dist_pos i hi j hj hij))
  exact (solve_spec h.sort_perm ((lists_init dist c.matrixTheta start).mpr hlists) hweighs hstart).2

/-- An ant that comes back has found a tour. -/
theorem ant_proper (h : Setting n dist params pow sort shuffled) (hc : c.Inv n dist params m) (hn : 2 ≤ n)
    (hant : ant ∈ c.ants dist n params shuffled) {random : ℕ → ℕ} (hsol : ant.solve pow sort random fuel = some sol) :
    Lists n params ∧ Proper n dist sol := by
  have hlists : Lists n params := by
    by_contra hlists
    obtain ⟨start, hstart, rfl⟩ := mem_ants h hant
    have hnone : Ant.solve pow sort (Ant.init {} dist c.matrixTheta n params.toParams start) random fuel = none :=
      solve_none (mt (lists_init dist c.matrixTheta start).mp hlists) hn hstart
    cases hnone.symm.trans hsol
  obtain ⟨fuel', sol', hsol', hproper⟩ := ant_solves h hc hlists hant random
  have heq := (solve_mono hsol (le_max_left fuel fuel')).symm.trans (solve_mono hsol' (le_max_right fuel fuel'))
  exact ⟨hlists, Option.some.inj heq ▸ hproper⟩

theorem solveAnts_proper {random : ℕ → ℕ → ℕ} {P : Solution → Prop}
    (hants : ∀ ant ∈ ants, ∀ random sol, ant.solve pow sort random fuel = some sol → P sol)
    (h : solveAnts pow sort fuel random k ants = some solutions) :
    (∀ sol ∈ solutions, P sol) ∧ solutions.length = ants.length := by
  induction ants generalizing k solutions with
  | nil =>
    obtain rfl := Option.some.inj h
    exact ⟨fun _ hsol => absurd hsol List.not_mem_nil, rfl⟩
  | cons ant ants ih =>
    obtain ⟨hant, hrest⟩ := List.forall_mem_cons.mp hants
    simp only [solveAnts, Option.bind_eq_bind, Option.bind_eq_some_iff] at h
    obtain ⟨sol, hsol, sols, hsols, heq⟩ := h
    obtain rfl := Option.some.inj heq
    obtain ⟨hall, hlen⟩ := ih hrest hsols
    exact ⟨List.forall_mem_cons.mpr ⟨hant _ sol hsol, hall⟩, by rw [List.length_cons, hlen, List.length_cons]⟩

theorem solveAnts_total (random : ℕ → ℕ → ℕ) (k : ℕ)
    (hants : ∀ ant ∈ ants, ∀ random, ∃ fuel sol, ant.solve pow sort random fuel = some sol) :
    ∃ fuel₀ sols, ∀ fuel ≥ fuel₀, solveAnts pow sort fuel random k ants = some sols := by
  induction ants generalizing k with
  | nil => exact ⟨0, [], fun _ _ => rfl⟩
  | cons ant ants ih =>
    obtain ⟨hant, hrest⟩ := List.forall_mem_cons.mp hants
    obtain ⟨fuel₁, sol, hsol⟩ := hant (random k)
    obtain ⟨fuel₂, sols, hsols⟩ := ih (k + 1) hrest
    refine ⟨max fuel₁ fuel₂, sol :: sols, fun fuel hf => ?_⟩
    rw [solveAnts, solve_mono hsol ((le_max_left ..).trans hf), hsols fuel ((le_max_right ..).trans hf)]
    rfl

variable {random : ℕ → ℕ → ℕ → ℕ} {interrupted : ℕ → Bool}

theorem iteration_spec (h : Setting n dist params pow sort shuffled) (hc : c.Inv n dist params m)
    (hit : c.iteration pow sort fuel dist n params shuffled random k = some c') :
    c'.Inv n dist params (m + 1) ∧ (n < 2 ∨ Lists n params) := by
  simp only [Colony.iteration, Option.bind_eq_bind, Option.bind_eq_some_iff] at hit
  obtain ⟨sols, hsols, heq⟩ := hit
  obtain rfl := Option.some.inj heq
  by_cases hn : 2 ≤ n
  · obtain ⟨hall, hlen⟩ := solveAnts_proper (P := fun sol => Lists n params ∧ Proper n dist sol)
      (fun ant hant _ _ hsol => ant_proper h hc hn hant hsol) hsols
    have hhalf := hlen.trans (length_ants h)
    refine ⟨hc.next h (fun sol hsol => (hall sol hsol).2) hhalf (.inl hn), .inr ?_⟩
    obtain ⟨sol, hsol⟩ := List.exists_mem_of_length_pos (by omega : 0 < sols.length)
    exact (hall sol hsol).1
  · obtain ⟨_, hlen⟩ := solveAnts_proper (P := fun _ => True) (fun _ _ _ _ _ => trivial) hsols
    have hhalf := hlen.trans (length_ants h)
    obtain rfl : sols = [] := List.eq_nil_of_length_eq_zero (by omega)
    exact ⟨hc.next h (fun _ hsol => absurd hsol List.not_mem_nil) hhalf (.inr rfl), .inl (by omega)⟩

theorem iteration_total (h : Setting n dist params pow sort shuffled) (hc : c.Inv n dist params m)
    (hl : n < 2 ∨ Lists n params) (random : ℕ → ℕ → ℕ → ℕ) (k : ℕ) :
    ∃ fuel₀ c', ∀ fuel ≥ fuel₀, c.iteration pow sort fuel dist n params shuffled random k = some c' := by
  have hants : ∀ ant ∈ c.ants dist n params shuffled, ∀ random, ∃ fuel sol,
      ant.solve pow sort random fuel = some sol := fun ant hant random => by
    have hlists : Lists n params := hl.resolve_left fun hn => by
      have hpos := List.length_pos_of_mem hant
      rw [length_ants h] at hpos
      omega
    obtain ⟨fuel, sol, hsol, _⟩ := ant_solves h hc hlists hant random
    exact ⟨fuel, sol, hsol⟩
  obtain ⟨fuel₀, sols, hsols⟩ := solveAnts_total (random k) 0 hants
  refine ⟨fuel₀, ⟨updatePheromone params sols c.matrixTheta, takeBest c.bestSolution sols, c.found ++ sols⟩,
    fun fuel hf => ?_⟩
  rw [Colony.iteration, hsols fuel hf]
  rfl

/-- What the loop of `solve` does from the iteration `k`. -/
theorem loop_spec (h : Setting n dist params pow sort shuffled) (hc : c.Inv n dist params k)
    (hl : Colony.loop pow sort fuel dist n params shuffled random interrupted left k c = some c') :
    ∃ m ≤ left, c'.Inv n dist params (k + m) ∧ (∀ j < m, interrupted (k + j) = false) ∧
      (m = left ∨ interrupted (k + m) = true) := by
  induction left generalizing k c with
  | zero =>
    obtain rfl := Option.some.inj hl
    exact ⟨0, le_rfl, hc, fun j hj => absurd hj j.not_lt_zero, .inl rfl⟩
  | succ left ih =>
    rw [Colony.loop] at hl
    split at hl
    · next hi =>
      obtain rfl := Option.some.inj hl
      exact ⟨0, Nat.zero_le _, hc, fun j hj => absurd hj j.not_lt_zero, .inr hi⟩
    · next hi =>
      obtain ⟨c₁, hit, hrest⟩ := Option.bind_eq_some_iff.mp hl
      obtain ⟨m, hm, hc', hquiet, hend⟩ := ih (iteration_spec h hc hit).1 hrest
      refine ⟨m + 1, Nat.succ_le_succ hm, ?_, fun j hj => ?_, ?_⟩
      · rwa [Nat.add_right_comm] at hc'
      · cases j with
        | zero => exact Bool.not_eq_true _ ▸ hi
        | succ j =>
          have hj := hquiet j (Nat.lt_of_succ_lt_succ hj)
          rwa [Nat.add_right_comm] at hj
      · refine hend.imp (congrArg (· + 1)) fun hint => ?_
        rwa [Nat.add_right_comm] at hint

theorem loop_total (h : Setting n dist params pow sort shuffled) (hl : n < 2 ∨ Lists n params)
    (hc : c.Inv n dist params k) (random : ℕ → ℕ → ℕ → ℕ) (interrupted : ℕ → Bool) (left : ℕ) :
    ∃ fuel₀ c', ∀ fuel ≥ fuel₀,
      Colony.loop pow sort fuel dist n params shuffled random interrupted left k c = some c' := by
  induction left generalizing k c with
  | zero => exact ⟨0, c, fun _ _ => rfl⟩
  | succ left ih =>
    cases hi : interrupted k with
    | true => exact ⟨0, c, fun _ _ => by rw [Colony.loop, if_pos hi]⟩
    | false =>
      obtain ⟨fuel₁, c₁, hit⟩ := iteration_total h hc hl random k
      obtain ⟨fuel₂, c₂, hrest⟩ := ih (iteration_spec h hc (hit fuel₁ le_rfl)).1
      refine ⟨max fuel₁ fuel₂, c₂, fun fuel hf => ?_⟩
      rw [Colony.loop, hi, hit fuel ((le_max_left ..).trans hf)]
      exact hrest fuel ((le_max_right ..).trans hf)

/-- What a colony has done at its return. -/
structure Colony.Sound (n : ℕ) (dist : ℕ → ℕ → ValueType) (params : ColonyParams) (interrupted : ℕ → Bool)
    (c : Colony) : Prop where
  /-- It has gone on up to the first signal or the last iteration, with half as many ants as vertices. -/
  rounds : ∃ m ≤ params.iterations, (∀ j < m, interrupted j = false) ∧
    (m = params.iterations ∨ interrupted m = true) ∧ c.found.length = m * (n / 2)
  proper : ∀ sol ∈ c.found, Proper n dist sol
  best_le : ∀ sol ∈ c.found, c.bestSolution.value ≤ sol.value
  best : c.bestSolution ∈ c.found ∧ c.bestSolution.value < mVal ∨
    c.bestSolution = { value := mVal } ∧ ∀ sol ∈ c.found, mVal ≤ sol.value
  theta_ge : ∀ i < n, ∀ j < n, i ≠ j → hundredth ≤ c.matrixTheta i j
  theta_le : ∀ least bound, IsOptimum n dist least → Bounds n dist params least bound →
    ∀ i < n, ∀ j < n, i ≠ j → c.matrixTheta i j ≤ bound

theorem colony_returns (h : Setting n dist params pow sort shuffled)
    (hrun : colony pow sort fuel dist n params shuffled random interrupted = some c) :
    c.Sound n dist params interrupted := by
  obtain ⟨m, hm, hc, hquiet, hend⟩ := loop_spec h (colonyStart_inv h) hrun
  simp only [Nat.zero_add] at hc hquiet hend
  obtain ⟨hfrom, _, hall⟩ := takeBest_cases { value := mVal } c.found
  rw [← hc.best] at hfrom hall
  refine ⟨⟨m, hm, hquiet, hend, hc.length⟩, hc.proper, hall, ?_, hc.theta_ge, hc.theta_le⟩
  rcases hfrom with heq | hmem
  · exact .inr ⟨heq, fun sol hsol => (congrArg Solution.value heq).symm.le.trans (hall sol hsol)⟩
  · exact .inl hmem

/-- `aco_tsp::solve` comes to an end if and only if no ant is asked to choose from an empty list, whatever is drawn
and whenever a signal comes. It then has the best of all tours found. -/
theorem colony_sound (h : Setting n dist params pow sort shuffled) (random : ℕ → ℕ → ℕ → ℕ) (interrupted : ℕ → Bool) :
    ((∃ fuel₀ c, ∀ fuel ≥ fuel₀, colony pow sort fuel dist n params shuffled random interrupted = some c) ↔
      params.iterations = 0 ∨ interrupted 0 = true ∨ n < 2 ∨ Lists n params) ∧
      ∀ fuel c, colony pow sort fuel dist n params shuffled random interrupted = some c →
        c.Sound n dist params interrupted := by
  have hstart := colonyStart_inv h
  refine ⟨⟨fun ⟨fuel, c, hrun⟩ => ?_, fun hl => ?_⟩, fun fuel c hrun => ?_⟩
  · have hrun := hrun fuel le_rfl
    rw [colony] at hrun
    cases hit : params.iterations with
    | zero => exact .inl rfl
    | succ left =>
      rw [hit, Colony.loop] at hrun
      split at hrun
      · next hi => exact .inr (.inl hi)
      · obtain ⟨c₁, hround, _⟩ := Option.bind_eq_some_iff.mp hrun
        exact .inr (.inr (iteration_spec h hstart hround).2)
  · rcases hl with hit | hi | hl
    · exact ⟨0, _, fun fuel _ => by rw [colony, hit]; rfl⟩
    · refine ⟨0, colonyStart dist params, fun fuel _ => ?_⟩
      rw [colony]
      cases params.iterations with
      | zero => rfl
      | succ left => rw [Colony.loop, if_pos hi]
    · exact loop_total h hl hstart random interrupted params.iterations
  · exact colony_returns h hrun

/-- What the program prints: a tour that is no better than the best one, or nothing. -/
theorem solve_proper {parameters : Ini.IniSection} (hinit : ColonyParams.init {} parameters = some params)
    (h : Setting n dist params pow sort shuffled)
    (hsol : solve pow sort fuel dist n shuffled random interrupted parameters = some sol) :
    Proper n dist sol ∧ (∀ least, IsOptimum n dist least → least ≤ sol.value) ∨ sol = { value := mVal } := by
  simp only [solve, Option.bind_eq_bind, Option.bind_eq_some_iff] at hsol
  obtain ⟨params', hinit', c, hrun, heq⟩ := hsol
  obtain rfl := Option.some.inj (hinit.symm.trans hinit')
  obtain rfl := Option.some.inj heq
  have hc := colony_returns h hrun
  refine hc.best.imp (fun hbest => ?_) And.left
  exact ⟨hc.proper _ hbest.1, fun _ hleast => optimum_le (hc.proper _ hbest.1) hleast⟩

/-- The parameters of the constructor, for a section without any of them. -/
theorem init_default : ColonyParams.init {} (fun _ => none) = some {} := by
  have hiterations : toSizeT ((1000 : ℕ) : ValueType) = some 1000 := by
    rw [toSizeT, if_pos (by norm_num), Int.floor_natCast]
    rfl
  simp only [ColonyParams.init, findNumber, Option.bind_eq_bind, Option.bind_some]
  rw [hiterations]
  rfl

end Colony

/-- Four vertices, the default parameters but for two iterations. -/
theorem colony_sound_four : ∃ fuel c, colony (fun x _ => x) sortByRow fuel 1 4 { iterations := 2 } (List.range 4)
    (fun m k i => 37 * m + 11 * k + i) (fun _ => false) = some c ∧
      c.Sound 4 1 { iterations := 2 } fun _ => false := by
  have h : Setting 4 1 { iterations := 2 } (fun x _ => x) sortByRow (List.range 4) :=
    { dist_pos := fun _ _ _ _ _ => one_pos
      p_nonneg := by norm_num
      p_le := by norm_num
      q_nonneg := by norm_num
      pow_pos := fun _ _ hx => hx
      sort_perm := fun _ l => l.mergeSort_perm _
      shuffled_perm := .refl _ }
  obtain ⟨hiff, hsound⟩ := colony_sound h (fun m k i => 37 * m + 11 * k + i) fun _ => false
  obtain ⟨fuel, c, hrun⟩ := hiff.mpr (.inr (.inr (.inr (.inr le_rfl))))
  exact ⟨fuel, c, hrun fuel le_rfl, hsound fuel c (hrun fuel le_rfl)⟩

end Optimer.AcoTsp
