import Optimer.Tsp.BuildTour

/-! `build_tour` accepts exactly the edges of a Hamiltonian cycle, and then runs around it. -/

namespace Optimer.Stsp
open Optimer.Tsp SpanningTree

variable {edges : List Edge} {n u v : ℕ} {p : ℕ → ℕ} {route : List ℕ}

/-- The edges are those of a tour, each once, in any order and any direction. -/
def IsHamiltonianCycle (n : ℕ) (edges : List Edge) : Prop :=
  ∃ p, IsTour n p ∧
    (edges.map fun e => s(e.1, e.2)).Perm ((List.range n).map fun i => s(i, p i))

/-- What a route does that runs once around the edges, from vertex `0` back to it. -/
structure RunsAround (n : ℕ) (edges : List Edge) (route : List ℕ) : Prop where
  length : route.length = n + 1
  head : route.head? = some 0
  last : route.getLast? = some 0
  visits : route.dropLast.Perm (List.range n)
  traverses : ((route.zip route.tail).map fun e => s(e.1, e.2)).Perm (edges.map fun e => s(e.1, e.2))

/-! ### The edges of a cycle -/

section Cycle

variable (hp : IsTour n p)
  (h : (edges.map fun e => s(e.1, e.2)).Perm ((List.range n).map fun i => s(i, p i)))

include h

theorem adj_iff_passes : Adj edges u v ↔ Passes n p (u, v) := by
  have hmem : Adj edges u v ↔ s(u, v) ∈ edges.map fun e => s(e.1, e.2) := by
    rw [List.mem_map]
    constructor
    · rintro (he | he)
      exacts [⟨_, he, rfl⟩, ⟨_, he, Sym2.eq_swap⟩]
    · rintro ⟨⟨a, b⟩, he, heq⟩
      rcases Sym2.eq_iff.mp heq with ⟨rfl, rfl⟩ | ⟨rfl, rfl⟩
      exacts [.inl he, .inr he]
  rw [hmem, h.mem_iff, List.mem_map]
  constructor
  · rintro ⟨i, hi, heq⟩
    exact ⟨i, List.mem_range.mp hi, (Sym2.eq_iff.mp heq).imp (fun h => Prod.ext h.1 h.2)
      fun h => Prod.ext h.2 h.1⟩
  · rintro ⟨i, hi, heq⟩
    exact ⟨i, List.mem_range.mpr hi, Sym2.eq_iff.mpr (heq.imp Prod.mk.inj fun h => (Prod.mk.inj h).symm)⟩

include hp

/-- Every vertex of a cycle has two edges: to the next vertex and to the one before. -/
theorem degrees_of_cycle (hn : 3 ≤ n) (hv : v < n) : degrees edges v = 2 := by
  obtain ⟨u, hu, rfl⟩ := hp.perm.surj hv
  have hdist : Distinct edges := h.nodup_iff.mpr (hp.edges_nodup hn)
  have hself : (p u, p u) ∉ edges := fun he =>
    ((adj_iff_passes h).mp (.inl he)).ne hp (by omega) rfl
  have hnext : Passes n p (p u, p (p u)) := ⟨p u, hv, .inl rfl⟩
  have hprev : Passes n p (p u, u) := ⟨u, hu, .inr rfl⟩
  have hne : p (p u) ≠ u := hp.apply_apply_ne hn hu
  have hperm : (adjacencyList edges (p u)).Perm [p (p u), u] := by
    refine (List.perm_ext_iff_of_nodup (nodup_adjacencyList hdist hself) (by simpa using hne)).mpr
      fun w => ?_
    rw [mem_adjacencyList, adj_iff_passes h, List.mem_pair]
    constructor
    · exact fun hw => Passes.eq_or_eq hp hnext hprev hne hw
    · rintro (rfl | rfl)
      exacts [hnext, hprev]
  exact length_adjacencyList.symm.trans hperm.length_eq

theorem joined_of_cycle (hv : v < n) : Joined edges 0 v := by
  have hn : 0 < n := Nat.zero_lt_of_lt hv
  obtain ⟨k, rfl⟩ := hp.reach v hv
  clear hv
  induction k with
  | zero => exact .refl
  | succ k ih =>
    rw [Function.iterate_succ_apply']
    exact ih.tail ((adj_iff_passes h).mpr ⟨_, hp.iterate_lt hn k, .inl rfl⟩)

end Cycle

/-! ### The route -/

section Route

variable (hp : IsTour n p)

include hp

theorem iterates_snoc (hn : 0 < n) : (List.range (n + 1)).map (fun k => p^[k] 0) =
    (List.range n).map (fun k => p^[k] 0) ++ [0] := by
  rw [List.range_succ, List.map_append, List.map_singleton, hp.iterate_self hn]

omit hp in
theorem iterates_cons : (List.range (n + 1)).map (fun k => p^[k] 0) =
    0 :: (List.range n).map (fun k => p (p^[k] 0)) := by
  rw [List.range_succ_eq_map, List.map_cons, List.map_map]
  exact congrArg (0 :: ·) (List.map_congr_left fun k _ => Function.iterate_succ_apply' p k 0)

/-- The arcs of a route along a tour. -/
theorem zip_iterates (hn : 0 < n) : ((List.range (n + 1)).map fun k => p^[k] 0).zip
    ((List.range (n + 1)).map fun k => p^[k] 0).tail =
      (List.range n).map fun k => (p^[k] 0, p (p^[k] 0)) := by
  rw [iterates_cons, List.tail_cons, ← iterates_cons, iterates_snoc hp hn]
  refine List.ext_getElem (by simp) fun k hk hk' => ?_
  simp only [List.length_map, List.length_range] at hk'
  simp [hk']

/-- A route along a tour is closed and costs what the tour does. -/
theorem closedRoute_iterates (hn : 0 < n) (matrix : ℕ → ℕ → ValueType) :
    ClosedRoute n ((List.range (n + 1)).map fun k => p^[k] 0) ∧
      calcValue matrix ((List.range (n + 1)).map fun k => p^[k] 0) = cost n matrix p := by
  constructor
  · obtain ⟨m, rfl⟩ : ∃ m, n = m + 1 := ⟨n - 1, by omega⟩
    refine ⟨0, (List.range m).map fun k => p (p^[k] 0), ?_, ?_⟩
    · rw [← iterates_cons]
      exact hp.iterates_perm
    · rw [iterates_snoc hp hn, iterates_cons]
      rfl
  · show _ = ∑ i ∈ Finset.range n, matrix i (p i)
    rw [calcValue, ← List.map_uncurry_zip_eq_zipWith, zip_iterates hp hn, List.map_map, hp.sum_eq]
    simp only [Function.comp_def, Function.uncurry, Function.iterate_succ_apply']

end Route

/-- A route along a tour runs around its edges. -/
theorem runsAround (hn : 3 ≤ n) (hp : IsTour n p)
    (hroute : route = (List.range (n + 1)).map fun k => p^[k] 0)
    (h : (edges.map fun e => s(e.1, e.2)).Perm ((List.range n).map fun i => s(i, p i))) :
    RunsAround n edges route := by
  subst hroute
  refine ⟨by simp, by rw [iterates_cons]; rfl, by rw [iterates_snoc hp (by omega)]; simp, ?_, ?_⟩
  · rw [iterates_snoc hp (by omega), List.dropLast_concat]
    exact hp.iterates_perm
  · rw [zip_iterates hp (by omega), List.map_map]
    have hmap : ((fun e : Edge => s(e.1, e.2)) ∘ fun k => (p^[k] 0, p (p^[k] 0))) =
        (fun i => s(i, p i)) ∘ fun k => p^[k] 0 := rfl
    rw [hmap, ← List.map_map]
    exact (hp.iterates_perm.map _).trans h.symm

/-- A route of `build_tour` is closed and costs what the edges cost. -/
theorem buildTour_closed (hn : 3 ≤ n) (hlen : edges.length = n) (h : buildTour edges = some route)
    (hne : route ≠ []) : ClosedRoute n route ∧
      ∀ matrix, SymmetricOn n matrix → calcValue matrix route = SpanningTree.cost matrix edges := by
  obtain ⟨p, hp, rfl, hperm⟩ := buildTour_sound hn hlen h hne
  have hin : Within n edges := hlen ▸ within_of_buildTour h
  refine ⟨(closedRoute_iterates hp (by omega) fun _ _ => 0).1, fun matrix hsymm => ?_⟩
  exact (closedRoute_iterates hp (by omega) matrix).2.trans (cost_of_perm hsymm hin hp hperm).symm

/-- `build_tour` returns a route if and only if the edges form a Hamiltonian cycle, and then it runs
around the cycle. The walk is always at a vertex with neighbours. -/
theorem buildTour_iff_cycle (hn : 3 ≤ n) (hlen : edges.length = n) (hin : Within n edges) :
    ∃ route, buildTour edges = some route ∧ (route ≠ [] ↔ IsHamiltonianCycle n edges) ∧
      (route ≠ [] → RunsAround n edges route) ∧
      ((∀ v < n, (adjacencyList edges v).length = 2) → adjacencyList edges 0 ≠ [] ∧
        ∀ m tour added, walkAfter edges m = some (tour, added) →
          2 ≤ tour.length ∧ tour.getLastD 0 < n ∧ adjacencyList edges (tour.getLastD 0) ≠ []) := by
  subst hlen
  obtain ⟨route, hroute⟩ := exists_buildTour (by omega) hin
  refine ⟨route, hroute, ⟨fun hne => ?_, fun ⟨p, hp, hperm⟩ => ?_⟩, fun hne => ?_, fun hadj => ?_⟩
  · obtain ⟨p, hp, _, hperm⟩ := buildTour_sound hn rfl hroute hne
    exact ⟨p, hp, hperm⟩
  · obtain ⟨route', hroute', hne⟩ := buildTour_complete hn hin
      (hperm.nodup_iff.mpr (hp.edges_nodup hn)) (fun v hv => joined_of_cycle hp hperm hv)
      fun v hv => degrees_of_cycle hp hperm hn hv
    rwa [Option.some.inj (hroute.symm.trans hroute')]
  · obtain ⟨p, hp, hiter, hperm⟩ := buildTour_sound hn rfl hroute hne
    exact runsAround hn hp hiter hperm
  · have hne : ∀ v < edges.length, adjacencyList edges v ≠ [] := fun v hv hnil => by
      have := hadj v hv
      rw [hnil] at this
      exact absurd this (by simp)
    refine ⟨hne 0 (by omega), fun m tour added hwalk => ?_⟩
    obtain ⟨W, hs⟩ := walkAfter_spec (by omega) hin hadj hwalk
    have hlast : tour.getLastD 0 < edges.length := by
      have hlength : tour.length = m + 1 + 1 := by rw [W.length, Nat.add_comm 1]
      rw [getLastD_eq hlength]
      exact hs _ (W.mem_added (by omega))
    exact ⟨by rw [W.length]; omega, hlast, hne _ hlast⟩

/-- A triangle, listed out of order. -/
theorem buildTour_iff_cycle_triangle : buildTour [(2, 0), (0, 1), (2, 1)] = some [0, 2, 1, 0] ∧
    IsHamiltonianCycle 3 [(2, 0), (0, 1), (2, 1)] ∧ RunsAround 3 [(2, 0), (0, 1), (2, 1)] [0, 2, 1, 0] := by
  have hin : Within 3 [(2, 0), (0, 1), (2, 1)] := by simp [Within]
  have hrun : buildTour [(2, 0), (0, 1), (2, 1)] = some [0, 2, 1, 0] := by decide +kernel
  obtain ⟨route, hroute, hiff, hruns, _⟩ := buildTour_iff_cycle (Nat.le_refl 3) rfl hin
  obtain rfl := Option.some.inj (hroute.symm.trans hrun)
  have hne : [0, 2, 1, 0] ≠ [] := List.cons_ne_nil _ _
  exact ⟨hrun, hiff.mp hne, hruns hne⟩

end Optimer.Stsp
