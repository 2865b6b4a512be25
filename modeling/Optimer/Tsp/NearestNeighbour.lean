import Optimer.Tsp.TwoOpt

/-! `get_greedy_solution` from a start vertex follows the nearest-neighbour path. It ends with a tour if
and only if an arc always leads on to a vertex that is left. -/

namespace Optimer.Tsp

variable {n start u v w : ℕ} {matrix : ℕ → ℕ → ValueType} {row : ℕ → ValueType} {l vertices : List ℕ}
  {minVertex : Option ℕ} {sol : Solution}

/-! ### The nearest vertex -/

/-- The first of the vertices at the end of a cheapest arc. -/
structure IsNearest (row : ℕ → ValueType) (vertices : List ℕ) (v : ℕ) : Prop where
  mem : v ∈ vertices
  arc : row v < mVal
  least : ∀ w ∈ vertices, row v < row w ∨ row v = row w ∧ v ≤ w

theorem IsNearest.unique (hv : IsNearest row vertices v) (hw : IsNearest row vertices w) : v = w := by
  rcases hv.least w hw.mem with h | ⟨h, hle⟩
  · rcases hw.least v hv.mem with h' | ⟨h', _⟩
    exacts [absurd h' h.not_gt, absurd h h'.not_gt.elim]
  · rcases hw.least v hv.mem with h' | ⟨_, hle'⟩
    exacts [absurd h h'.ne', Nat.le_antisymm hle hle']

/-- `nearest` finds the nearest vertex, and nothing where there is no arc. -/
theorem nearest_cases (row : ℕ → ValueType) (minVertex : Option ℕ) (hs : vertices.Pairwise (· < ·)) :
    (∃ v, IsNearest row vertices v ∧ nearest row vertices minVertex = (row v, some v)) ∨
      (∀ v ∈ vertices, mVal ≤ row v) ∧ nearest row vertices minVertex = (mVal, minVertex) := by
  induction vertices using List.reverseRecOn with
  | nil => exact .inr ⟨fun _ h => absurd h List.not_mem_nil, rfl⟩
  | append_singleton vertices u ih =>
    obtain ⟨hs, -, hlt⟩ := List.pairwise_append.mp hs
    have hstep : nearest row (vertices ++ [u]) minVertex =
        if row u < (nearest row vertices minVertex).1 then (row u, some u)
        else nearest row vertices minVertex := by
      rw [nearest, List.foldl_append]
      rfl
    rw [hstep]
    rcases ih hs with ⟨v, hv, hnear⟩ | ⟨hall, hnear⟩ <;> rw [hnear]
    · rcases lt_or_ge (row u) (row v) with h | h
      · refine .inl ⟨u, ⟨by simp, h.trans hv.arc, fun w hw => ?_⟩, if_pos h⟩
        rcases List.mem_append.mp hw with hw | hw
        · rcases hv.least w hw with h' | ⟨h', _⟩
          exacts [.inl (h.trans h'), .inl (h' ▸ h)]
        · exact .inr (List.mem_singleton.mp hw ▸ ⟨rfl, le_rfl⟩)
      · refine .inl ⟨v, ⟨List.mem_append_left _ hv.mem, hv.arc, fun w hw => ?_⟩, if_neg h.not_gt⟩
        rcases List.mem_append.mp hw with hw | hw
        · exact hv.least w hw
        · obtain rfl := List.mem_singleton.mp hw
          exact h.lt_or_eq.imp_right fun h => ⟨h, (hlt v hv.mem w (List.mem_singleton_self w)).le⟩
    · rcases lt_or_ge (row u) mVal with h | h
      · refine .inl ⟨u, ⟨by simp, h, fun w hw => ?_⟩, if_pos h⟩
        rcases List.mem_append.mp hw with hw | hw
        · exact .inl (h.trans_le (hall w hw))
        · exact .inr (List.mem_singleton.mp hw ▸ ⟨rfl, le_rfl⟩)
      · refine .inr ⟨fun w hw => ?_, if_neg h.not_gt⟩
        rcases List.mem_append.mp hw with hw | hw
        exacts [hall w hw, List.mem_singleton.mp hw ▸ h]

/-! ### The nearest-neighbour path -/

/-- The vertices that are left. -/
def unvisited (n : ℕ) (l : List ℕ) : List ℕ := (List.range n).filter (· ∉ l)

theorem mem_unvisited : v ∈ unvisited n l ↔ v < n ∧ v ∉ l := by
  rw [unvisited, List.mem_filter, List.mem_range, decide_eq_true_iff]

theorem unvisited_sorted : (unvisited n l).Pairwise (· < ·) := List.pairwise_lt_range.filter _

theorem unvisited_erase : (unvisited n l).erase v = unvisited n (l ++ [v]) := by
  have hnodup : (unvisited n l).Nodup := List.nodup_range.filter _
  rw [hnodup.erase_eq_filter, unvisited, unvisited, List.filter_filter]
  refine List.filter_congr fun w _ => ?_
  by_cases h : w = v <;> simp [h]

/-- A path from the start, always to the nearest vertex that is left, with the vertex it has come to. -/
inductive NearestPath (n : ℕ) (matrix : ℕ → ℕ → ValueType) (start : ℕ) : List ℕ → ℕ → Prop
  | start : NearestPath n matrix start [start] start
  | step {l : List ℕ} {u v : ℕ} : NearestPath n matrix start l u →
      IsNearest (matrix u) (unvisited n l) v → NearestPath n matrix start (l ++ [v]) v

/-- Wherever the path has come to, an arc leads on to a vertex that is left. -/
def LeadsOn (n : ℕ) (matrix : ℕ → ℕ → ValueType) (start : ℕ) : Prop :=
  ∀ l u, NearestPath n matrix start l u → unvisited n l ≠ [] → ∃ v ∈ unvisited n l, matrix u v < mVal

namespace NearestPath

theorem head (h : NearestPath n matrix start l u) : l.head? = some start := by
  induction h with
  | start => rfl
  | step _ _ ih => rw [List.head?_append, ih]; rfl

theorem last (h : NearestPath n matrix start l u) : l.getLast? = some u := by
  cases h with
  | start => rfl
  | step _ _ => exact List.getLast?_concat

theorem nodup (h : NearestPath n matrix start l u) : l.Nodup := by
  induction h with
  | start => exact List.nodup_singleton _
  | step _ hv ih =>
    refine ih.append (List.nodup_singleton _) fun w hw hwv => ?_
    exact (mem_unvisited.mp hv.mem).2 (List.mem_singleton.mp hwv ▸ hw)

theorem lt (h : NearestPath n matrix start l u) (hs : start < n) : ∀ w ∈ l, w < n := by
  induction h with
  | start => exact fun w hw => List.mem_singleton.mp hw ▸ hs
  | step _ hv ih =>
    intro w hw
    rcases List.mem_append.mp hw with hw | hw
    exacts [ih w hw, List.mem_singleton.mp hw ▸ (mem_unvisited.mp hv.mem).1]

/-- A path that leaves no vertex has been at each once. -/
theorem perm (h : NearestPath n matrix start l u) (hs : start < n) (hall : unvisited n l = []) :
    l.Perm (List.range n) := by
  refine (List.perm_ext_iff_of_nodup h.nodup List.nodup_range).mpr fun w => ?_
  rw [List.mem_range]
  refine ⟨h.lt hs w, fun hw => ?_⟩
  by_contra hl
  exact List.not_mem_nil (hall ▸ mem_unvisited.mpr ⟨hw, hl⟩)

end NearestPath

/-- Where all arcs are there, one leads on. -/
theorem leadsOn_of_arcs (hs : start < n) (hm : ∀ i < n, ∀ j < n, i ≠ j → matrix i j < mVal) :
    LeadsOn n matrix start := by
  intro l u h hne
  obtain ⟨v, hv⟩ := List.exists_mem_of_ne_nil _ hne
  obtain ⟨hlt, hnew⟩ := mem_unvisited.mp hv
  have hu := List.mem_of_getLast? h.last
  exact ⟨v, hv, hm u (h.lt hs u hu) v hlt fun heq => hnew (heq ▸ hu)⟩

/-! ### The greedy construction -/

/-- The invariant of the greedy construction. -/
structure Greedy.Inv (n : ℕ) (matrix : ℕ → ℕ → ValueType) (start : ℕ) (s : Greedy) : Prop where
  path : NearestPath n matrix start s.sol.route s.currVertex
  vertices : s.vertices = unvisited n s.sol.route
  minVertex : ∀ v, s.minVertex = some v → v = s.currVertex
  value : s.sol.value = calcValue matrix s.sol.route

/-- The local variables before the `while` loop. -/
def Greedy.initial (n start : ℕ) : Greedy where
  vertices := (List.range n).erase start
  currVertex := start
  minVertex := none
  sol := { value := 0, route := [start] }

theorem Greedy.Inv.initial : Greedy.Inv n matrix start (Greedy.initial n start) where
  path := .start
  vertices := by
    have h : unvisited n [] = List.range n := List.filter_eq_self.mpr fun _ _ => by simp
    rw [Greedy.initial, ← h, unvisited_erase]
    rfl
  minVertex _ h := nomatch h
  value := rfl

/-- A round where the path leads on. -/
theorem Greedy.Inv.next {s : Greedy} (h : s.Inv n matrix start)
    (hv : IsNearest (matrix s.currVertex) (unvisited n s.sol.route) v) :
    ∃ t, greedyBody matrix s = some (.inl t) ∧ t.Inv n matrix start ∧
      t.sol.route = s.sol.route ++ [v] ∧ t.currVertex = v ∧ t.vertices.length < s.vertices.length := by
  have hmem : v ∈ s.vertices := h.vertices ▸ hv.mem
  have hnear : nearest (matrix s.currVertex) s.vertices s.minVertex =
      (matrix s.currVertex v, some v) := by
    rw [h.vertices]
    rcases nearest_cases (matrix s.currVertex) s.minVertex
        (unvisited_sorted (n := n) (l := s.sol.route)) with ⟨w, hw, hnear⟩ | ⟨hall, _⟩
    · rwa [hw.unique hv] at hnear
    · exact absurd hv.arc (hall v hv.mem).not_gt
  refine ⟨⟨s.vertices.erase v, v, some v, ⟨s.sol.value + matrix s.currVertex v, s.sol.route ++ [v]⟩⟩,
    ?_, ⟨h.path.step hv, ?_, fun w hw => (Option.some.inj hw).symm, ?_⟩, rfl, rfl, ?_⟩
  · simp only [greedyBody, List.ne_nil_of_mem hmem, if_false, hnear]
  · rw [h.vertices, unvisited_erase]
  · simp only [h.value]
    rw [calcValue_concat h.path.last]
  · rw [List.length_erase_of_mem hmem]
    exact Nat.sub_one_lt (mt List.length_eq_zero_iff.mp (List.ne_nil_of_mem hmem))

/-- Every path is followed by the rounds of the loop. -/
theorem NearestPath.followed (h : NearestPath n matrix start l u) :
    ∃ s k, s.Inv n matrix start ∧ s.sol.route = l ∧ s.currVertex = u ∧ ∀ fuel,
      Loop.iterate (greedyBody matrix) (fuel + k) (.initial n start) =
        Loop.iterate (greedyBody matrix) fuel s := by
  induction h with
  | start => exact ⟨_, 0, .initial, rfl, rfl, fun _ => rfl⟩
  | step _ hv ih =>
    obtain ⟨s, k, hs, rfl, rfl, hrun⟩ := ih
    obtain ⟨t, hbody, ht, hroute, hcurr, _⟩ := hs.next hv
    refine ⟨t, k + 1, ht, hroute, hcurr, fun fuel => ?_⟩
    rw [← Nat.add_assoc, Nat.add_right_comm, hrun, Loop.iterate_inl hbody]

/-- Vertices are left, but no arc leads to one of them; the last `min_vertex` is the vertex the path
has come to. -/
structure Greedy.Stuck (matrix : ℕ → ℕ → ValueType) (s : Greedy) : Prop where
  left : s.vertices ≠ []
  sorted : s.vertices.Pairwise (· < ·)
  noArc : ∀ v ∈ s.vertices, mVal ≤ matrix s.currVertex v
  visited : s.currVertex ∉ s.vertices
  minVertex : ∀ v, s.minVertex = some v → v = s.currVertex

/-- Where no arc leads on, `min_vertex` keeps its value and the round takes no vertex away: the loop
does not end. -/
theorem Greedy.Stuck.never_ends {s r : Greedy} (h : s.Stuck matrix) {fuel : ℕ} :
    Loop.iterate (greedyBody matrix) fuel s ≠ some r := by
  have hbody : ∀ s : Greedy, s.Stuck matrix → greedyBody matrix s = s.minVertex.map fun v =>
      .inl ⟨s.vertices.erase v, v, some v, ⟨s.sol.value + mVal, s.sol.route ++ [v]⟩⟩ := fun s h => by
    rcases nearest_cases (matrix s.currVertex) s.minVertex h.sorted with ⟨v, hv, _⟩ | ⟨_, hnear⟩
    · exact absurd hv.arc (h.noArc v hv.mem).not_gt
    · simp only [greedyBody, h.left, if_false, hnear]
      cases s.minVertex <;> rfl
  intro hrun
  refine Loop.iterate_partial (Greedy.Stuck matrix) (fun _ => False) (fun s t hs ht => ?_)
    (fun s r hs hr => ?_) h hrun
  · rw [hbody s hs] at ht
    cases hmin : s.minVertex with
    | none =>
      rw [hmin] at ht
      cases ht
    | some v =>
      rw [hmin] at ht
      obtain rfl := hs.minVertex v hmin
      obtain rfl := Sum.inl.inj (Option.some.inj ht)
      have herase : s.vertices.erase s.currVertex = s.vertices := List.erase_of_not_mem hs.visited
      exact ⟨herase.symm ▸ hs.left, herase.symm ▸ hs.sorted, herase.symm ▸ hs.noArc,
        herase.symm ▸ hs.visited, fun w hw => (Option.some.inj hw).symm⟩
  · rw [hbody s hs] at hr
    cases hmin : s.minVertex with
    | none =>
      rw [hmin] at hr
      cases hr
    | some v =>
      rw [hmin] at hr
      cases Option.some.inj hr

/-- A closed route from the start through all vertices, with its own cost. -/
structure TourFrom (n : ℕ) (matrix : ℕ → ℕ → ValueType) (start : ℕ) (sol : Solution) : Prop where
  closed : ∃ l, (start :: l).Perm (List.range n) ∧ sol.route = start :: (l ++ [start])
  value : sol.value = calcValue matrix sol.route

theorem getGreedySolutionFrom_eq (fuel : ℕ) : getGreedySolutionFrom fuel matrix n start =
    (Loop.iterate (greedyBody matrix) fuel (.initial n start)).map fun s =>
      ⟨s.sol.value + matrix s.currVertex start, s.sol.route ++ [start]⟩ := by
  rw [Option.map_eq_bind]
  rfl

/-- The greedy construction ends where the path leads on to the last vertex. -/
theorem getGreedySolutionFrom_of_leadsOn {fuel : ℕ} (hs : start < n) (hf : n < fuel)
    (h : LeadsOn n matrix start) :
    ∃ sol, getGreedySolutionFrom fuel matrix n start = some sol ∧ TourFrom n matrix start sol := by
  have hlen : (Greedy.initial n start).vertices.length < fuel :=
    ((List.erase_sublist ..).length_le.trans_eq List.length_range).trans_lt hf
  have hloop : ∃ s, Loop.iterate (greedyBody matrix) fuel (.initial n start) = some s ∧
      s.Inv n matrix start ∧ s.vertices = [] := by
    refine Loop.iterate_total (Greedy.Inv n matrix start) (fun s => s.vertices.length)
      (fun s hs => ?_) .initial hlen
    cases hv : s.vertices with
    | nil => exact .inr ⟨s, by simp only [greedyBody, hv, if_true], hs, hv⟩
    | cons v vertices =>
      have hne : unvisited n s.sol.route ≠ [] := hs.vertices ▸ hv ▸ List.cons_ne_nil _ _
      obtain ⟨w, hw, harc⟩ := h _ _ hs.path hne
      rcases nearest_cases (matrix s.currVertex) s.minVertex
          (unvisited_sorted (n := n) (l := s.sol.route)) with ⟨x, hx, _⟩ | ⟨hnone, _⟩
      · obtain ⟨t, ht, hinv, _, _, hlt⟩ := hs.next hx
        exact .inl ⟨t, ht, hinv, hv ▸ hlt⟩
      · exact absurd harc (hnone w hw).not_gt
  obtain ⟨s, hrun, hinv, hall⟩ := hloop
  refine ⟨_, by rw [getGreedySolutionFrom_eq, hrun]; rfl, ?_, ?_⟩
  · obtain ⟨l, hl⟩ := List.head?_eq_some_iff.mp hinv.path.head
    exact ⟨l, hl ▸ hinv.path.perm hs (hinv.vertices ▸ hall), by simp [hl]⟩
  · simp only [hinv.value]
    rw [calcValue_concat hinv.path.last]

/-- The greedy construction does not end anywhere else. -/
theorem leadsOn_of_ends {fuel : ℕ} (h : getGreedySolutionFrom fuel matrix n start = some sol) :
    LeadsOn n matrix start := by
  intro l u hpath hne
  by_contra! hnone
  rw [getGreedySolutionFrom_eq] at h
  obtain ⟨r, hr, _⟩ := Option.map_eq_some_iff.mp h
  obtain ⟨s, k, hinv, rfl, rfl, hrun⟩ := hpath.followed
  have hstuck : s.Stuck matrix := {
    left := hinv.vertices ▸ hne
    sorted := hinv.vertices ▸ unvisited_sorted
    noArc := hinv.vertices ▸ hnone
    visited := fun hmem => (mem_unvisited.mp (hinv.vertices ▸ hmem)).2
      (List.mem_of_getLast? hinv.path.last)
    minVertex := hinv.minVertex }
  exact hstuck.never_ends ((hrun fuel).symm.trans (Loop.iterate_mono hr (Nat.le_add_right fuel k)))

/-- `get_greedy_solution` ends from a start vertex, with a tour, if and only if the nearest-neighbour
path never comes to a vertex from which no arc leads on. -/
theorem getGreedySolutionFrom_iff (hs : start < n) :
    (∃ fuel sol, getGreedySolutionFrom fuel matrix n start = some sol ∧
      TourFrom n matrix start sol) ↔ LeadsOn n matrix start := by
  constructor
  · rintro ⟨fuel, sol, hsol, _⟩
    exact leadsOn_of_ends hsol
  · exact fun h => ⟨n + 1, getGreedySolutionFrom_of_leadsOn hs (Nat.lt_succ_self n) h⟩

theorem getGreedySolutionFrom_iff_square :
    ∃ fuel sol, getGreedySolutionFrom fuel square 4 1 = some sol ∧ TourFrom 4 square 1 sol :=
  (getGreedySolutionFrom_iff (by decide)).mpr (leadsOn_of_arcs (by decide) (by decide +kernel))

/-- No arc but the one from `0` to `1`. -/
def oneArc (i j : ℕ) : ValueType := if i = 0 ∧ j = 1 then 1 else mVal

/-- From `1` no arc leads on to `2`. -/
theorem greedy_never_ends : (∀ i j, oneArc i j ≤ mVal) ∧
    ¬ ∃ fuel sol, getGreedySolutionFrom fuel oneArc 3 0 = some sol ∧ TourFrom 3 oneArc 0 sol := by
  have hone : (1 : ValueType) < mVal := by norm_num [mVal]
  constructor
  · intro i j
    unfold oneArc
    split
    exacts [hone.le, le_rfl]
  · rintro ⟨fuel, sol, hsol, _⟩
    have hnear : IsNearest (oneArc 0) (unvisited 3 [0]) 1 := by
      refine ⟨by decide, hone, fun w hw => ?_⟩
      have hw : w = 1 ∨ w = 2 := List.mem_pair.mp hw
      rcases hw with rfl | rfl
      exacts [.inr ⟨rfl, le_rfl⟩, .inl hone]
    obtain ⟨v, hv, harc⟩ := leadsOn_of_ends hsol _ _ (.step .start hnear) (by decide)
    have hv : v = 2 := List.mem_singleton.mp hv
    rw [hv] at harc
    exact lt_irrefl mVal harc

end Optimer.Tsp
