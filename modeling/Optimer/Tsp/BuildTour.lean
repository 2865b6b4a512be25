import Mathlib.Algebra.Group.Even
import Mathlib.Data.List.GetD
import Optimer.Tsp.Adjacency

/-! `build_tour` finds the Hamiltonian cycles: a route it returns runs once around the edges, and it
returns one for a 1-tree whose vertices all have two edges. -/

namespace Optimer.Stsp
open Optimer.Tsp SpanningTree

variable {edges : List Edge} {n k u v w : ℕ} {adj : ℕ → List ℕ} {s t : List ℕ × List ℕ}

/-! ### Counting neighbours -/

theorem count_neighbors (e : Edge) : (neighbors u e).count v = (neighbors v e).count u := by
  obtain ⟨a, b⟩ := e
  unfold neighbors
  by_cases hau : a = u <;> by_cases hbu : b = u <;> by_cases hav : a = v <;> by_cases hbv : b = v <;>
    grind

theorem count_adjacencyList : (adjacencyList edges u).count v = (adjacencyList edges v).count u := by
  simp only [adjacencyList_eq, List.count_flatMap]
  congr 1
  exact List.map_congr_left fun e _ => count_neighbors e

/-- An edge from a vertex to itself counts twice there. -/
theorem even_count_self (edges : List Edge) (u : ℕ) : Even ((adjacencyList edges u).count u) := by
  rw [adjacencyList_eq, List.count_flatMap]
  induction edges with
  | nil => exact Even.zero
  | cons e edges ih =>
    rw [List.map_cons, List.sum_cons]
    refine Even.add ?_ ih
    obtain ⟨a, b⟩ := e
    show Even ((neighbors u (a, b)).count u)
    unfold neighbors
    by_cases ha : a = u <;> by_cases hb : b = u
    · subst ha; simp [hb]
    all_goals simp [ha, hb]

theorem mem_adjacencyList_comm : v ∈ adjacencyList edges u ↔ u ∈ adjacencyList edges v := by
  rw [mem_adjacencyList, mem_adjacencyList]
  exact ⟨Adj.symm, Adj.symm⟩

/-! ### One step of the walk -/

/-- The two entries of a list, in one order or the other. -/
def IsPair (l : List ℕ) (a b : ℕ) : Prop := l = [a, b] ∨ l = [b, a]

theorem IsPair.mem_iff {l : List ℕ} {a b : ℕ} (h : IsPair l a b) : v ∈ l ↔ v = a ∨ v = b := by
  rcases h with rfl | rfl
  · simp
  · simp [or_comm]

theorem IsPair.count_self {l : List ℕ} {a : ℕ} (h : IsPair l a a) : l.count a = 2 := by
  rcases h with rfl | rfl <;> simp

theorem IsPair.count_of_ne {l : List ℕ} {a b : ℕ} (h : IsPair l a b) (hab : b ≠ a) :
    l.count a = 1 := by
  rcases h with rfl | rfl <;> simp [hab]

theorem exists_isPair {l : List ℕ} {a : ℕ} (h : l.length = 2) (ha : a ∈ l) : ∃ b, IsPair l a b := by
  obtain ⟨x, y, rfl⟩ := List.length_eq_two.mp h
  rcases List.mem_pair.mp ha with rfl | rfl
  exacts [⟨y, .inl rfl⟩, ⟨x, .inr rfl⟩]

theorem isPair_of_mem {l : List ℕ} {a b : ℕ} (h : l.length = 2) (ha : a ∈ l) (hb : b ∈ l)
    (hab : a ≠ b) : IsPair l a b := by
  obtain ⟨c, hc⟩ := exists_isPair h ha
  rwa [(hc.mem_iff.mp hb).resolve_left hab.symm]

theorem IsPair.ne {l : List ℕ} {a b : ℕ} (h : IsPair l a b) (hl : l.Nodup) : b ≠ a := by
  rcases h with rfl | rfl
  · simpa [eq_comm] using hl
  · simpa using hl

theorem getLastD_eq {l : List ℕ} (h : l.length = k + 1) : l.getLastD 0 = l.getD k 0 := by
  rw [List.getLastD_eq_getLast?, List.getLast?_eq_getElem?, h, Nat.add_sub_cancel,
    List.getD_eq_getElem?_getD]

/-- The walk goes on to the other neighbour. -/
theorem buildTourStep_pair (hlen : s.1.length = k + 2)
    (h : IsPair (adj (s.1.getD (k + 1) 0)) (s.1.getD k 0) w) (j : ℕ) :
    buildTourStep adj s j = if w ∈ s.2 then none else some (s.1 ++ [w], s.2 ++ [w]) := by
  obtain ⟨tour, added⟩ := s
  simp only [buildTourStep, getLastD_eq hlen, hlen, Nat.add_sub_cancel]
  dsimp only at h
  generalize adj (tour.getD (k + 1) 0) = l at *
  generalize tour.getD k 0 = v at *
  rcases h with rfl | rfl
  · simp
  · by_cases hw : w = v <;> simp [hw]

theorem buildTourStep_none (hlen : s.1.length = k + 2)
    (h : (adj (s.1.getD (k + 1) 0)).length = 2) (hp : s.1.getD k 0 ∉ adj (s.1.getD (k + 1) 0)) (j : ℕ) :
    buildTourStep adj s j = none := by
  obtain ⟨tour, added⟩ := s
  simp only [buildTourStep, getLastD_eq hlen, hlen, Nat.add_sub_cancel]
  dsimp only at h hp
  generalize adj (tour.getD (k + 1) 0) = l at *
  generalize tour.getD k 0 = v at *
  obtain ⟨x, y, rfl⟩ := List.length_eq_two.mp h
  obtain ⟨hx, hy⟩ : x ≠ v ∧ y ≠ v := by simpa [eq_comm] using hp
  simp [hx, hy]

/-! ### The walk -/

/-- The walk after `k` vertices: it comes from vertex `0`, has been at no other vertex twice, and went
through each vertex from one neighbour to the other. -/
structure Walk (adj : ℕ → List ℕ) (k : ℕ) (s : List ℕ × List ℕ) : Prop where
  length : s.1.length = k + 1
  added : s.1 = 0 :: s.2
  nodup : s.2.Nodup
  first : s.1.getD 1 0 = (adj 0).headD 0
  through : ∀ j, j + 1 < k → IsPair (adj (s.1.getD (j + 1) 0)) (s.1.getD j 0) (s.1.getD (j + 2) 0)

theorem getD_append_of_lt {l : List ℕ} {j : ℕ} (h : j < l.length) :
    (l ++ [w]).getD j 0 = l.getD j 0 :=
  List.getD_append _ _ _ _ h

theorem getD_append_self {l : List ℕ} (h : l.length = k) : (l ++ [w]).getD k 0 = w := by
  rw [List.getD_append_right _ _ _ _ h.le, h, Nat.sub_self, List.getD_cons_zero]

theorem Walk.start : Walk adj 1 ([0, (adj 0).headD 0], [(adj 0).headD 0]) where
  length := rfl
  added := rfl
  nodup := List.nodup_singleton _
  first := rfl
  through _ h := absurd h (by omega)

theorem Walk.append (W : Walk adj (k + 1) s) (hp : IsPair (adj (s.1.getD (k + 1) 0)) (s.1.getD k 0) w)
    (hw : w ∉ s.2) : Walk adj (k + 2) (s.1 ++ [w], s.2 ++ [w]) where
  length := by simp [W.length]
  added := by simp [W.added]
  nodup := W.nodup.append (List.nodup_singleton w) (by simpa using hw)
  first := (getD_append_of_lt (by rw [W.length]; omega)).trans W.first
  through j hj := by
    have hlen := W.length
    dsimp only
    rw [getD_append_of_lt (by omega), getD_append_of_lt (by omega)]
    rcases Nat.lt_or_ge (j + 1) (k + 1) with hlt | hge
    · rw [getD_append_of_lt (by omega)]
      exact W.through j hlt
    · obtain rfl : j = k := by omega
      rwa [getD_append_self hlen]

/-- A step that does not give up goes to the other neighbour, which is new. -/
theorem Walk.step (W : Walk adj (k + 1) s) (hdeg : (adj (s.1.getD (k + 1) 0)).length = 2) {j : ℕ}
    (h : buildTourStep adj s j = some t) :
    Walk adj (k + 2) t ∧ ∀ v ∈ t.2, v ∈ s.2 ∨ v ∈ adj (s.1.getD (k + 1) 0) := by
  by_cases hp : s.1.getD k 0 ∈ adj (s.1.getD (k + 1) 0)
  · obtain ⟨w, hpair⟩ := exists_isPair hdeg hp
    rw [buildTourStep_pair W.length hpair] at h
    split at h
    · exact nomatch h
    · next hw =>
      cases h
      refine ⟨W.append hpair hw, fun v hv => (List.mem_append.mp hv).imp_right fun hv => ?_⟩
      exact hpair.mem_iff.mpr (.inr (List.mem_singleton.mp hv))
  · rw [buildTourStep_none W.length hdeg hp] at h
    exact nomatch h

theorem Walk.mem_added (W : Walk adj k s) {j : ℕ} (hj : j < k) : s.1.getD (j + 1) 0 ∈ s.2 := by
  have hlen := W.length
  rw [W.added] at hlen ⊢
  rw [List.length_cons] at hlen
  rw [List.getD_cons_succ, List.getD_eq_getElem _ _ (by omega)]
  exact List.getElem_mem _

/-- No vertex comes twice after the first one. -/
theorem Walk.inj (W : Walk adj k s) {i j : ℕ} (hi : i < k) (hj : j < k)
    (h : s.1.getD (i + 1) 0 = s.1.getD (j + 1) 0) : i = j := by
  have hlen := W.length
  rw [W.added] at hlen h
  rw [List.length_cons] at hlen
  rw [List.getD_cons_succ, List.getD_cons_succ, List.getD_eq_getElem _ _ (by omega),
    List.getD_eq_getElem _ _ (by omega)] at h
  exact (List.Nodup.getElem_inj_iff W.nodup).mp h

theorem Walk.exists_of_mem (W : Walk adj k s) (hv : v ∈ s.2) : ∃ j < k, s.1.getD (j + 1) 0 = v := by
  have hlen := W.length
  rw [W.added] at hlen ⊢
  rw [List.length_cons] at hlen
  obtain ⟨j, hj, rfl⟩ := List.getElem_of_mem hv
  exact ⟨j, by omega, by rw [List.getD_cons_succ, List.getD_eq_getElem _ _ hj]⟩

theorem Walk.getD_zero (W : Walk adj k s) : s.1.getD 0 0 = 0 := by
  rw [W.added, List.getD_cons_zero]

/-- A walk around all vertices ends where it began. -/
theorem Walk.closes (W : Walk (adjacencyList edges) n s) (hn : 3 ≤ n) (hlt : ∀ v ∈ s.2, v < n)
    (hdeg : ∀ v < n, (adjacencyList edges v).length = 2) : s.1.getD n 0 = 0 := by
  have hlen := W.length
  rw [W.added, List.length_cons] at hlen
  have hall : s.2.Perm (List.range n) :=
    (List.Nodup.subperm W.nodup fun v hv => List.mem_range.mpr (hlt v hv)).perm_of_length_le
      (by rw [List.length_range]; omega)
  obtain ⟨j, hj, hzero⟩ := W.exists_of_mem (hall.mem_iff.mpr (List.mem_range.mpr (by omega : 0 < n)))
  rcases Nat.lt_or_ge (j + 1) n with hjn | hjn
  swap
  · exact (show j + 1 = n by omega) ▸ hzero
  -- Back at `0` too early, the walk would have to go on along its first edge again.
  exfalso
  have hpair := W.through j hjn
  rw [hzero] at hpair
  have hne : adjacencyList edges 0 ≠ [] := by
    intro hnil
    have := hdeg 0 (by omega)
    simp [hnil] at this
  have hfirst : s.1.getD 1 0 ∈ adjacencyList edges 0 := by
    rw [W.first]
    obtain ⟨x, l, hxl⟩ := List.exists_cons_of_ne_nil hne
    rw [hxl]
    exact List.mem_cons_self
  rcases hpair.mem_iff.mp hfirst with h | h
  · rcases j with _ | j
    · -- An edge from `0` to itself.
      have hnext : s.1.getD 2 0 ≠ 0 := fun h2 => by
        have := W.inj (i := 1) (j := 0) (by omega) (by omega) (h2.trans hzero.symm)
        omega
      have hcount : (adjacencyList edges 0).count 0 = 1 := by
        rw [W.getD_zero] at hpair
        exact hpair.count_of_ne hnext
      have heven := even_count_self edges 0
      rw [hcount] at heven
      exact absurd heven (by decide)
    · -- The first edge twice.
      have hj0 : j = 0 := (W.inj (i := 0) (j := j) (by omega) (by omega) h).symm
      subst hj0
      have hback := W.through 0 (by omega)
      rw [W.getD_zero, hzero] at hback
      have hcount : (adjacencyList edges 0).count (s.1.getD 1 0) = 2 := by
        rw [count_adjacencyList]
        exact hback.count_self
      have hdiff : s.1.getD 3 0 ≠ s.1.getD 1 0 := fun h3 => by
        have := W.inj (i := 2) (j := 0) (by omega) (by omega) h3
        omega
      have hone : (adjacencyList edges 0).count (s.1.getD 1 0) = 1 := by
        exact hpair.count_of_ne hdiff
      omega
  · have := W.inj (i := 0) (j := j + 1) (by omega) (by omega) h
    omega

/-- A cycle through all vertices is a tour. -/
theorem exists_tour {c : ℕ → ℕ} (hlt : ∀ k < n, c k < n) (hinj : ∀ i < n, ∀ j < n, c i = c j → i = j)
    (hzero : c 0 = 0) (hback : c n = 0) :
    ∃ p, IsTour n p ∧ ∀ k < n, p (c k) = c (k + 1) := by
  have hnodup : ((List.range n).map c).Nodup :=
    List.Nodup.map_on (fun i hi j hj => hinj i (List.mem_range.mp hi) j (List.mem_range.mp hj))
      List.nodup_range
  have hperm : ((List.range n).map c).Perm (List.range n) := by
    refine (List.Nodup.subperm hnodup fun v hv => ?_).perm_of_length_le (by simp)
    obtain ⟨k, hk, rfl⟩ := List.mem_map.mp hv
    exact List.mem_range.mpr (hlt k (List.mem_range.mp hk))
  refine ⟨_, isTour_formPerm hperm, fun k hk => ?_⟩
  have hnext := List.formPerm_apply_getElem _ hnodup k (by simpa using hk)
  simp only [List.length_map, List.length_range, List.getElem_map, List.getElem_range] at hnext
  rw [hnext]
  rcases Nat.lt_or_ge (k + 1) n with hk' | hk'
  · rw [Nat.mod_eq_of_lt hk']
  · rw [show k + 1 = n by omega, Nat.mod_self, hzero, hback]

/-! ### The routes that `build_tour` returns -/

/-- The edges lie between the vertices below `n`. -/
def Within (n : ℕ) (edges : List Edge) : Prop := ∀ e ∈ edges, e.1 < n ∧ e.2 < n

theorem Within.lt (h : Within n edges) (hv : v ∈ adjacencyList edges u) : v < n :=
  (mem_adjacencyList.mp hv).elim (fun h' => (h _ h').2) fun h' => (h _ h').1

/-- The three ways in which `build_tour` leaves. -/
theorem buildTour_eq (hn : 0 < edges.length) (hin : Within edges.length edges) :
    buildTour edges =
      if ∀ v < edges.length, degrees edges v = 2 then
        match (List.range' 1 (edges.length - 1)).foldlM (buildTourStep (adjacencyList edges))
          ([0, (adjacencyList edges 0).headD 0], [(adjacencyList edges 0).headD 0]) with
        | none => some []
        | some (tour, _) => some tour
      else some [] := by
  have hrange : ¬ (edges.length = 0 ∨
      edges.any (fun e => edges.length ≤ e.1 || edges.length ≤ e.2) = true) := by
    simp only [List.any_eq_true, Bool.or_eq_true, decide_eq_true_eq, not_or, not_exists, not_and, not_le]
    exact ⟨hn.ne', fun e he => hin e he⟩
  have hany : ((List.range edges.length).any fun i => (adjacencyList edges i).length != 2) = true ↔
      ¬ ∀ v < edges.length, degrees edges v = 2 := by
    simp only [List.any_eq_true, List.mem_range, bne_iff_ne, length_adjacencyList, not_forall,
      exists_prop]
  rw [buildTour, if_neg hrange]
  by_cases hdeg : ∀ v < edges.length, degrees edges v = 2
  · exact (if_neg (hany.not.mpr (not_not.mpr hdeg))).trans (if_pos hdeg).symm
  · rw [if_neg hdeg, if_pos (hany.mpr hdeg)]

/-- `build_tour` reads outside its vectors only if an edge is out of range. -/
theorem exists_buildTour (hn : 0 < edges.length) (hin : Within edges.length edges) :
    ∃ route, buildTour edges = some route := by
  rw [buildTour_eq hn hin]
  split
  · split
    exacts [⟨_, rfl⟩, ⟨_, rfl⟩]
  · exact ⟨_, rfl⟩

theorem within_of_buildTour {route : List ℕ} (h : buildTour edges = some route) :
    Within edges.length edges := by
  unfold buildTour at h
  dsimp only at h
  split at h
  · exact nomatch h
  · next hrange =>
    intro e he
    simp only [List.any_eq_true, Bool.or_eq_true, decide_eq_true_eq, not_or, not_exists, not_and,
      not_le] at hrange
    exact hrange.2 e he

theorem headD_mem {l : List ℕ} (h : l.length = 2) : l.headD 0 ∈ l := by
  obtain ⟨x, y, rfl⟩ := List.length_eq_two.mp h
  exact List.mem_cons_self

/-- The walk after `m` rounds, if it has not given up. -/
def walkAfter (edges : List Edge) (m : ℕ) : Option (List ℕ × List ℕ) :=
  (List.range' 1 m).foldlM (buildTourStep (adjacencyList edges))
    ([0, (adjacencyList edges 0).headD 0], [(adjacencyList edges 0).headD 0])

/-- Where every vertex has two edges, the walk keeps to the vertices there are. -/
theorem walkAfter_spec {m : ℕ} (hn : 0 < edges.length) (hin : Within edges.length edges)
    (hlen : ∀ v < edges.length, (adjacencyList edges v).length = 2) (h : walkAfter edges m = some s) :
    Walk (adjacencyList edges) (1 + m) s ∧ ∀ v ∈ s.2, v < edges.length := by
  refine Loop.foldlM_range'_partial
    (fun k s => Walk (adjacencyList edges) k s ∧ ∀ v ∈ s.2, v < edges.length)
    (fun k s t hk hlt ⟨W, hs⟩ hst => ?_)
    ⟨.start, fun v hv => List.mem_singleton.mp hv ▸ hin.lt (headD_mem (hlen 0 hn))⟩ h
  obtain ⟨j, rfl⟩ : ∃ j, k = j + 1 := ⟨k - 1, by omega⟩
  have hcur := hs _ (W.mem_added (Nat.lt_succ_self j))
  obtain ⟨W', hnew⟩ := W.step (hlen _ hcur) hst
  exact ⟨W', fun v hv => (hnew v hv).elim (hs v) hin.lt⟩

/-- A route of `build_tour` runs once around exactly the given edges. -/
theorem buildTour_sound {route : List ℕ} (hn : 3 ≤ n) (hlength : edges.length = n)
    (h : buildTour edges = some route) (hne : route ≠ []) :
    ∃ p, IsTour n p ∧ route = (List.range (n + 1)).map (fun k => p^[k] 0) ∧
      (edges.map fun e => s(e.1, e.2)).Perm ((List.range n).map fun i => s(i, p i)) := by
  subst hlength
  have hin := within_of_buildTour h
  rw [buildTour_eq (by omega) hin] at h
  split at h
  swap
  · exact absurd (Option.some.inj h).symm hne
  next hdeg =>
  have hlen : ∀ v < edges.length, (adjacencyList edges v).length = 2 := fun v hv =>
    length_adjacencyList.trans (hdeg v hv)
  split at h
  · exact absurd (Option.some.inj h).symm hne
  next tour added hfold =>
  obtain rfl := Option.some.inj h
  obtain ⟨W, hs⟩ := walkAfter_spec (by omega) hin hlen hfold
  rw [Nat.add_sub_cancel' (by omega)] at W
  have hback := W.closes hn hs hlen
  have hlt : ∀ k < edges.length, tour.getD k 0 < edges.length := by
    rintro (_ | k) hk
    · exact W.getD_zero.trans_lt (by omega)
    · exact hs _ (W.mem_added (by omega))
  have hinj : ∀ i < edges.length, ∀ j < edges.length, tour.getD i 0 = tour.getD j 0 → i = j := by
    have hpos : ∀ j, j + 1 < edges.length → tour.getD (j + 1) 0 ≠ 0 := fun j hj hzero => by
      have := W.inj (i := j) (j := edges.length - 1) (by omega) (by omega)
        (hzero.trans (by rw [Nat.sub_add_cancel (by omega)]; exact hback.symm))
      omega
    rintro (_ | i) hi (_ | j) hj heq
    · rfl
    · exact absurd (heq.symm.trans W.getD_zero) (hpos j hj)
    · exact absurd (heq.trans W.getD_zero) (hpos i hi)
    · exact congrArg (· + 1) (W.inj (by omega) (by omega) heq)
  obtain ⟨p, hp, hnext⟩ := exists_tour hlt hinj W.getD_zero hback
  have hiter : ∀ k ≤ edges.length, p^[k] 0 = tour.getD k 0 := by
    intro k
    induction k with
    | zero => exact fun _ => W.getD_zero.symm
    | succ k ih =>
      intro hk
      rw [Function.iterate_succ_apply', ih (by omega), hnext k (by omega)]
  refine ⟨p, hp, List.ext_getElem (by simp [W.length]) fun k hk hk' => ?_, ?_⟩
  · rw [List.getElem_map, List.getElem_range, hiter k (Nat.lt_succ_iff.mp (by simpa using hk')),
      List.getD_eq_getElem _ _ hk]
  · refine (List.Nodup.subperm (hp.edges_nodup hn) fun z hz => ?_).perm_of_length_le (by simp) |>.symm
    obtain ⟨i, hi, rfl⟩ := List.mem_map.mp hz
    obtain ⟨k, hk, rfl⟩ := hp.exists_iterate (List.mem_range.mp hi)
    have hadj : Adj edges (tour.getD k 0) (tour.getD (k + 1) 0) := by
      rcases k with _ | k
      · refine (mem_adjacencyList.mp ?_).symm
        exact (W.through 0 (by omega)).mem_iff.mpr (.inl rfl)
      · exact mem_adjacencyList.mp ((W.through k hk).mem_iff.mpr (.inr rfl))
    rw [← Function.iterate_succ_apply' p, hiter k hk.le, hiter (k + 1) hk]
    rcases hadj with he | he
    exacts [List.mem_map.mpr ⟨_, he, rfl⟩, List.mem_map.mpr ⟨_, he, Sym2.eq_swap⟩]

/-! ### 1-trees of degree two -/

/-- A 1-tree joins all vertices. -/
theorem joined_of_oneTree (h : IsOneTree n edges) (hv : v < n) : Joined edges 0 v := by
  obtain ⟨tree, a, b, hperm, htree, _, ha, _⟩ := h
  have hfirst : Joined edges 0 a := .single (.inl (hperm.mem_iff.mpr (by simp)))
  rcases Nat.eq_zero_or_pos v with rfl | hpos
  · exact .refl
  · refine hfirst.trans ((htree.joined a ha v (Finset.mem_Ico.mpr ⟨hpos, hv⟩)).mono fun e he => ?_)
    exact hperm.mem_iff.mpr (List.mem_append_left _ he)

theorem within_of_oneTree (h : IsOneTree n edges) : Within n edges := by
  obtain ⟨tree, a, b, hperm, htree, _, ha, hb⟩ := h
  rw [Finset.mem_Ico] at ha hb
  intro e he
  rcases List.mem_append.mp (hperm.mem_iff.mp he) with he | he
  · obtain ⟨h1, h2⟩ := htree.mem e he
    exact ⟨(Finset.mem_Ico.mp h1).2, (Finset.mem_Ico.mp h2).2⟩
  · rcases List.mem_pair.mp he with rfl | rfl
    exacts [⟨by omega, ha.2⟩, ⟨by omega, hb.2⟩]

/-- Vertices that lead nowhere else are all there are. -/
theorem mem_of_closed {l : List ℕ} (hjoin : Joined edges u v) (hu : u ∈ l)
    (hclosed : ∀ u ∈ l, ∀ w ∈ adjacencyList edges u, w ∈ l) : v ∈ l := by
  induction hjoin with
  | refl => exact hu
  | tail _ hadj ih => exact hclosed _ ih _ (mem_adjacencyList.mpr hadj)

/-- Where every vertex has two different neighbours and all are joined, the walk always goes on. -/
theorem Walk.extend {m : ℕ} (W : Walk (adjacencyList edges) (k + 1) s) (hk : k + 1 < m) (hs : s.1.Nodup)
    (hlen : ∀ v ∈ s.1, (adjacencyList edges v).length = 2)
    (hnodup : ∀ v ∈ s.1, (adjacencyList edges v).Nodup) (hself : ∀ v, v ∉ adjacencyList edges v)
    (hjoin : ∀ v < m, Joined edges 0 v) (j : ℕ) :
    ∃ w ∈ adjacencyList edges (s.1.getD (k + 1) 0),
      buildTourStep (adjacencyList edges) s j = some (s.1 ++ [w], s.2 ++ [w]) ∧
      Walk (adjacencyList edges) (k + 2) (s.1 ++ [w], s.2 ++ [w]) ∧
      (k + 2 < m → (s.1 ++ [w]).Nodup) := by
  have hlength := W.length
  have hmem : ∀ i < k + 2, s.1.getD i 0 ∈ s.1 := fun i hi => by
    rw [List.getD_eq_getElem _ _ (by omega)]
    exact List.getElem_mem _
  have hinj : ∀ i < k + 2, ∀ j < k + 2, s.1.getD i 0 = s.1.getD j 0 → i = j := fun i hi j hj heq => by
    rw [List.getD_eq_getElem _ _ (by omega), List.getD_eq_getElem _ _ (by omega)] at heq
    exact (List.Nodup.getElem_inj_iff hs).mp heq
  have hfirst : s.1.getD 1 0 ∈ adjacencyList edges 0 := by
    rw [W.first]
    exact headD_mem (hlen 0 (W.added ▸ List.mem_cons_self))
  have hprev : s.1.getD k 0 ∈ adjacencyList edges (s.1.getD (k + 1) 0) := by
    refine mem_adjacencyList_comm.mpr ?_
    rcases k with _ | k
    · rwa [W.getD_zero]
    · exact (W.through k (by omega)).mem_iff.mpr (.inr rfl)
  obtain ⟨w, hpair⟩ := exists_isPair (hlen _ (hmem _ (by omega))) hprev
  have hwprev : w ≠ s.1.getD k 0 := hpair.ne (hnodup _ (hmem _ (by omega)))
  have hw : w ∈ adjacencyList edges (s.1.getD (k + 1) 0) := hpair.mem_iff.mpr (.inr rfl)
  have hcur : s.1.getD (k + 1) 0 ∈ adjacencyList edges w := mem_adjacencyList_comm.mpr hw
  have hnew : w ∉ s.2 := fun hws => by
    obtain ⟨i, hi, rfl⟩ := W.exists_of_mem hws
    rcases Nat.lt_trichotomy (i + 1) k with hik | rfl | hik
    · rcases (W.through i (by omega)).mem_iff.mp hcur with h | h
      · have := hinj _ (by omega) _ (by omega) h
        omega
      · have := hinj _ (by omega) _ (by omega) h
        omega
    · exact hwprev rfl
    · obtain rfl : i = k := by omega
      exact hself _ hw
  refine ⟨w, hw, ?_, W.append hpair hnew, fun hkm => ?_⟩
  · rw [buildTourStep_pair W.length hpair, if_neg hnew]
  refine hs.append (List.nodup_singleton w) fun x hx hxw => ?_
  obtain rfl := List.mem_singleton.mp hxw
  rw [W.added] at hx
  obtain rfl := (List.mem_cons.mp hx).resolve_right hnew
  -- Back at `0`, the walk has been everywhere.
  have hclosed : ∀ u ∈ s.1, ∀ v ∈ adjacencyList edges u, v ∈ s.1 := by
    intro u hu v hv
    obtain ⟨i, hi, rfl⟩ := List.getElem_of_mem hu
    rw [← List.getD_eq_getElem _ 0] at hv
    rcases i with _ | i
    · rw [W.getD_zero] at hv
      have hdiff : s.1.getD 1 0 ≠ s.1.getD (k + 1) 0 := fun h => by
        have := hinj _ (by omega) _ (by omega) h
        obtain rfl : k = 0 := by omega
        exact hwprev W.getD_zero.symm
      have h0 := isPair_of_mem (hlen 0 (W.added ▸ List.mem_cons_self)) hfirst hcur hdiff
      rcases h0.mem_iff.mp hv with rfl | rfl
      exacts [hmem _ (by omega), hmem _ (by omega)]
    · rcases Nat.lt_or_ge i k with hik | hik
      · rcases (W.through i (by omega)).mem_iff.mp hv with rfl | rfl
        exacts [hmem _ (by omega), hmem _ (by omega)]
      · obtain rfl : i = k := by omega
        rcases hpair.mem_iff.mp hv with rfl | rfl
        exacts [hmem _ (by omega), W.added ▸ List.mem_cons_self]
  have hall : List.range m ⊆ s.1 := fun v hv =>
    mem_of_closed (hjoin v (List.mem_range.mp hv)) (W.added ▸ List.mem_cons_self) hclosed
  have := (List.Nodup.subperm List.nodup_range hall).length_le
  rw [List.length_range, hlength] at this
  omega

/-- The edges of a tour cost what the tour costs, in whatever direction they are listed. -/
theorem cost_of_perm {p : ℕ → ℕ} {matrix : ℕ → ℕ → ValueType} (hsymm : SymmetricOn n matrix)
    (hin : Within n edges) (hp : IsTour n p)
    (h : (edges.map fun e => s(e.1, e.2)).Perm ((List.range n).map fun i => s(i, p i))) :
    SpanningTree.cost matrix edges = Tsp.cost n matrix p := by
  let w : Sym2 ℕ → ValueType :=
    Sym2.lift ⟨fun i j => matrix (min i j) (max i j), fun i j =>
      congrArg₂ matrix (min_comm i j) (max_comm i j)⟩
  have hw : ∀ i < n, ∀ j < n, w s(i, j) = matrix i j := by
    intro i hi j hj
    show matrix (min i j) (max i j) = matrix i j
    rcases le_total i j with hij | hij
    · rw [min_eq_left hij, max_eq_right hij]
    · rw [min_eq_right hij, max_eq_left hij, hsymm j hj i hi]
  have hsum := (h.map w).sum_eq
  rw [List.map_map, List.map_map] at hsum
  calc SpanningTree.cost matrix edges = (edges.map (w ∘ fun e => s(e.1, e.2))).sum :=
        congrArg List.sum (List.map_congr_left fun e he => (hw _ (hin e he).1 _ (hin e he).2).symm)
    _ = ((List.range n).map (w ∘ fun i => s(i, p i))).sum := hsum
    _ = ((List.range n).map fun i => matrix i (p i)).sum :=
        congrArg List.sum (List.map_congr_left fun i hi =>
          hw _ (List.mem_range.mp hi) _ (hp.perm.lt (List.mem_range.mp hi)))

/-- A route that `build_tour` returns comes from a tour with the cost of the edges. -/
theorem buildTour_cost {route : List ℕ} (hn : 3 ≤ n) (hlen : edges.length = n)
    (h : buildTour edges = some route) (hne : route ≠ []) :
    ∃ p, IsTour n p ∧ ∀ matrix : ℕ → ℕ → ValueType, SymmetricOn n matrix →
      SpanningTree.cost matrix edges = Tsp.cost n matrix p := by
  obtain ⟨p, hp, _, hperm⟩ := buildTour_sound hn hlen h hne
  have hin : Within n edges := hlen ▸ within_of_buildTour h
  exact ⟨p, hp, fun matrix hsymm => cost_of_perm hsymm hin hp hperm⟩

/-- `build_tour` finds the cycle where every vertex has two edges and all vertices are joined. -/
theorem buildTour_complete (hn : 3 ≤ edges.length) (hin : Within edges.length edges)
    (hdist : Distinct edges) (hjoin : ∀ v < edges.length, Joined edges 0 v)
    (hdeg : ∀ v < edges.length, degrees edges v = 2) :
    ∃ route, buildTour edges = some route ∧ route ≠ [] := by
  have hlen : ∀ v < edges.length, (adjacencyList edges v).length = 2 := fun v hv =>
    length_adjacencyList.trans (hdeg v hv)
  -- An edge from a vertex to itself would leave it alone.
  have hself : ∀ u, u ∉ adjacencyList edges u := by
    intro u hu
    have hult := hin.lt hu
    have hcount : (adjacencyList edges u).count u = (adjacencyList edges u).length := by
      have hpos := List.count_pos_iff.mpr hu
      have hle := List.count_le_length (a := u) (l := adjacencyList edges u)
      obtain ⟨c, hc⟩ := even_count_self edges u
      have := hlen u hult
      omega
    have hall := List.count_eq_length.mp hcount
    obtain ⟨v, hv, hvu⟩ : ∃ v < edges.length, v ≠ u := by
      rcases u with _ | u
      exacts [⟨1, by omega, by omega⟩, ⟨0, by omega, by omega⟩]
    refine hvu (List.mem_singleton.mp (mem_of_closed ((hjoin u hult).symm.trans (hjoin v hv))
      (List.mem_singleton_self u) fun a ha w hw => ?_))
    obtain rfl := List.mem_singleton.mp ha
    exact List.mem_singleton.mpr (hall w hw).symm
  have hnodup : ∀ v, (adjacencyList edges v).Nodup := fun v =>
    nodup_adjacencyList hdist fun he => hself v (mem_adjacencyList.mpr (.inl he))
  rw [buildTour_eq (by omega) hin, if_pos hdeg]
  have hhead := headD_mem (hlen 0 (by omega))
  have hloop := Loop.foldlM_range'_total (a := 1) (m := edges.length - 1)
    (f := buildTourStep (adjacencyList edges))
    (s := ([0, (adjacencyList edges 0).headD 0], [(adjacencyList edges 0).headD 0]))
    (fun k s => Walk (adjacencyList edges) k s ∧ (k < edges.length → s.1.Nodup) ∧
      ∀ v ∈ s.1, v < edges.length) (fun k s hk hlt ⟨W, hs, hsin⟩ => ?_)
    ⟨.start, fun _ => ?_, fun v hv => ?_⟩
  · obtain ⟨t, ht, W, _⟩ := hloop
    refine ⟨t.1, by rw [ht], fun hnil => ?_⟩
    have := W.length
    rw [hnil] at this
    simp at this
  · obtain ⟨j, rfl⟩ : ∃ j, k = j + 1 := ⟨k - 1, by omega⟩
    obtain ⟨w, hw, hstep, W', hs'⟩ := W.extend (by omega) (hs (by omega)) (fun v hv => hlen v (hsin v hv))
      (fun v _ => hnodup v) hself hjoin (j + 1)
    refine ⟨_, hstep, W', hs', fun v hv => (List.mem_append.mp hv).elim (hsin v) fun hv => ?_⟩
    exact List.mem_singleton.mp hv ▸ hin.lt hw
  · refine List.nodup_cons.mpr ⟨fun h0 => hself 0 ?_, List.nodup_singleton _⟩
    rwa [← List.mem_singleton.mp h0] at hhead
  · rcases List.mem_pair.mp hv with rfl | rfl
    exacts [by omega, hin.lt hhead]

end Optimer.Stsp
