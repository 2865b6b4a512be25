import Mathlib.Dynamics.PeriodicPts.Defs
import Optimer.Tsp.Asymmetric

/-! The cycles of an assignment: `has_solution`, `create_tour` and `mincard_subtour` on a permutation. -/

namespace Optimer.Tsp
open Finset

variable {n v : ℕ} {p : ℕ → ℕ}

/-! ### The cycle through a vertex -/

theorem IsPerm.iterate_lt (h : IsPerm n p) (hv : v < n) (k : ℕ) : p^[k] v < n := by
  induction k with
  | zero => exact hv
  | succ k ih =>
    rw [Function.iterate_succ_apply']
    exact h.lt ih

/-- A vertex comes back after at most `n` steps. -/
theorem IsPerm.exists_period (h : IsPerm n p) (hv : v < n) :
    ∃ k, 0 < k ∧ k ≤ n ∧ Function.IsPeriodicPt p k v := by
  have hmaps : ∀ k ∈ range (n + 1), p^[k] v ∈ range n := fun k _ => mem_range.mpr (h.iterate_lt hv k)
  have hcard : (range n).card < (range (n + 1)).card := by simp
  obtain ⟨a, ha, b, hb, hne, heq⟩ := exists_ne_map_eq_of_card_lt_of_maps_to hcard hmaps
  have hback : ∀ a b, a < b → b ≤ n → p^[a] v = p^[b] v →
      ∃ k, 0 < k ∧ k ≤ n ∧ Function.IsPeriodicPt p k v := by
    intro a
    induction a with
    | zero => exact fun b hb hbn heq => ⟨b, hb, hbn, heq.symm⟩
    | succ a ih =>
      intro b hab hbn heq
      obtain ⟨c, rfl⟩ := Nat.exists_eq_add_of_le' (Nat.succ_le_of_lt (Nat.zero_lt_of_lt hab))
      rw [Function.iterate_succ_apply', Function.iterate_succ_apply'] at heq
      have heq := h.inj (h.iterate_lt hv a) (h.iterate_lt hv c) heq
      exact ih c (by omega) (by omega) heq
  rcases Nat.lt_or_gt_of_ne hne with hlt | hlt
  · exact hback a b hlt (Nat.le_of_lt_succ (mem_range.mp hb)) heq
  · exact hback b a hlt (Nat.le_of_lt_succ (mem_range.mp ha)) heq.symm

/-- The vertices of the cycle through `v`, from `v` on. -/
noncomputable def orbit (p : ℕ → ℕ) (v : ℕ) : List ℕ :=
  (List.range (Function.minimalPeriod p v)).map fun k => p^[k] v

/-- The vertices of a walk once around a cycle. -/
theorem orbit_concat (p : ℕ → ℕ) (v : ℕ) :
    orbit p v ++ [v] = (List.range (Function.minimalPeriod p v + 1)).map fun i => p^[i] v := by
  rw [List.range_succ, List.map_append, List.map_cons, List.map_nil, Function.iterate_minimalPeriod, orbit]

theorem IsPerm.period_pos (h : IsPerm n p) (hv : v < n) : 0 < Function.minimalPeriod p v := by
  obtain ⟨k, hk, _, hper⟩ := h.exists_period hv
  exact hper.minimalPeriod_pos hk

theorem IsPerm.period_le (h : IsPerm n p) (hv : v < n) : Function.minimalPeriod p v ≤ n := by
  obtain ⟨k, hk, hkn, hper⟩ := h.exists_period hv
  exact (hper.minimalPeriod_le hk).trans hkn

theorem cyclePath_eq (k t : ℕ) (ht : t < Function.minimalPeriod p v)
    (hk : Function.minimalPeriod p v ≤ t + 1 + k) : cyclePath p v k (p^[t + 1] v) =
      (List.range' (t + 1) (Function.minimalPeriod p v - t)).map fun k => p^[k] v := by
  induction k generalizing t with
  | zero =>
    have heq : Function.minimalPeriod p v - t = 1 := by omega
    rw [heq]
    rfl
  | succ k ih =>
    unfold cyclePath
    by_cases hback : v = p^[t + 1] v
    · have hle := Function.IsPeriodicPt.minimalPeriod_le (Nat.succ_pos t) hback.symm
      have heq : Function.minimalPeriod p v - t = 1 := by omega
      rw [if_pos hback, heq]
      rfl
    · have hne : t + 1 ≠ Function.minimalPeriod p v := fun heq => hback (by
        rw [heq, Function.iterate_minimalPeriod])
      have heq : Function.minimalPeriod p v - t = Function.minimalPeriod p v - (t + 1) + 1 := by omega
      rw [if_neg hback, heq, List.range'_succ, List.map_cons, ← ih (t + 1) (by omega) (by omega),
        Function.iterate_succ_apply' p (t + 1)]

/-- The inner loops run once around the cycle. -/
theorem IsPerm.cons_pathFrom (h : IsPerm n p) (hv : v < n) :
    v :: pathFrom p n v = orbit p v ++ [v] := by
  have hpath := cyclePath_eq (n - 1) 0 (h.period_pos hv) (by have := h.period_le hv; omega)
  rw [pathFrom, orbit_concat, List.range_eq_range', List.range'_succ, List.map_cons]
  exact congrArg (v :: ·) hpath

@[simp] theorem orbit_length : (orbit p v).length = Function.minimalPeriod p v := by simp [orbit]

theorem IsPerm.pathFrom_length (h : IsPerm n p) (hv : v < n) :
    (pathFrom p n v).length = Function.minimalPeriod p v := by
  simpa using congrArg List.length (h.cons_pathFrom hv)

theorem IsPerm.pathFrom_getLast? (h : IsPerm n p) (hv : v < n) :
    (pathFrom p n v).getLast? = some v := by
  have hne : pathFrom p n v ≠ [] := List.ne_nil_of_length_pos (h.pathFrom_length hv ▸ h.period_pos hv)
  have hlast := congrArg List.getLast? (h.cons_pathFrom hv)
  rwa [List.getLast?_cons_of_ne_nil hne, List.getLast?_concat] at hlast

theorem orbit_nodup (p : ℕ → ℕ) (v : ℕ) : (orbit p v).Nodup := by
  refine List.Nodup.map_on (fun a ha b hb heq => ?_) List.nodup_range
  exact Function.iterate_injOn_Iio_minimalPeriod (by simpa using ha) (by simpa using hb) heq

theorem IsPerm.iterate_mem_orbit (h : IsPerm n p) (hv : v < n) (k : ℕ) : p^[k] v ∈ orbit p v := by
  rw [← Function.iterate_mod_minimalPeriod_eq]
  exact List.mem_map_of_mem (List.mem_range.mpr (Nat.mod_lt _ (h.period_pos hv)))

theorem IsPerm.self_mem_orbit (h : IsPerm n p) (hv : v < n) : v ∈ orbit p v := h.iterate_mem_orbit hv 0

theorem mem_orbit {x : ℕ} (hx : x ∈ orbit p v) : ∃ k, p^[k] v = x := by
  obtain ⟨k, _, rfl⟩ := List.mem_map.mp hx
  exact ⟨k, rfl⟩

theorem IsPerm.orbit_lt (h : IsPerm n p) (hv : v < n) {x : ℕ} (hx : x ∈ orbit p v) : x < n := by
  obtain ⟨k, rfl⟩ := mem_orbit hx
  exact h.iterate_lt hv k

theorem IsPerm.orbit_closed (h : IsPerm n p) (hv : v < n) {x : ℕ} (hx : x ∈ orbit p v) :
    p x ∈ orbit p v := by
  obtain ⟨k, rfl⟩ := mem_orbit hx
  rw [← Function.iterate_succ_apply' p k]
  exact h.iterate_mem_orbit hv (k + 1)

/-- The way back along the cycle. -/
theorem IsPerm.exists_iterate_back (h : IsPerm n p) (hv : v < n) {x : ℕ} (hx : x ∈ orbit p v) :
    ∃ l, p^[l] x = v := by
  obtain ⟨k, rfl⟩ := mem_orbit hx
  refine ⟨Function.minimalPeriod p v * (k + 1) - k, ?_⟩
  have hle : k ≤ Function.minimalPeriod p v * (k + 1) := by
    have := Nat.mul_le_mul_right (k + 1) (h.period_pos hv)
    omega
  rw [← Function.iterate_add_apply, Nat.sub_add_cancel hle]
  exact (Function.isPeriodicPt_minimalPeriod p v).mul_const (k + 1)

/-- The edges along the cycle. -/
theorem orbit_edges (p : ℕ → ℕ) (v : ℕ) :
    (orbit p v ++ [v]).zip (orbit p v ++ [v]).tail = (orbit p v).map fun x => (x, p x) := by
  refine List.ext_getElem (by simp) fun k hk hk' => ?_
  simp only [orbit_concat, List.getElem_zip, List.getElem_tail, List.getElem_map, List.getElem_range]
  simp only [orbit, List.getElem_map, List.getElem_range, Function.iterate_succ_apply']

/-! ### Tours -/

theorem IsPerm.isTour_of_orbit (h : IsPerm n p) (hv : v < n) (hall : ∀ x < n, x ∈ orbit p v) :
    IsTour n p := by
  have hn : 0 < n := Nat.zero_lt_of_lt hv
  obtain ⟨l, hl⟩ := h.exists_iterate_back hv (hall 0 hn)
  refine ⟨h, fun i hi => ?_⟩
  obtain ⟨k, rfl⟩ := mem_orbit (hall i hi)
  exact ⟨k + l, by rw [Function.iterate_add_apply, hl]⟩

theorem IsTour.mem_orbit (h : IsTour n p) (hv : v < n) : ∀ x < n, x ∈ orbit p v := by
  have hall := h.eq_range (s := (orbit p v).toFinset)
    (fun x hx => mem_range.mpr (h.perm.orbit_lt hv (List.mem_toFinset.mp hx)))
    ⟨v, List.mem_toFinset.mpr (h.perm.self_mem_orbit hv)⟩
    fun x hx => List.mem_toFinset.mpr (h.perm.orbit_closed hv (List.mem_toFinset.mp hx))
  exact fun x hx => List.mem_toFinset.mp (hall ▸ mem_range.mpr hx)

/-- A permutation is a tour when the cycle through a vertex has all vertices. -/
theorem IsPerm.isTour_iff (h : IsPerm n p) (hv : v < n) :
    IsTour n p ↔ Function.minimalPeriod p v = n := by
  have hcard : (orbit p v).toFinset.card = Function.minimalPeriod p v := by
    rw [List.toFinset_card_of_nodup (orbit_nodup p v), orbit_length]
  have hsub : (orbit p v).toFinset ⊆ range n := fun x hx =>
    mem_range.mpr (h.orbit_lt hv (List.mem_toFinset.mp hx))
  constructor
  · intro ht
    have hall : (orbit p v).toFinset = range n := hsub.antisymm fun x hx =>
      List.mem_toFinset.mpr (ht.mem_orbit hv x (mem_range.mp hx))
    rw [← hcard, hall, card_range]
  · intro hper
    have hall : (orbit p v).toFinset = range n :=
      eq_of_subset_of_card_le hsub (by rw [hcard, hper, card_range])
    refine h.isTour_of_orbit hv fun x hx => List.mem_toFinset.mp ?_
    rw [hall]
    exact mem_range.mpr hx

/-- `has_solution` tells the tours. -/
theorem IsPerm.hasSolution_iff (h : IsPerm n p) (hn : 0 < n) :
    hasSolution p n = true ↔ IsTour n p := by
  rw [h.isTour_iff hn, hasSolution, decide_eq_true_eq, h.pathFrom_length hn, h.pathFrom_getLast? hn]
  exact and_iff_right rfl

theorem IsTour.createTour_ne (h : IsTour n p) (hn : 0 < n) : createTour p n ≠ [] := by
  rw [createTour, h.perm.pathFrom_length hn, if_pos ((h.perm.isTour_iff hn).mp h)]
  exact List.cons_ne_nil _ _

/-- `create_tour` gives a route for the assignments that `has_solution` accepts and for no others. -/
theorem IsPerm.createTour_ne_iff (h : IsPerm n p) : createTour p n ≠ [] ↔ hasSolution p n = true := by
  rcases Nat.eq_zero_or_pos n with rfl | hn
  · exact iff_of_false (fun hne => hne rfl) (by simp [hasSolution, pathFrom, cyclePath])
  · rw [h.hasSolution_iff hn]
    refine ⟨fun hne => (h.isTour_iff hn).mpr ?_, fun ht => ht.createTour_ne hn⟩
    by_contra hlen
    rw [← h.pathFrom_length hn] at hlen
    exact hne (if_neg hlen)

/-- The route of a tour starts and ends at `0`, has every vertex once and costs what the tour costs. -/
theorem IsTour.createTour_closed (h : IsTour n p) (hn : 0 < n) (matrix : ℕ → ℕ → ValueType) :
    (∃ l, (0 :: l).Perm (List.range n) ∧ createTour p n = 0 :: (l ++ [0])) ∧
      calcValue matrix (createTour p n) = cost n matrix p := by
  have hroute : createTour p n = orbit p 0 ++ [0] := by
    rw [createTour, if_pos ((h.perm.pathFrom_length hn).trans ((h.perm.isTour_iff hn).mp h)),
      h.perm.cons_pathFrom hn]
  have hperm : (orbit p 0).Perm (List.range n) :=
    (List.perm_ext_iff_of_nodup (orbit_nodup p 0) List.nodup_range).mpr fun x =>
      ⟨fun hx => List.mem_range.mpr (h.perm.orbit_lt hn hx),
        fun hx => h.mem_orbit hn x (List.mem_range.mp hx)⟩
  constructor
  · obtain ⟨m, hm⟩ := Nat.exists_eq_succ_of_ne_zero (Nat.ne_of_gt (h.perm.period_pos hn))
    have horbit : orbit p 0 = 0 :: (List.range' 1 m).map fun k => p^[k] 0 := by
      rw [orbit, hm, List.range_eq_range', List.range'_succ]
      rfl
    rw [hroute, horbit]
    exact ⟨_, horbit ▸ hperm, rfl⟩
  · have hzip : List.zipWith matrix (orbit p 0 ++ [0]) (orbit p 0 ++ [0]).tail =
        (orbit p 0).map fun x => matrix x (p x) := by
      rw [← List.map_uncurry_zip_eq_zipWith, orbit_edges, List.map_map]
      rfl
    rw [hroute, calcValue, hzip, (hperm.map _).sum_eq]
    rfl

/-! ### `mincard_subtour` -/

/-- The rank of a matrix that fits in memory is below `M_VAL`. -/
theorem InitialData.rank_lt (data : InitialData) : data.rank < 10000000272564224 := by
  have hsize := data.size_lt
  by_contra hge
  have := Nat.mul_le_mul (not_lt.mp hge) (not_lt.mp hge)
  omega

/-- The invariant of `mincard_subtour`: a start is that of a proper cycle, and before there is one
only fixed points have been selected. -/
structure Mincard.Inv (p : ℕ → ℕ) (n : ℕ) (s : Mincard) : Prop where
  start : s.selectedPathStart = n ∧ s.selectedPathLength = 10000000272564224 ∧
      (∀ v < n, s.selectedVertices v = true → p v = v) ∨
    s.selectedPathStart < n ∧ p s.selectedPathStart ≠ s.selectedPathStart

/-- The vertices not selected yet. -/
def Mincard.unselected (n : ℕ) (s : Mincard) : Finset ℕ :=
  (range n).filter fun v => s.selectedVertices v = false

theorem IsPerm.mem_pathFrom (h : IsPerm n p) (hv : v < n) {x : ℕ} (hx : x ∈ pathFrom p n v) :
    ∃ k, p^[k] v = x := by
  have hmem : x ∈ orbit p v ++ [v] := h.cons_pathFrom hv ▸ List.mem_cons_of_mem v hx
  rcases List.mem_append.mp hmem with hmem | hmem
  · exact mem_orbit hmem
  · exact ⟨0, (List.mem_singleton.mp hmem).symm⟩

theorem Mincard.unselected_lt {s t : Mincard} (hv : v < n) (hs : s.selectedVertices v = false)
    (ht : t.selectedVertices v = true)
    (hmono : ∀ x, s.selectedVertices x = true → t.selectedVertices x = true) :
    (t.unselected n).card < (s.unselected n).card := by
  refine card_lt_card (Finset.ssubset_iff_subset_ne.mpr ⟨fun x hx => ?_, fun heq => ?_⟩)
  · obtain ⟨hx, hxt⟩ := mem_filter.mp hx
    refine mem_filter.mpr ⟨hx, Bool.eq_false_iff.mpr fun hxs => ?_⟩
    exact Bool.eq_false_iff.mp hxt (hmono x hxs)
  · have hmem : v ∈ s.unselected n := mem_filter.mpr ⟨mem_range.mpr hv, hs⟩
    rw [← heq] at hmem
    exact Bool.eq_false_iff.mp (mem_filter.mp hmem).2 ht

/-- The vertex whose cycle the next round takes up. -/
def Mincard.next (n : ℕ) (s : Mincard) : Option ℕ := (List.range n).find? fun v => !s.selectedVertices v

/-- What a round does with the cycle through `v`: its vertices are selected, and it becomes the best one
so far if it is proper and shorter. -/
structure Mincard.Selects (p : ℕ → ℕ) (n : ℕ) (s : Mincard) (v : ℕ) (t : Mincard) : Prop where
  proper : s.selectedPathLength ≠ 2
  next : s.next n = some v
  vertices : t.selectedVertices = s.select v (pathFrom p n v)
  best : 1 < Function.minimalPeriod p v ∧ Function.minimalPeriod p v < s.selectedPathLength ∧
      t.selectedPathStart = v ∧ t.selectedPathLength = Function.minimalPeriod p v ∨
    (1 < Function.minimalPeriod p v → s.selectedPathLength ≤ Function.minimalPeriod p v) ∧
      t.selectedPathStart = s.selectedPathStart ∧ t.selectedPathLength = s.selectedPathLength

/-- A round ends the loop when no cycle can be shorter or none is left; otherwise it takes up a new one. -/
theorem mincardBody_cases (h : IsPerm n p) (s : Mincard) :
    (∃ v t, mincardBody p n s = some (.inl t) ∧ s.Selects p n v t) ∨
      mincardBody p n s = some (.inr s) ∧ (s.selectedPathLength = 2 ∨ s.next n = none) := by
  by_cases hlen : s.selectedPathLength = 2
  · exact .inr ⟨by simp only [mincardBody, hlen, if_true], .inl hlen⟩
  cases hfind : s.next n with
  | none =>
    rw [Mincard.next] at hfind
    exact .inr ⟨by simp only [mincardBody, hlen, if_false, hfind], .inr rfl⟩
  | some v =>
    have hv := List.mem_range.mp (List.mem_of_find?_eq_some hfind)
    have hperiod := h.pathFrom_length hv
    rw [Mincard.next] at hfind
    by_cases hbetter : 1 < (pathFrom p n v).length ∧ (pathFrom p n v).length < s.selectedPathLength
    · refine .inl ⟨v, ⟨s.select v (pathFrom p n v), v, (pathFrom p n v).length⟩, ?_, hlen, hfind, rfl, .inl ?_⟩
      · simp only [mincardBody, hlen, if_false, hfind]
        rw [if_pos ⟨h.pathFrom_getLast? hv, hbetter⟩]
      · exact ⟨hperiod ▸ hbetter.1, hperiod ▸ hbetter.2, rfl, hperiod⟩
    · refine .inl ⟨v, { s with selectedVertices := s.select v (pathFrom p n v) }, ?_, hlen, hfind, rfl, .inr ?_⟩
      · simp only [mincardBody, hlen, if_false, hfind]
        rw [if_neg fun hand => hbetter hand.2]
      · exact ⟨fun hone => not_lt.mp fun hlt => hbetter (hperiod.symm ▸ ⟨hone, hlt⟩), rfl, rfl⟩

namespace Mincard.Selects

variable {s t : Mincard}

theorem lt (S : s.Selects p n v t) : v < n := List.mem_range.mp (List.mem_of_find?_eq_some S.next)

theorem fresh (S : s.Selects p n v t) : s.selectedVertices v = false := by
  simpa using List.find?_some S.next

theorem selected_iff (S : s.Selects p n v t) {x : ℕ} :
    t.selectedVertices x = true ↔ s.selectedVertices x = true ∨ x = v ∨ x ∈ pathFrom p n v := by
  rw [S.vertices, Mincard.select, Bool.or_eq_true, Bool.or_eq_true, decide_eq_true_eq, decide_eq_true_eq,
    or_assoc]

theorem unselected_lt (S : s.Selects p n v t) : (t.unselected n).card < (s.unselected n).card :=
  Mincard.unselected_lt S.lt S.fresh (S.selected_iff.mpr (.inr (.inl rfl))) fun _ hx =>
    S.selected_iff.mpr (.inl hx)

/-- What is selected was selected before or is on the cycle. -/
theorem selected (h : IsPerm n p) (S : s.Selects p n v t) {x : ℕ} (hx : t.selectedVertices x = true) :
    s.selectedVertices x = true ∨ ∃ k, p^[k] v = x := by
  rcases S.selected_iff.mp hx with hx | rfl | hx
  exacts [.inl hx, .inr ⟨0, rfl⟩, .inr (h.mem_pathFrom S.lt hx)]

theorem inv (h : IsPerm n p) (hn : n < 10000000272564224) (S : s.Selects p n v t) (hs : s.Inv p n) :
    t.Inv p n := by
  have hfixed : Function.minimalPeriod p v = 1 ↔ p v = v := Function.minimalPeriod_eq_one_iff_isFixedPt
  rcases S.best with ⟨hone, _, hstart, _⟩ | ⟨hworse, hstart, hlen⟩
  · refine ⟨.inr ?_⟩
    rw [hstart]
    exact ⟨S.lt, fun hfix => absurd (hfixed.mpr hfix) (Nat.ne_of_gt hone)⟩
  · refine ⟨?_⟩
    rw [hstart, hlen]
    refine hs.start.imp (fun ⟨hs0, hl, hfix⟩ => ⟨hs0, hl, fun x hx hxs => ?_⟩) id
    -- without a start the cycle is not too long, so it is a fixed point
    have hone : p v = v := by
      have hpos := h.period_pos S.lt
      have hle := h.period_le S.lt
      exact hfixed.mp (by by_contra hne; have := hworse (by omega); omega)
    rcases S.selected h hxs with hxs | ⟨k, rfl⟩
    · exact hfix x hx hxs
    · rw [Function.iterate_fixed hone, hone]

end Mincard.Selects

/-- No proper cycle that has been selected is shorter than the best one. -/
structure Mincard.Least (p : ℕ → ℕ) (n : ℕ) (s : Mincard) : Prop where
  length : s.selectedPathStart < n → s.selectedPathLength = Function.minimalPeriod p s.selectedPathStart
  least : ∀ v < n, s.selectedVertices v = true → p v ≠ v →
    s.selectedPathLength ≤ Function.minimalPeriod p v

theorem IsPerm.period_iterate (h : IsPerm n p) (hv : v < n) (k : ℕ) :
    Function.minimalPeriod p (p^[k] v) = Function.minimalPeriod p v := by
  obtain ⟨m, hm, _, hper⟩ := h.exists_period hv
  exact Function.minimalPeriod_apply_iterate ⟨m, hm, hper⟩ k

theorem IsPerm.one_lt_period (h : IsPerm n p) (hv : v < n) (hne : p v ≠ v) :
    1 < Function.minimalPeriod p v := by
  have hpos := h.period_pos hv
  have hone : Function.minimalPeriod p v ≠ 1 := fun hone =>
    hne (Function.minimalPeriod_eq_one_iff_isFixedPt.mp hone)
  omega

theorem Mincard.Selects.least {s t : Mincard} (h : IsPerm n p) (S : s.Selects p n v t)
    (hs : s.Least p n) : t.Least p n := by
  -- a vertex selected in this round lies on the cycle through `v`
  have hnew : ∀ x < n, t.selectedVertices x = true → p x ≠ x → s.selectedPathLength ≤ Function.minimalPeriod p x ∨
      1 < Function.minimalPeriod p v ∧ Function.minimalPeriod p x = Function.minimalPeriod p v := by
    intro x hx hsel hne
    rcases S.selected h hsel with hsel | ⟨k, rfl⟩
    · exact .inl (hs.least x hx hsel hne)
    · have hperiod := h.period_iterate S.lt k
      exact .inr ⟨hperiod ▸ h.one_lt_period hx hne, hperiod⟩
  rcases S.best with ⟨hone, hlt, hstart, hlen⟩ | ⟨hworse, hstart, hlen⟩
  · refine ⟨fun _ => by rw [hstart, hlen], fun x hx hsel hne => ?_⟩
    rw [hlen]
    rcases hnew x hx hsel hne with hle | ⟨_, heq⟩
    exacts [hlt.le.trans hle, heq.ge]
  · refine ⟨fun hlt => by rw [hstart] at hlt ⊢; exact hlen.trans (hs.length hlt), fun x hx hsel hne => ?_⟩
    rw [hlen]
    rcases hnew x hx hsel hne with hle | ⟨hone, heq⟩
    exacts [hle, heq ▸ hworse hone]

/-- The loop of `mincard_subtour` ends when no cycle can be shorter or none is left. -/
theorem mincard_run (h : IsPerm n p) (hn : n < 10000000272564224) {fuel : ℕ} (hf : n < fuel) :
    ∃ s, Loop.iterate (mincardBody p n) fuel ⟨fun _ => false, n, 10000000272564224⟩ = some s ∧
      s.Inv p n ∧ s.Least p n ∧ (s.selectedPathLength = 2 ∨ ∀ v < n, s.selectedVertices v = true) := by
  have hstart : Mincard.Inv p n ⟨fun _ => false, n, 10000000272564224⟩ :=
    ⟨.inl ⟨rfl, rfl, fun _ _ hv => absurd hv Bool.false_ne_true⟩⟩
  have hleast : Mincard.Least p n ⟨fun _ => false, n, 10000000272564224⟩ :=
    ⟨fun hlt => absurd hlt (lt_irrefl n), fun _ _ hv => absurd hv Bool.false_ne_true⟩
  have hcard : (Mincard.unselected n ⟨fun _ => false, n, 10000000272564224⟩).card < fuel :=
    ((card_filter_le _ _).trans_eq (card_range n)).trans_lt hf
  refine Loop.iterate_total (fun s => s.Inv p n ∧ s.Least p n) (fun s => (s.unselected n).card)
    (fun s ⟨hinv, hs⟩ => ?_) ⟨hstart, hleast⟩ hcard
  rcases mincardBody_cases h s with ⟨v, t, ht, S⟩ | ⟨hr, hend⟩
  · exact .inl ⟨t, ht, ⟨S.inv h hn hinv, S.least h hs⟩, S.unselected_lt⟩
  · refine .inr ⟨s, hr, hinv, hs, hend.imp_right fun hnone v hv => ?_⟩
    simpa using List.find?_eq_none.mp hnone v (List.mem_range.mpr hv)

/-- `mincard_subtour` gives a shortest proper cycle, or nothing if there is none. -/
theorem mincardSubtour_least (h : IsPerm n p) (hn : n < 10000000272564224) {fuel : ℕ} (hf : n < fuel) :
    ∃ r, mincardSubtour fuel p n = some r ∧ ((r = [] ∧ ∀ v < n, p v = v) ∨
      ∃ v < n, p v ≠ v ∧ r = orbit p v ++ [v] ∧
        ∀ w < n, p w ≠ w → Function.minimalPeriod p v ≤ Function.minimalPeriod p w) := by
  obtain ⟨s, hrun, hinv, hs, hend⟩ := mincard_run h hn hf
  rcases hinv.start with ⟨hn0, hl, hfix⟩ | ⟨hlt, hne⟩
  · refine ⟨[], by simp [mincardSubtour, hrun, hn0], .inl ⟨rfl, fun v hv => hfix v hv ?_⟩⟩
    refine hend.resolve_left (fun h2 => ?_) v hv
    exact absurd (h2.symm.trans hl) (by decide)
  · refine ⟨orbit p s.selectedPathStart ++ [s.selectedPathStart], ?_, .inr ⟨_, hlt, hne, rfl, fun w hw hw' => ?_⟩⟩
    · rw [← h.cons_pathFrom hlt]
      simp [mincardSubtour, hrun, hlt]
    · rw [← hs.length hlt]
      rcases hend with h2 | hall
      · rw [h2]
        exact h.one_lt_period hw hw'
      · exact hs.least w hw (hall w hw) hw'

/-- `mincard_subtour` gives a proper cycle, or nothing if there is none. -/
theorem mincardSubtour_spec (h : IsPerm n p) (hn : n < 10000000272564224) {fuel : ℕ} (hf : n < fuel) :
    ∃ r, mincardSubtour fuel p n = some r ∧ ((r = [] ∧ ∀ v < n, p v = v) ∨
      ∃ v < n, p v ≠ v ∧ r = orbit p v ++ [v]) := by
  obtain ⟨r, hrun, hr⟩ := mincardSubtour_least h hn hf
  exact ⟨r, hrun, hr.imp_right fun ⟨v, hv, hne, heq, _⟩ => ⟨v, hv, hne, heq⟩⟩

theorem mincardSubtour_mono {fuel fuel' : ℕ} {r : List ℕ} (hrun : mincardSubtour fuel p n = some r)
    (hle : fuel ≤ fuel') : mincardSubtour fuel' p n = some r := by
  simp only [mincardSubtour, Option.bind_eq_bind, Option.bind_eq_some_iff] at hrun ⊢
  obtain ⟨s, hs, hsome⟩ := hrun
  exact ⟨s, Loop.iterate_mono hs hle, hsome⟩

/-- Whatever `fuel` is, a call that ends gives that. -/
theorem mincardSubtour_cases (h : IsPerm n p) (hn : n < 10000000272564224) {fuel : ℕ} {r : List ℕ}
    (hrun : mincardSubtour fuel p n = some r) : r = [] ∨ ∃ v < n, p v ≠ v ∧ r = orbit p v ++ [v] := by
  have hf : n < max fuel (n + 1) := Nat.lt_of_lt_of_le n.lt_succ_self (le_max_right _ _)
  obtain ⟨r', hrun', hr⟩ := mincardSubtour_spec h hn hf
  cases (mincardSubtour_mono hrun (le_max_left _ _)).symm.trans hrun'
  exact hr.imp And.left id

end Optimer.Tsp
