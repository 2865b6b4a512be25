import Mathlib.Data.List.Find
import Optimer.Tsp.Subtour

/-! `mincard_subtour` with the loops of the source: the array of `char` marks, the walk that goes round a
cycle and marks it, and the walk that writes the best cycle down. On an assignment they do what the
search over the cycles does that the branching rules are stated with. -/

namespace Optimer.Tsp.TspSolver

/-- `++selected_vertices[v]`. -/
def mark (selectedVertices : ℕ → BitVec 8) (v : ℕ) : ℕ → BitVec 8 :=
  Function.update selectedVertices v (selectedVertices v + 1)

/-- The variables of the loop that goes round a cycle. -/
structure Path where
  selectedVertices : ℕ → BitVec 8
  finish : ℕ
  pathLength : ℕ

def pathBody (p : ℕ → ℕ) (n start : ℕ) (s : Path) : Option (Path ⊕ Path) :=
  if start ≠ s.finish ∧ s.pathLength < n then
    some (.inl
      { selectedVertices := mark s.selectedVertices (p s.finish)
        finish := p s.finish
        pathLength := s.pathLength + 1 })
  else some (.inr s)

/-- The variables of the outer loop. -/
structure Best where
  selectedVertices : ℕ → BitVec 8
  selectedPathStart : ℕ
  selectedPathLength : ℕ

def bestBody (fuel : ℕ) (p : ℕ → ℕ) (n : ℕ) (s : Best) : Option (Best ⊕ Best) :=
  if s.selectedPathLength ≠ 2 then
    match (List.range n).find? fun v => decide (s.selectedVertices v = 0) with
    | none => some (.inr s)
    | some start => do
      let selectedVertices := mark (mark s.selectedVertices start) (p start)
      let path ← Loop.iterate (pathBody p n start) fuel
        { selectedVertices, finish := p start, pathLength := 1 }
      if start = path.finish ∧ 1 < path.pathLength ∧ path.pathLength < s.selectedPathLength then
        return .inl
          { selectedVertices := path.selectedVertices
            selectedPathStart := start
            selectedPathLength := path.pathLength }
      else return .inl { s with selectedVertices := path.selectedVertices }
  else some (.inr s)

/-- The variables of the last loop. -/
structure Walk where
  subtour : List ℕ
  start : ℕ
  finish : ℕ

def walkBody (p : ℕ → ℕ) (selectedPathStart : ℕ) (s : Walk) : Option (Walk ⊕ Walk) :=
  if selectedPathStart ≠ s.finish then
    some (.inl { subtour := s.subtour ++ [s.start], start := s.finish, finish := p s.finish })
  else some (.inr s)

/-- `TspSolver::mincard_subtour`; `selected_path_length` starts from `M_VAL` as a `size_t`. -/
def mincardSubtour (fuel : ℕ) (p : ℕ → ℕ) (n : ℕ) : Option (List ℕ) := do
  let s ← Loop.iterate (bestBody fuel p n) fuel
    { selectedVertices := fun _ => 0
      selectedPathStart := n
      selectedPathLength := 10000000272564224 }
  if s.selectedPathStart < n then
    let walk ← Loop.iterate (walkBody p s.selectedPathStart) fuel
      { subtour := [], start := s.selectedPathStart, finish := p s.selectedPathStart }
    return walk.subtour ++ [walk.start] ++ [walk.finish]
  else return []

variable {n v x fuel : ℕ} {p : ℕ → ℕ} {selectedVertices : ℕ → BitVec 8}

/-! ### Going round a cycle -/

/-- The marks after the vertices of a list have been marked. -/
theorem foldl_mark (l : List ℕ) :
    l.foldl mark selectedVertices x = selectedVertices x + BitVec.ofNat 8 (l.count x) := by
  induction l generalizing selectedVertices with
  | nil => simp
  | cons v l ih =>
    rw [List.foldl_cons, ih]
    by_cases hx : x = v
    · subst hx
      rw [mark, Function.update_self, List.count_cons_self, BitVec.add_assoc, Nat.add_comm,
        BitVec.ofNat_add]
      rfl
    · rw [mark, Function.update_of_ne hx, List.count_cons_of_ne (Ne.symm hx)]

/-- The inner loop, after `k` vertices: it stands at `p^[k] v`, and all vertices up to there are marked. -/
structure Path.Inv (p : ℕ → ℕ) (v : ℕ) (selectedVertices : ℕ → BitVec 8) (s : Path) : Prop where
  pos : 0 < s.pathLength
  le : s.pathLength ≤ Function.minimalPeriod p v
  finish : s.finish = p^[s.pathLength] v
  marks : s.selectedVertices =
    ((List.range (s.pathLength + 1)).map fun k => p^[k] v).foldl mark selectedVertices

theorem pathBody_cases (h : IsPerm n p) (hv : v < n) {s : Path} (hs : s.Inv p v selectedVertices) :
    (∃ t, pathBody p n v s = some (.inl t) ∧ t.Inv p v selectedVertices ∧
      Function.minimalPeriod p v - t.pathLength < Function.minimalPeriod p v - s.pathLength) ∨
      ∃ t, pathBody p n v s = some (.inr t) ∧ t.Inv p v selectedVertices ∧
        t.pathLength = Function.minimalPeriod p v := by
  by_cases hgo : v ≠ s.finish ∧ s.pathLength < n
  · have hlt : s.pathLength < Function.minimalPeriod p v := by
      refine lt_of_le_of_ne hs.le fun heq => hgo.1 ?_
      rw [hs.finish, heq, Function.iterate_minimalPeriod]
    have hfinish : p s.finish = p^[s.pathLength + 1] v := by
      rw [hs.finish, Function.iterate_succ_apply']
    refine .inl ⟨_, if_pos hgo, ⟨Nat.succ_pos _, hlt, hfinish, ?_⟩, by simp only; omega⟩
    rw [List.range_succ, List.map_append, List.foldl_append, ← hs.marks]
    exact congrArg (mark s.selectedVertices) hfinish
  · refine .inr ⟨s, if_neg hgo, hs, Nat.le_antisymm hs.le ?_⟩
    by_cases hback : v = s.finish
    · have hper : Function.IsPeriodicPt p s.pathLength v := (hback.trans hs.finish).symm
      exact hper.minimalPeriod_le hs.pos
    · exact (h.period_le hv).trans (not_lt.mp fun hlt => hgo ⟨hback, hlt⟩)

/-- Each vertex of the cycle is marked once, the first one twice. -/
theorem path_run (h : IsPerm n p) (hv : v < n) (hf : n < fuel) (selectedVertices : ℕ → BitVec 8) :
    ∃ s, Loop.iterate (pathBody p n v) fuel ⟨mark (mark selectedVertices v) (p v), p v, 1⟩ = some s ∧
      s.finish = v ∧ s.pathLength = Function.minimalPeriod p v ∧
      s.selectedVertices = (orbit p v ++ [v]).foldl mark selectedVertices := by
  have hstart : Path.Inv p v selectedVertices ⟨mark (mark selectedVertices v) (p v), p v, 1⟩ :=
    ⟨Nat.one_pos, h.period_pos hv, rfl, rfl⟩
  have hfuel : Function.minimalPeriod p v - 1 < fuel := by
    have := h.period_le hv
    omega
  obtain ⟨s, hrun, hs, hlen⟩ := Loop.iterate_total (Path.Inv p v selectedVertices)
    (fun s => Function.minimalPeriod p v - s.pathLength) (fun s hs => pathBody_cases h hv hs) hstart hfuel
  refine ⟨s, hrun, ?_, hlen, ?_⟩
  · rw [hs.finish, hlen, Function.iterate_minimalPeriod]
  · rw [hs.marks, hlen, orbit_concat]

/-! ### The marks are the selected vertices -/

/-- The vertices with a mark are the selected ones, and with a vertex its whole cycle is marked. -/
structure Best.Agrees (p : ℕ → ℕ) (n : ℕ) (s : Best) (t : Mincard) : Prop where
  start : s.selectedPathStart = t.selectedPathStart
  length : s.selectedPathLength = t.selectedPathLength
  marked : ∀ v < n, s.selectedVertices v ≠ 0 ↔ t.selectedVertices v = true
  closed : ∀ v < n, t.selectedVertices v = true → t.selectedVertices (p v) = true

namespace Best.Agrees

variable {s : Best} {t : Mincard}

theorem closed_iterate (h : IsPerm n p) (A : s.Agrees p n t) (hv : v < n)
    (hsel : t.selectedVertices v = true) (k : ℕ) : t.selectedVertices (p^[k] v) = true := by
  induction k with
  | zero => exact hsel
  | succ k ih =>
    rw [Function.iterate_succ_apply']
    exact A.closed _ (h.iterate_lt hv k) ih

/-- A cycle that is taken up has no mark yet. -/
theorem unmarked (h : IsPerm n p) (A : s.Agrees p n t) (hv : v < n) (hun : t.selectedVertices v = false)
    (hx : x ∈ orbit p v) : s.selectedVertices x = 0 := by
  by_contra hne
  have hsel := (A.marked x (h.orbit_lt hv hx)).mp hne
  obtain ⟨l, hl⟩ := h.exists_iterate_back hv hx
  have hback := A.closed_iterate h (h.orbit_lt hv hx) hsel l
  rw [hl, hun] at hback
  exact Bool.false_ne_true hback

/-- What the inner loop does to the marks of a new cycle. -/
theorem selects {s' : Best} {t' : Mincard} (h : IsPerm n p) (A : s.Agrees p n t) (S : t.Selects p n v t')
    (hmarks : s'.selectedVertices = (orbit p v ++ [v]).foldl mark s.selectedVertices)
    (hstart : s'.selectedPathStart = t'.selectedPathStart)
    (hlength : s'.selectedPathLength = t'.selectedPathLength) : s'.Agrees p n t' := by
  have hsel : ∀ x, t'.selectedVertices x = true ↔ t.selectedVertices x = true ∨ x ∈ orbit p v := by
    intro x
    rw [S.selected_iff, ← List.mem_cons, h.cons_pathFrom S.lt, List.mem_append, List.mem_singleton,
      or_iff_left_of_imp (b := x = v)]
    rintro rfl
    exact h.self_mem_orbit S.lt
  refine ⟨hstart, hlength, fun x hx => ?_, fun x hx hxs => (hsel _).mpr ?_⟩
  · rw [hsel, hmarks, foldl_mark, List.count_append]
    by_cases hxo : x ∈ orbit p v
    · -- a vertex of the cycle has been marked once or twice, and was not before
      have hone := List.count_eq_one_of_mem (orbit_nodup p v) hxo
      have htwo : [v].count x = 0 ∨ [v].count x = 1 := by
        have := List.count_le_length (a := x) (l := [v])
        simp only [List.length_singleton] at this
        omega
      rw [A.unmarked h S.lt S.fresh hxo, hone]
      refine iff_of_true ?_ (.inr hxo)
      rcases htwo with htwo | htwo <;> rw [htwo] <;> decide
    · have hxv : x ∉ [v] := fun hxv => hxo (by
        rw [List.mem_singleton.mp hxv]
        exact h.self_mem_orbit S.lt)
      rw [List.count_eq_zero_of_not_mem hxo, List.count_eq_zero_of_not_mem hxv, or_iff_left hxo,
        ← A.marked x hx]
      simp
  · exact ((hsel x).mp hxs).imp (A.closed x hx) (h.orbit_closed S.lt)

end Best.Agrees

/-- A round of the outer loop that finds a vertex without a mark. -/
theorem bestBody_of_find (h : IsPerm n p) (hf : n < fuel) {s : Best} (hlen : s.selectedPathLength ≠ 2)
    (hfind : ((List.range n).find? fun v => decide (s.selectedVertices v = 0)) = some v) :
    bestBody fuel p n s = some (.inl
      (if 1 < Function.minimalPeriod p v ∧ Function.minimalPeriod p v < s.selectedPathLength then
        { selectedVertices := (orbit p v ++ [v]).foldl mark s.selectedVertices
          selectedPathStart := v
          selectedPathLength := Function.minimalPeriod p v }
      else { s with selectedVertices := (orbit p v ++ [v]).foldl mark s.selectedVertices })) := by
  have hv := List.mem_range.mp (List.mem_of_find?_eq_some hfind)
  obtain ⟨path, hpath, hfinish, hlength, hmarks⟩ := path_run h hv hf s.selectedVertices
  rw [bestBody, if_pos hlen, hfind]
  simp only [hpath, Option.bind_eq_bind, Option.bind_some, hfinish, hlength, hmarks, true_and]
  split <;> rfl

theorem Best.Agrees.next {s : Best} {t : Mincard} (A : s.Agrees p n t) :
    ((List.range n).find? fun v => decide (s.selectedVertices v = 0)) = t.next n := by
  refine List.find?_congr fun v hv => ?_
  rw [Bool.eq_iff_iff, decide_eq_true_eq, Bool.not_eq_true', ← Bool.not_eq_true,
    ← A.marked v (List.mem_range.mp hv), not_not]

/-- Each round of the loop is one of the search over the cycles. -/
theorem bestBody_agrees (h : IsPerm n p) (hf : n < fuel) (s : Best) (t : Mincard) (A : s.Agrees p n t) :
    (∃ s' t', bestBody fuel p n s = some (.inl s') ∧ mincardBody p n t = some (.inl t') ∧
        s'.Agrees p n t') ∨
      ∃ s' t', bestBody fuel p n s = some (.inr s') ∧ mincardBody p n t = some (.inr t') ∧
        s'.Agrees p n t' := by
  rcases mincardBody_cases h t with ⟨v, t', ht', S⟩ | ⟨ht, hend⟩
  · have hbody := bestBody_of_find h hf (A.length ▸ S.proper) (A.next.trans S.next)
    rw [A.length] at hbody
    rcases S.best with ⟨hone, hlt, hstart, hlength⟩ | ⟨hworse, hstart, hlength⟩
    · rw [if_pos ⟨hone, hlt⟩] at hbody
      exact .inl ⟨_, t', hbody, ht', A.selects h S rfl hstart.symm hlength.symm⟩
    · rw [if_neg fun hand => absurd (hworse hand.1) (not_le.mpr hand.2)] at hbody
      exact .inl ⟨_, t', hbody, ht', A.selects h S rfl (A.start.trans hstart.symm)
        hlength.symm⟩
  · refine .inr ⟨s, t, ?_, ht, A⟩
    rcases hend with h2 | hnone
    · rw [bestBody, if_neg (by rw [A.length, h2]; exact not_not.mpr rfl)]
    · rw [bestBody, A.next, hnone]
      exact ite_self _

/-! ### Writing the cycle down -/

/-- The last loop, after `k` steps: it has written down the vertices before `p^[k] v`. -/
structure Walk.Inv (p : ℕ → ℕ) (v k : ℕ) (s : Walk) : Prop where
  lt : k < Function.minimalPeriod p v
  subtour : s.subtour = (List.range k).map fun i => p^[i] v
  start : s.start = p^[k] v
  finish : s.finish = p^[k + 1] v

theorem walkBody_cases {k : ℕ} {s : Walk} (hs : s.Inv p v k) :
    (∃ t, walkBody p v s = some (.inl t) ∧ t.Inv p v (k + 1)) ∨
      walkBody p v s = some (.inr s) ∧ k + 1 = Function.minimalPeriod p v := by
  by_cases hback : v = s.finish
  · refine .inr ⟨if_neg (not_not.mpr hback), Nat.le_antisymm hs.lt ?_⟩
    have hper : Function.IsPeriodicPt p (k + 1) v := (hback.trans hs.finish).symm
    exact hper.minimalPeriod_le (Nat.succ_pos k)
  · refine .inl ⟨_, if_pos hback, lt_of_le_of_ne hs.lt fun heq => hback ?_, ?_, hs.finish, ?_⟩
    · rw [hs.finish, heq, Function.iterate_minimalPeriod]
    · rw [List.range_succ, List.map_append, ← hs.subtour, hs.start]
      rfl
    · rw [hs.finish, Function.iterate_succ_apply' p (k + 1)]

theorem walk_run (h : IsPerm n p) (hv : v < n) (hf : n < fuel) :
    ∃ s, Loop.iterate (walkBody p v) fuel ⟨[], v, p v⟩ = some s ∧
      s.subtour ++ [s.start] ++ [s.finish] = orbit p v ++ [v] := by
  have hfuel : Function.minimalPeriod p v - ([] : List ℕ).length < fuel :=
    (Nat.sub_le _ _).trans_lt ((h.period_le hv).trans_lt hf)
  have hstart : Walk.Inv p v 0 ⟨[], v, p v⟩ := ⟨h.period_pos hv, rfl, rfl, rfl⟩
  refine Loop.iterate_total (s := ⟨[], v, p v⟩) (fun s : Walk => s.Inv p v s.subtour.length)
    (fun s => Function.minimalPeriod p v - s.subtour.length) (fun s hs => ?_) hstart hfuel
  rcases walkBody_cases hs with ⟨t, ht, hinv⟩ | ⟨hr, hlast⟩
  · have hlen : t.subtour.length = s.subtour.length + 1 := by
      rw [hinv.subtour, List.length_map, List.length_range]
    have hlt := hs.lt
    exact .inl ⟨t, ht, hlen ▸ hinv, by omega⟩
  · refine .inr ⟨s, hr, ?_⟩
    rw [hs.finish, hlast, Function.iterate_minimalPeriod, orbit, ← hlast, List.range_succ,
      List.map_append, ← hs.subtour, hs.start]
    rfl

/-- The loops of the source do what the search over the cycles does. -/
theorem mincardSubtour_eq (h : IsPerm n p) (hn : n < 10000000272564224) (hf : n < fuel) :
    mincardSubtour fuel p n = Tsp.mincardSubtour fuel p n := by
  obtain ⟨t, ht, _⟩ := mincard_run h hn hf
  have hstart : Best.Agrees p n ⟨fun _ => 0, n, 10000000272564224⟩
      ⟨fun _ => false, n, 10000000272564224⟩ :=
    ⟨rfl, rfl, fun _ _ => iff_of_false (fun h => h rfl) Bool.false_ne_true,
      fun _ _ h => absurd h Bool.false_ne_true⟩
  obtain ⟨s, hs, A⟩ := Loop.iterate_simulates (fun s t => Best.Agrees p n s t)
    (fun s t => Best.Agrees p n s t) (bestBody_agrees h hf) hstart ht
  simp only [mincardSubtour, Tsp.mincardSubtour, hs, ht, Option.bind_eq_bind, Option.bind_some, A.start]
  by_cases hlt : t.selectedPathStart < n
  · obtain ⟨walk, hwalk, heq⟩ := walk_run h hlt hf
    rw [if_pos hlt, if_pos hlt, hwalk, h.cons_pathFrom hlt]
    exact congrArg some heq
  · rw [if_neg hlt, if_neg hlt]

/-! ### The shortest proper cycle -/

/-- `mincard_subtour` returns on every assignment: the empty list on the identity, and otherwise a walk
once around a shortest proper cycle, which has all vertices just when `has_solution` says so. -/
theorem mincardSubtour_shortest (data : InitialData) (hn : 0 < data.rank) (h : IsPerm data.rank p) :
    ∃ r, (∀ fuel, data.rank < fuel → mincardSubtour fuel p data.rank = some r) ∧
      (r = [] ↔ ∀ v < data.rank, p v = v) ∧
      (r ≠ [] → ∃ s < data.rank, ∃ k, 2 ≤ k ∧ r = (List.range (k + 1)).map (fun i => p^[i] s) ∧
        p^[k] s = s ∧ ((List.range k).map fun i => p^[i] s).Nodup ∧
        ∀ v < data.rank, p v ≠ v → ∀ j, 0 < j → p^[j] v = v → k ≤ j) ∧
      (r.length = data.rank + 1 ↔ hasSolution p data.rank = true ∧ 1 < data.rank) := by
  obtain ⟨r, hrun, hr⟩ := mincardSubtour_least h data.rank_lt (Nat.lt_succ_self _)
  have hends : ∀ fuel, data.rank < fuel → mincardSubtour fuel p data.rank = some r := fun fuel hf =>
    (mincardSubtour_eq h data.rank_lt hf).trans (mincardSubtour_mono hrun hf)
  rcases hr with ⟨rfl, hid⟩ | ⟨v, hv, hne, rfl, hleast⟩
  · -- a fixed point is a tour of one vertex only
    have hone : hasSolution p data.rank = true ↔ 1 = data.rank := by
      rw [h.hasSolution_iff hn, h.isTour_iff hn,
        Function.minimalPeriod_eq_one_iff_isFixedPt.mpr (hid 0 hn)]
    refine ⟨[], hends, iff_of_true rfl hid, fun hne => absurd rfl hne, ?_⟩
    rw [hone, List.length_nil]
    omega
  · have hlen : (orbit p v ++ [v]).length = Function.minimalPeriod p v + 1 := by
      rw [List.length_append, orbit_length, List.length_singleton]
    have hone := h.one_lt_period hv hne
    refine ⟨_, hends, iff_of_false (by simp) fun hid => hne (hid v hv), fun _ =>
      ⟨v, hv, _, hone, orbit_concat p v, Function.iterate_minimalPeriod, orbit_nodup p v, ?_⟩, ?_⟩
    · intro w hw hw' j hj hback
      have hper : Function.IsPeriodicPt p j w := hback
      exact (hleast w hw hw').trans (hper.minimalPeriod_le hj)
    · rw [hlen, h.hasSolution_iff hn, h.isTour_iff hv, Nat.add_right_cancel_iff]
      exact ⟨fun hper => ⟨hper, hper ▸ hone⟩, And.left⟩

/-- The fixed point `0`, the cycle of `1`, `3`, `4` and the cycle of `2` and `5`. -/
def cyclesData : InitialData where
  matrix _ _ := 0
  rank := 6
  size_lt := by decide

theorem mincardSubtour_shortest_cycles : IsPerm 6 (fun i => [0, 3, 5, 4, 1, 2].getD i 0) ∧
    ∃ r, mincardSubtour 7 (fun i => [0, 3, 5, 4, 1, 2].getD i 0) 6 = some r ∧ r ≠ [] := by
  have hperm : IsPerm 6 fun i => [0, 3, 5, 4, 1, 2].getD i 0 := .of_injective (by decide) (by decide)
  obtain ⟨r, hrun, hnil, _⟩ := mincardSubtour_shortest cyclesData (by decide) hperm
  exact ⟨hperm, r, hrun 7 (by decide), fun h => absurd (hnil.mp h 1 (by decide)) (by decide)⟩

end Optimer.Tsp.TspSolver
