import Mathlib.Tactic.FieldSimp
import Optimer.Heuristics.Ant
import Optimer.Tsp.Greedy

/-! An ant with new parameters goes on to a vertex that is left in every round if and only if it makes
no candidate list or its list is not empty, and then it finds a tour. -/

namespace Optimer.AcoTsp
open Optimer.Tsp

variable {pow : ValueType → ValueType → ValueType} {sort : (ℕ → ValueType) → List ℕ → List ℕ}
  {ant : Ant} {random : ℕ → ℕ} {s : State} {selected : ℕ → Bool} {points : List ℕ}
  {n start u v r : ℕ} {dist theta : ℕ → ℕ → ValueType} {params : Params}

/-! ### The next point -/

theorem mem_getListPoints : v ∈ getListPoints n selected ↔ v < n ∧ selected v = false := by
  rw [getListPoints, List.mem_filter, List.mem_range, Bool.not_eq_true']

/-- The sum exceeds the random value at some point if it does at the last one. -/
theorem selectPoint_spec {multinv sum : ValueType} {l : List (ℕ × ValueType)} (hsum : sum ≤ r)
    (h : r < sum + (l.map Prod.snd).sum / multinv) :
    ∃ v ∈ l.map Prod.fst, selectPoint multinv r sum l = some v := by
  induction l generalizing sum with
  | nil => exact absurd (by simpa using h) hsum.not_gt
  | cons e l ih =>
    obtain ⟨point, probability⟩ := e
    rw [List.map_cons, List.sum_cons, add_div, ← add_assoc] at h
    rw [selectPoint]
    rcases lt_or_ge (r : ValueType) (sum + probability / multinv) with hlt | hge
    · exact ⟨point, List.mem_cons_self, if_pos hlt⟩
    · obtain ⟨v, hv, hselect⟩ := ih hge h
      exact ⟨v, List.mem_cons_of_mem _ hv, (if_neg hge.not_gt).trans hselect⟩

/-- Whatever the random value, the sum gets as far as `100`, so one of some points is selected. -/
theorem selectPoint_of_pos {weight : ℕ → ValueType} (hne : points ≠ [])
    (hpos : ∀ v ∈ points, 0 < weight v) :
    ∃ v ∈ points, selectPoint ((points.map weight).sum / 100) (r % 100) 0
      (points.zip (points.map weight)) = some v := by
  have hsum : 0 < (points.map weight).sum := by
    refine List.sum_pos _ (fun x hx => ?_) (by simpa using hne)
    obtain ⟨v, hv, rfl⟩ := List.mem_map.mp hx
    exact hpos v hv
  have hfst : (points.zip (points.map weight)).map Prod.fst = points :=
    List.map_fst_zip (by rw [List.length_map])
  have hsnd : (points.zip (points.map weight)).map Prod.snd = points.map weight :=
    List.map_snd_zip (by rw [List.length_map])
  have hr : ((r % 100 : ℕ) : ValueType) < 100 := by exact_mod_cast Nat.mod_lt r (by decide)
  have htotal : (points.map weight).sum / ((points.map weight).sum / 100) = 100 := by field_simp
  have hlt : ((r % 100 : ℕ) : ValueType) < 0 +
      ((points.zip (points.map weight)).map Prod.snd).sum / ((points.map weight).sum / 100) := by
    rwa [hsnd, htotal, zero_add]
  have h := selectPoint_spec (Nat.cast_nonneg _) hlt
  rwa [hfst] at h

/-- The candidate list is not empty, or there is none. -/
def Ant.Lists (ant : Ant) : Prop := ant.params.candidateListFactor ≤ 0 ∨ ant.candidateListSize ≠ 0

/-- The candidates of `get_next_point`. -/
theorem candidates_spec (hsort : ∀ row l, (sort row l).Perm l) (h : ant.Lists) (hne : points ≠ []) :
    ∃ l ≠ [], (∀ v ∈ l, v ∈ points) ∧
      (if ant.params.candidateListFactor > 0 then selectCandidateList sort ant points u
        else points) = l := by
  rcases le_or_gt ant.params.candidateListFactor 0 with hf | hf
  · exact ⟨points, hne, fun _ hv => hv, if_neg hf.not_gt⟩
  rw [if_pos hf, selectCandidateList]
  split
  · refine ⟨_, fun hnil => ?_, fun v hv => (hsort _ _).mem_iff.mp (List.mem_of_mem_take hv), rfl⟩
    rcases List.take_eq_nil_iff.mp hnil with hzero | hnil
    · exact h.elim hf.not_ge fun h => h hzero
    · exact hne (List.Perm.eq_nil (hnil ▸ (hsort _ _).symm))
  · exact ⟨points, hne, fun _ hv => hv, rfl⟩

/-- A vertex that is left is picked, as long as there is one. -/
theorem getNextPoint_spec (hsort : ∀ row l, (sort row l).Perm l) (h : ant.Lists)
    (hweight : ∀ v ∈ getListPoints ant.dimension selected,
      0 < pow (ant.matrixTheta u v) ant.params.alpha / pow (ant.matrixDist u v) ant.params.beta) :
    ∃ v, getNextPoint pow sort ant selected u r = some v ∧
      (v ∈ getListPoints ant.dimension selected ∨
        getListPoints ant.dimension selected = [] ∧ v = ant.dimension) := by
  by_cases hne : getListPoints ant.dimension selected = []
  · exact ⟨ant.dimension, if_pos hne, .inr ⟨hne, rfl⟩⟩
  · obtain ⟨l, hl, hsub, heq⟩ := candidates_spec (u := u) hsort h hne
    obtain ⟨v, hv, hselect⟩ := selectPoint_of_pos (r := r) hl fun v hv => hweight v (hsub v hv)
    refine ⟨v, ?_, .inl (hsub v hv)⟩
    rw [getNextPoint, if_neg hne, heq]
    exact hselect

/-- With an empty candidate list the check fails. -/
theorem getNextPoint_none (h : ¬ ant.Lists) (hne : getListPoints ant.dimension selected ≠ []) :
    getNextPoint pow sort ant selected u r = none := by
  obtain ⟨hf, hzero⟩ := not_or.mp h
  have hnil : selectCandidateList sort ant (getListPoints ant.dimension selected) u = [] := by
    rw [selectCandidateList, if_pos (by rw [not_not.mp hzero]; exact List.length_pos_of_ne_nil hne),
      not_not.mp hzero, List.take_zero]
  rw [getNextPoint, if_neg hne, if_pos (not_le.mp hf), hnil]
  rfl

/-! ### The rounds -/

/-- The state after some rounds: the ant has been at every vertex of its route once, and stands before
another one or has been everywhere. -/
structure State.Inv (n : ℕ) (s : State) : Prop where
  selected : ∀ v, s.selectedVertices v = true ↔ v ∈ s.route
  nodup : s.route.Nodup
  lt : ∀ v ∈ s.route, v < n
  curr : s.currVertex < n ∧ s.currVertex ∉ s.route ∨ s.currVertex = n ∧ ∀ v < n, v ∈ s.route

theorem State.Inv.initial (hs : ant.startPoint < n) : ant.start.Inv n where
  selected v := by simp [Ant.start]
  nodup := List.nodup_nil
  lt _ h := absurd h List.not_mem_nil
  curr := .inl ⟨hs, List.not_mem_nil⟩

theorem State.Inv.length_lt (h : s.Inv n) (hc : s.currVertex < n) : s.route.length < n := by
  have hnew : s.currVertex ∉ s.route := h.curr.elim And.right fun h' => absurd h'.1 hc.ne
  have hsub : (s.currVertex :: s.route).Subperm (List.range n) :=
    List.Nodup.subperm (List.nodup_cons.mpr ⟨hnew, h.nodup⟩)
      (List.forall_mem_cons.mpr ⟨List.mem_range.mpr hc, fun v hv => List.mem_range.mpr (h.lt v hv)⟩)
  exact Nat.lt_of_succ_le (by simpa using hsub.length_le)

/-- Where the ant may go next. -/
theorem State.Inv.mem_points (h : s.Inv n) :
    v ∈ getListPoints n (s.appendVertex s.currVertex).selectedVertices ↔
      v < n ∧ v ∉ s.route ++ [s.currVertex] := by
  rw [mem_getListPoints, State.appendVertex, List.mem_append, List.mem_singleton, ← h.selected]
  by_cases hv : v = s.currVertex <;> simp [hv]

/-- A round that goes on to a vertex that is left, or ends the route. -/
theorem State.Inv.next (h : s.Inv n) (hc : s.currVertex < n)
    (hv : v ∈ getListPoints n (s.appendVertex s.currVertex).selectedVertices ∨
      getListPoints n (s.appendVertex s.currVertex).selectedVertices = [] ∧ v = n) :
    State.Inv n { s.appendVertex s.currVertex with currVertex := v } where
  selected w := by
    simp only [State.appendVertex]
    rw [List.mem_append, List.mem_singleton, ← h.selected]
    by_cases hw : w = s.currVertex <;> simp [hw]
  nodup := by
    refine h.nodup.append (List.nodup_singleton _) fun w hw hwv => ?_
    obtain rfl := List.mem_singleton.mp hwv
    exact h.curr.elim (fun h' => h'.2 hw) fun h' => hc.ne h'.1
  lt w hw := (List.mem_append.mp hw).elim (h.lt w) fun hw => List.mem_singleton.mp hw ▸ hc
  curr := by
    rcases hv with hv | ⟨hnil, rfl⟩
    · exact .inl (h.mem_points.mp hv)
    · refine .inr ⟨rfl, fun w hw => ?_⟩
      by_contra hnew
      exact List.not_mem_nil (hnil ▸ h.mem_points.mpr ⟨hw, hnew⟩)

/-- One round that goes on. -/
def Rounds (pow : ValueType → ValueType → ValueType) (sort : (ℕ → ValueType) → List ℕ → List ℕ)
    (ant : Ant) (random : ℕ → ℕ) (s t : State) : Prop :=
  solveBody pow sort ant random s = some (.inl t)

/-- In every round that is reached, `get_next_point` gives a vertex where the ant has not been, or
`dimension` if it has been everywhere. -/
def PicksUnvisited (pow : ValueType → ValueType → ValueType)
    (sort : (ℕ → ValueType) → List ℕ → List ℕ) (ant : Ant) (random : ℕ → ℕ) : Prop :=
  ∀ s, Transition.Reaches (Rounds pow sort ant random) ant.start s → s.currVertex < ant.dimension →
    ∃ v, getNextPoint pow sort ant (s.appendVertex s.currVertex).selectedVertices s.currVertex
        (random s.route.length) = some v ∧
      (v < ant.dimension ∧ v ∉ s.route ++ [s.currVertex] ∨
        v = ant.dimension ∧ ∀ w < ant.dimension, w ∈ s.route ++ [s.currVertex])

/-- The weights that an ant divides are positive off the diagonal. -/
def Ant.Weighs (pow : ValueType → ValueType → ValueType) (ant : Ant) : Prop :=
  ∀ i < ant.dimension, ∀ j < ant.dimension, i ≠ j →
    0 < pow (ant.matrixTheta i j) ant.params.alpha / pow (ant.matrixDist i j) ant.params.beta

/-- One round. -/
theorem solveBody_cases (random : ℕ → ℕ) (hsort : ∀ row l, (sort row l).Perm l) (h : ant.Lists) (hw : ant.Weighs pow)
    (hinv : s.Inv ant.dimension) (hc : s.currVertex < ant.dimension) :
    ∃ v, getNextPoint pow sort ant (s.appendVertex s.currVertex).selectedVertices s.currVertex
        (random s.route.length) = some v ∧
      (v ∈ getListPoints ant.dimension (s.appendVertex s.currVertex).selectedVertices ∨
        getListPoints ant.dimension (s.appendVertex s.currVertex).selectedVertices = [] ∧
          v = ant.dimension) ∧
      Rounds pow sort ant random s { s.appendVertex s.currVertex with currVertex := v } := by
  have hweight : ∀ v ∈ getListPoints ant.dimension (s.appendVertex s.currVertex).selectedVertices,
      0 < pow (ant.matrixTheta s.currVertex v) ant.params.alpha /
        pow (ant.matrixDist s.currVertex v) ant.params.beta := fun v hv => by
    obtain ⟨hlt, hnew⟩ := hinv.mem_points.mp hv
    exact hw _ hc v hlt fun heq => hnew (by simp [heq])
  obtain ⟨v, hv, hmem⟩ := @getNextPoint_spec _ _ _ _ _ (random s.route.length) hsort h hweight
  refine ⟨v, hv, hmem, ?_⟩
  simp only [Rounds, solveBody, hc, if_true, hv, Option.map_some]

/-- What is reached keeps the invariant. -/
theorem State.Inv.reached (hsort : ∀ row l, (sort row l).Perm l) (h : ant.Lists)
    (hw : ant.Weighs pow) (hs : ant.startPoint < ant.dimension)
    (hr : Transition.Reaches (Rounds pow sort ant random) ant.start s) : s.Inv ant.dimension := by
  have hstep : Transition.Preserved (Rounds pow sort ant random) (State.Inv ant.dimension) := by
    intro s t hinv hst
    by_cases hc : s.currVertex < ant.dimension
    · obtain ⟨v, _, hv, hround⟩ := solveBody_cases random hsort h hw hinv hc
      obtain rfl := Sum.inl.inj (Option.some.inj (hround.symm.trans hst))
      exact hinv.next hc hv
    · simp only [Rounds, solveBody, hc, if_false] at hst
      exact nomatch Option.some.inj hst
  exact hstep.reaches (.initial hs) hr

/-- An ant with candidates finds a tour. -/
theorem solve_spec (hsort : ∀ row l, (sort row l).Perm l) (h : ant.Lists) (hw : ant.Weighs pow)
    (hs : ant.startPoint < ant.dimension) :
    PicksUnvisited pow sort ant random ∧ ∃ fuel sol,
      ant.solve pow sort random fuel = some sol ∧ Proper ant.dimension ant.matrixDist sol := by
  constructor
  · intro s hr hc
    have hinv := State.Inv.reached hsort h hw hs hr
    obtain ⟨v, hv, hmem, _⟩ := solveBody_cases random hsort h hw hinv hc
    refine ⟨v, hv, hmem.imp hinv.mem_points.mp fun ⟨hnil, hvn⟩ => ⟨hvn, fun w hlt => ?_⟩⟩
    by_contra hnew
    exact List.not_mem_nil (hnil ▸ hinv.mem_points.mpr ⟨hlt, hnew⟩)
  have hfuel : ant.dimension < (ant.dimension + 1).factorial + 1 :=
    Nat.lt_succ_of_lt ((Nat.lt_succ_self _).trans_le (Nat.self_le_factorial _))
  have hloop : ∃ s, Loop.iterate (solveBody pow sort ant random)
      ((ant.dimension + 1).factorial + 1) ant.start = some s ∧
      s.Inv ant.dimension ∧ s.currVertex = ant.dimension := by
    refine Loop.iterate_total (State.Inv ant.dimension) (fun s => ant.dimension - s.route.length)
      (fun s hinv => ?_) (.initial hs) ((Nat.sub_le ..).trans_lt hfuel)
    by_cases hc : s.currVertex < ant.dimension
    · obtain ⟨v, _, hv, hround⟩ := solveBody_cases random hsort h hw hinv hc
      refine .inl ⟨_, hround, hinv.next hc hv, ?_⟩
      have := hinv.length_lt hc
      show ant.dimension - (s.route ++ [s.currVertex]).length < _
      rw [List.length_append, List.length_singleton]
      omega
    · refine .inr ⟨s, by simp only [solveBody, hc, if_false], hinv, ?_⟩
      exact hinv.curr.elim (fun h' => absurd h'.1 hc) And.left
  obtain ⟨s, hrun, hinv, hcurr⟩ := hloop
  have hperm : s.route.Perm (List.range ant.dimension) := by
    refine (List.perm_ext_iff_of_nodup hinv.nodup List.nodup_range).mpr fun v => ?_
    rw [List.mem_range]
    exact ⟨hinv.lt v, hinv.curr.elim (fun h' => absurd hcurr h'.1.ne) (fun h' => h'.2 v)⟩
  obtain ⟨front, l, hroute⟩ : ∃ front l, s.route = front :: l :=
    List.exists_cons_of_length_pos (by rw [hperm.length_eq, List.length_range]; omega)
  have hproper : Proper ant.dimension ant.matrixDist
      ⟨calcValue ant.matrixDist (s.route ++ [front]), s.route ++ [front]⟩ :=
    ⟨⟨front, l, hroute ▸ hperm, by rw [hroute]; rfl⟩, rfl⟩
  obtain ⟨r, hopt, hr⟩ := hproper.twoOpt (Nat.lt_succ_self _)
  refine ⟨(ant.dimension + 1).factorial + 1, r.1, ?_, hr⟩
  have hsolve : ant.solve pow sort random ((ant.dimension + 1).factorial + 1) =
      (Loop.iterate (solveBody pow sort ant random) ((ant.dimension + 1).factorial + 1)
        ant.start).bind fun s => s.route.head?.bind fun front =>
          (twoOpt ((ant.dimension + 1).factorial + 1) ant.matrixDist
            ⟨calcValue ant.matrixDist (s.route ++ [front]), s.route ++ [front]⟩).bind
              fun r => some r.1 := rfl
  rw [hsolve, hrun, Option.bind_some, show s.route.head? = some front by rw [hroute]; rfl,
    Option.bind_some, hopt, Option.bind_some]

/-! ### An ant with new parameters -/

/-- A new ant lists a quarter of the vertices, whatever the factor it is given. -/
theorem lists_init (dist theta : ℕ → ℕ → ValueType) (start : ℕ) : (Ant.init {} dist theta n params start).Lists ↔
    params.candidateListFactor ≤ 0 ∨ 4 ≤ n := by
  refine or_congr_right ?_
  show ⌊(n : ValueType) * (1 / 4)⌋.toNat ≠ 0 ↔ 4 ≤ n
  rw [Ne, Int.toNat_eq_zero, not_le, Int.floor_pos, ← div_eq_mul_one_div, one_le_div (by norm_num)]
  exact_mod_cast Iff.rfl

/-- A new ant always finds a vertex that is left, and in the end a tour, if and only if there is no
candidate list or there are at least four vertices. -/
theorem solve_iff (hn : 2 ≤ n) (hs : start < n)
    (hdist : ∀ i < n, ∀ j < n, i ≠ j → 0 < dist i j)
    (htheta : ∀ i < n, ∀ j < n, i ≠ j → 0 < theta i j) (hpow : ∀ x a, 0 < x → 0 < pow x a)
    (hsort : ∀ row l, (sort row l).Perm l) :
    PicksUnvisited pow sort (.init {} dist theta n params start) random ∧
        (∃ fuel sol, (Ant.init {} dist theta n params start).solve pow sort random fuel = some sol ∧
          Proper n dist sol) ↔
      params.candidateListFactor ≤ 0 ∨ 4 ≤ n := by
  rw [← lists_init dist theta start]
  constructor
  · rintro ⟨hpicks, _⟩
    by_contra hlists
    obtain ⟨v, hv, _⟩ := hpicks _ .refl hs
    have hne : getListPoints n ((Ant.init {} dist theta n params start).start.appendVertex
        start).selectedVertices ≠ [] := by
      refine List.ne_nil_of_mem (a := if start = 0 then 1 else 0)
        ((State.Inv.initial (n := n) hs).mem_points.mpr ?_)
      show _ ∧ _ ∉ [start]
      split <;> simp <;> omega
    exact absurd (hv.symm.trans (getNextPoint_none hlists hne)) nofun
  · intro hlists
    exact solve_spec hsort hlists (fun i hi j hj hij =>
      div_pos (hpow _ _ (htheta i hi j hj hij)) (hpow _ _ (hdist i hi j hj hij))) hs

/-- A sort by the distances, as `std::sort` is asked for. -/
def sortByRow (row : ℕ → ValueType) (l : List ℕ) : List ℕ := l.mergeSort fun a b => row a ≤ row b

theorem solve_iff_four :
    PicksUnvisited (fun x _ => x) sortByRow (.init {} 1 1 4 {} 2) (37 * ·) ∧
        ∃ fuel sol, (Ant.init {} 1 1 4 {} 2).solve (fun x _ => x) sortByRow (37 * ·)
          fuel = some sol ∧ Proper 4 1 sol :=
  (solve_iff (by decide) (by decide) (fun _ _ _ _ _ => one_pos) (fun _ _ _ _ _ => one_pos)
    (fun _ _ h => h) fun _ l => l.mergeSort_perm _).mpr (.inr le_rfl)

/-- With three vertices the default parameters give an empty candidate list. -/
theorem solve_fails_three :
    ¬ ∃ fuel sol, (Ant.init {} 1 1 3 {} 0).solve (fun x _ => x) sortByRow (fun _ => 0)
      fuel = some sol := by
  rintro ⟨fuel, sol, h⟩
  have hbody : solveBody (fun x _ => x) sortByRow (Ant.init {} 1 1 3 {} 0) (fun _ => 0)
      (Ant.init {} 1 1 3 {} 0).start = none :=
    congrArg (Option.map _) (getNextPoint_none (mt (lists_init 1 1 0).mp (by norm_num)) (by decide))
  cases fuel with
  | zero => cases h
  | succ fuel =>
    simp only [Ant.solve, Loop.iterate, hbody] at h
    cases h

end Optimer.AcoTsp
