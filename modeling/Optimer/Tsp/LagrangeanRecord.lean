import Optimer.Tsp.HamiltonianCycle
import Optimer.Tsp.LagrangeanRounds
import Optimer.Tsp.SymmetricSearch

/-! The record that `LagrangeanSolver` installs is the cost of the tour it has found. In the first round
nothing is penalised; after it the included edges alone are free, and since they have no cycle away from `0`
and are at most two at `0`, a minimum 1-tree has them all. -/

namespace Optimer.Stsp
open Optimer.Tsp SpanningTree

variable {n i j : ℕ} {p : ℕ → ℕ} {edges other : List Edge} {matrix initial : ℕ → ℕ → ValueType}
  {oneTree : (ℕ → ℕ → ValueType) → ℕ → MSOneTree.Solution ValueType}

theorem Relaxed.of_isMin {value : ValueType} (h : IsMinOneTree n matrix value edges) : Relaxed n edges :=
  ⟨h.oneTree, h.length, h.nodup⟩

namespace LagrangeanRelaxation

variable {ub eps : ValueType} {included : List Edge} {s t : State} {maxIter : ℕ}

/-! ### The matrix of a round -/

theorem includeEdges_of_adj (h : Adj included i j) : (includeEdges matrix included).2 i j = 0 := by
  have hloop : ∀ s : ValueType × (ℕ → ℕ → ValueType), Adj included i j ∨ s.2 i j = 0 →
      (included.foldl includeEdge s).2 i j = 0 := by
    clear h
    induction included with
    | nil =>
      rintro s (h | h)
      exacts [absurd h (by simp [Adj]), h]
    | cons e included ih =>
      intro s hs
      refine ih (includeEdge s e) ?_
      show Adj included i j ∨ setEdge s.2 e 0 i j = 0
      unfold setEdge
      split
      · exact .inr rfl
      · next hne =>
        refine hs.imp_left fun hadj => ?_
        rcases hadj with hadj | hadj <;> rcases List.mem_cons.mp hadj with heq | hadj
        exacts [absurd (.inl heq) hne, .inl hadj, absurd (.inr heq) hne, .inr hadj]
  exact hloop (0, matrix) (.inl h)

theorem includeEdges_of_not_adj (h : ¬ Adj included i j) :
    (includeEdges matrix included).2 i j = matrix i j := by
  have hloop : ∀ s : ValueType × (ℕ → ℕ → ValueType),
      (included.foldl includeEdge s).2 i j = s.2 i j := by
    induction included with
    | nil => exact fun s => rfl
    | cons e included ih =>
      intro s
      have hrest : ¬ Adj included i j := mt (Adj.mono fun _ => List.mem_cons_of_mem _) h
      rw [List.foldl_cons, ih hrest]
      refine if_neg fun he => h ?_
      rcases he with rfl | rfl
      exacts [.inl List.mem_cons_self, .inr List.mem_cons_self]
  exact hloop (0, matrix)

/-- What `nextState` sets: the penalty and the matrix for the multipliers. -/
structure Weighted (initial : ℕ → ℕ → ValueType) (included : List Edge) (s : State) : Prop where
  penalty : s.includedEdgesPenalty = (includeEdges (multiplied initial s.lambda) included).1
  matrix : s.matrix = (includeEdges (multiplied initial s.lambda) included).2

theorem value_eq : (roundSolution oneTree n s).value = s.includedEdgesPenalty +
    SpanningTree.cost s.matrix (oneTree s.matrix n).edges - 2 * ∑ i ∈ Finset.range n, s.lambda i :=
  rfl

theorem value_start : (roundSolution oneTree n (start initial)).value =
    SpanningTree.cost initial (oneTree initial n).edges := by
  rw [value_eq]
  simp [start]

/-- A tour is worth its cost in the first round, and later if it passes all included edges. -/
theorem Priced.value_eq_cost (P : Priced n initial included s)
    (hin : Within n (roundSolution oneTree n s).edges) (hp : IsTour n p)
    (hperm : ((roundSolution oneTree n s).edges.map fun e => s(e.1, e.2)).Perm
      ((List.range n).map fun i => s(i, p i)))
    (hcase : s = start initial ∨ ∀ e ∈ included, Adj (roundSolution oneTree n s).edges e.1 e.2) :
    (roundSolution oneTree n s).value = Tsp.cost n initial p := by
  have hcost : SpanningTree.cost s.matrix (oneTree s.matrix n).edges = Tsp.cost n s.matrix p :=
    cost_of_perm P.symm hin hp hperm
  rw [value_eq, hcost]
  rcases hcase with rfl | hadj
  · simp [start]
  · rw [P.cost_eq p hp fun e he => (adj_iff_passes hperm).mp (hadj e he)]
    ring

/-! ### The multipliers -/

theorem sumGradient_pos (h : rightDegrees n edges = false) : 0 < sumGradient n edges := by
  obtain ⟨i, hi, hne⟩ := List.all_eq_false.mp h
  have hne : (degrees edges i : ℤ) - tourDegree ≠ 0 := by
    rw [decide_eq_true_eq] at hne
    omega
  have hmem := List.mem_map_of_mem (f := fun i => ((degrees edges i : ℤ) - tourDegree) ^ 2) hi
  refine lt_of_lt_of_le (by positivity) (List.single_le_sum (fun x hx => ?_) _ hmem)
  obtain ⟨j, _, rfl⟩ := List.mem_map.mp hx
  exact sq_nonneg _

section Contract

variable (hone : ∀ m, SymmetricOn n m → IsMinOneTree n m (oneTree m n).value (oneTree m n).edges)
  (hn : 3 ≤ n) (hsymm : SymmetricOn n initial) (hpos : ∀ i < n, ∀ j < n, 0 ≤ initial i j)
  (hin : Within n included)

include hone hn hsymm hpos hin

/-- As long as no multiplier has moved, the value is not below that of the first round. -/
theorem Weighted.le_value (W : Weighted initial included s) (hzero : s.lambda = fun _ => 0) :
    (roundSolution oneTree n (start initial)).value ≤ (roundSolution oneTree n s).value := by
  have hmult := multiplied_symm hsymm (n := n) fun _ => 0
  have hpenalty := W.penalty
  have hmatrix := W.matrix
  rw [hzero] at hpenalty hmatrix
  have hmin : IsMinOneTree n s.matrix (oneTree s.matrix n).value (oneTree s.matrix n).edges :=
    hone _ (hmatrix ▸ (includeEdges_spec included hmult hn).1)
  have R := Relaxed.of_isMin hmin
  have hsame : SpanningTree.cost (multiplied initial fun _ => 0) (oneTree s.matrix n).edges =
      SpanningTree.cost initial (oneTree s.matrix n).edges := by
    refine congrArg List.sum (List.map_congr_left fun e he => ?_)
    rw [multiplied, if_neg (R.ne he), add_zero, add_zero]
  have hnonneg : ∀ i < n, ∀ j < n, 0 ≤ multiplied initial (fun _ => 0) i j := by
    intro i hi j hj
    unfold multiplied
    split
    exacts [Costs.mVal_pos.le, by simpa using hpos i hi j hj]
  calc (roundSolution oneTree n (start initial)).value
      = (oneTree initial n).value := value_start.trans (hone _ hsymm).value_eq.symm
    _ ≤ SpanningTree.cost initial (oneTree s.matrix n).edges := (hone _ hsymm).least _ R.oneTree
    _ = SpanningTree.cost (multiplied initial fun _ => 0) (oneTree s.matrix n).edges := hsame.symm
    _ ≤ s.includedEdgesPenalty + SpanningTree.cost s.matrix (oneTree s.matrix n).edges := by
        have hle := cost_includeEdges_le R.distinct R.within hmult hnonneg hin
        rwa [← hpenalty, ← hmatrix] at hle
    _ = (roundSolution oneTree n s).value := by
        rw [value_eq, hzero]
        simp

/-- What holds where a later round starts: the multipliers have moved, or the first round was at the
upper bound and none of them ever moves. -/
structure Later (oneTree : (ℕ → ℕ → ValueType) → ℕ → MSOneTree.Solution ValueType)
    (initial : ℕ → ℕ → ValueType) (n : ℕ) (ub : ValueType) (included : List Edge) (s : State) : Prop where
  iter : 1 ≤ s.iter
  weighted : Weighted initial included s
  lambda : (∀ i < n, 0 < s.lambda i) ∨
    (s.lambda = fun _ => 0) ∧ ub ≤ (roundSolution oneTree n (start initial)).value

theorem Rounds.later (heps : 0 ≤ eps) (h : Rounds oneTree initial n ub eps included maxIter s) :
    s = LagrangeanRelaxation.start initial ∨ Later oneTree initial n ub included s := by
  induction h with
  | start => exact .inl rfl
  | @next s t hs hlt ht ih =>
    obtain ⟨R, P⟩ := hs.spec hn hsymm hpos hin heps
    have hrelaxed : Relaxed n (roundSolution oneTree n s).edges := .of_isMin (hone _ P.symm)
    rcases body_cases (s := s) with ⟨_, hb, _⟩ | ⟨hle, hdeg, hb⟩ <;> rw [hb] at ht
    · exact nomatch ht
    obtain rfl := Sum.inl.inj ht
    refine .inr ⟨Nat.succ_pos _, ⟨rfl, rfl⟩, ?_⟩
    rcases ((le_add_of_nonneg_right heps).trans hle).lt_or_eq with hbelow | heq
    · have hstep : 0 < step n ub s (roundSolution oneTree n s) :=
        div_pos (mul_pos (R.alpha_pos hlt) (sub_pos.mpr hbelow)) (by exact_mod_cast sumGradient_pos hdeg)
      refine .inl fun i hi => add_pos_of_nonneg_of_pos (R.lambda i) (mul_pos hstep ?_)
      exact_mod_cast hrelaxed.degree_pos (Nat.le_of_succ_le hn) hi
    · have hstep : step n ub s (roundSolution oneTree n s) = 0 := by
        rw [step, heq, sub_self, mul_zero, zero_div]
      have hsame : (nextState initial n ub (alphaReduce maxIter) included s
          (roundSolution oneTree n s)).lambda = s.lambda := by
        funext i
        show s.lambda i + step n ub s (roundSolution oneTree n s) * _ = _
        rw [hstep, zero_mul, add_zero]
      rw [hsame]
      rcases ih with rfl | L
      exacts [.inr ⟨rfl, heq.ge⟩, L.lambda]

/-- A 1-tree of a later round that is below the upper bound has all included edges, if they are edges of
some 1-tree. -/
theorem Later.adj (L : Later oneTree initial n ub included s) (hs : SymmetricOn n s.matrix)
    (hlow : (roundSolution oneTree n s).value < ub) (hother : IsOneTree n other)
    (hincluded : ∀ e ∈ included, Adj other e.1 e.2) :
    ∀ e ∈ included, Adj (roundSolution oneTree n s).edges e.1 e.2 := by
  rcases L.lambda with hmoved | ⟨hzero, hle⟩
  · refine fun e he => (hone _ hs).adj_of_cheap hother hincluded (fun i j k l hij hk hl hkl hno => ?_) he
    rw [L.weighted.matrix, includeEdges_of_adj hij, includeEdges_of_not_adj hno, multiplied, if_neg hkl]
    have hk := hmoved k hk
    have hl := hmoved l hl
    have := hpos k ‹_› l ‹_›
    linarith
  · have hfirst := L.weighted.le_value hone hn hsymm hpos hin hzero
    exact absurd (hle.trans hfirst) (not_le.mpr hlow)

/-- A tour that a round finds below the upper bound is worth its cost. -/
theorem Rounds.value_eq_cost (heps : 0 ≤ eps)
    (h : Rounds oneTree initial n ub eps included maxIter s) (hlt : s.iter < maxIter)
    (hlow : (roundSolution oneTree n s).value < ub) (hother : IsOneTree n other)
    (hincluded : 2 ≤ maxIter → ∀ e ∈ included, Adj other e.1 e.2) (hp : IsTour n p)
    (hperm : ((roundSolution oneTree n s).edges.map fun e => s(e.1, e.2)).Perm
      ((List.range n).map fun i => s(i, p i))) :
    (roundSolution oneTree n s).value = Tsp.cost n initial p := by
  have P := h.priced hn hsymm
  refine P.value_eq_cost (Relaxed.of_isMin (hone _ P.symm)).within hp hperm
    ((h.later hone hn hsymm hpos hin heps).imp_right fun L => ?_)
  exact L.adj hone hn hsymm hpos hin P.symm hlow hother (hincluded (by have := L.iter; omega))

end Contract

end LagrangeanRelaxation

/-! ### The nodes that `branch` reaches -/

section Branch

variable {data : InitialData} {params : Parameters} {rule : BranchingRule} {node new m : Node}
  {r record : ValueType} {sol : Solution} {b b' : Branched Node} {news : List Node}

/-- What `transform_node` makes of a new node with the included edges of some 1-tree. -/
structure Tight (data : InitialData) (params : Parameters) (new : Node) (r : ValueType) (m : Node) :
    Prop where
  included : m.includedEdges = new.includedEdges
  relaxed : Relaxed data.rank m.data.relaxation
  value : m.data.value + params.epsilon < r → r ≤ mVal →
    ∀ route, buildTour m.data.relaxation = some route → route ≠ [] →
      ClosedRoute data.rank route ∧ m.data.value = calcValue data.matrix route
  adj : m.data.value + params.epsilon < r → buildTour m.data.relaxation = some [] →
    2 ≤ params.gradientMaxIters → ∀ e ∈ new.includedEdges, Adj m.data.relaxation e.1 e.2

/-- What holds of every node: with more than one round its relaxation has all included edges. -/
structure Carries (data : InitialData) (params : Parameters) (node : Node) : Prop where
  relaxed : Relaxed data.rank node.data.relaxation
  within : Within data.rank node.includedEdges
  adj : 2 ≤ params.gradientMaxIters → ∀ e ∈ node.includedEdges, Adj node.data.relaxation e.1 e.2

/-- The nodes that `branch` returns, from the root on, whatever the records and the solutions of the
calls. -/
inductive Reached (oneTree : (ℕ → ℕ → ValueType) → ℕ → MSOneTree.Solution ValueType)
    (data : InitialData) (params : Parameters) (rule : BranchingRule) : Node → Prop
  | root {r : ValueType} {node : Node} :
      transformNode oneTree data.rank data.matrix params (.root {}) r = some node →
        Reached oneTree data params rule node
  | child {node m : Node} {r : ValueType} {sol : Solution} {b : Branched Node} :
      Reached oneTree data params rule node → branch oneTree data params rule node r sol = some b →
        m ∈ b.nodes → Reached oneTree data params rule m

/-- A round of the loop of `branch` in which `build_solution` lowers the record, with the states before
and after it. -/
structure Lowers (oneTree : (ℕ → ℕ → ValueType) → ℕ → MSOneTree.Solution ValueType)
    (data : InitialData) (params : Parameters) (rule : BranchingRule) (node : Node) (record : ValueType)
    (sol : Solution) (b b' : Branched Node) : Prop where
  entered : node.data.value + params.epsilon < record
  round : ∃ done new rest, rule.nodes data.rank data.matrix node = some (done ++ new :: rest) ∧
    done.foldlM (branchChild (transformNode oneTree data.rank data.matrix params) params.epsilon)
      { record, sol, nodes := [], released := [] } = some b ∧
    branchChild (transformNode oneTree data.rank data.matrix params) params.epsilon b new = some b'
  lt : b'.record < b.record

/-- A tour below `M_VAL` passes no excluded edge. -/
theorem cost_excludeEdges_of_lt (hc : Costs data) (hp : IsTour data.rank p)
    (hlt : Tsp.cost data.rank (excludeEdges data.matrix edges) p < mVal) :
    Tsp.cost data.rank (excludeEdges data.matrix edges) p = Tsp.cost data.rank data.matrix p := by
  have hpos : ∀ i ∈ Finset.range data.rank, 0 ≤ excludeEdges data.matrix edges i (p i) := fun i hi =>
    excludeEdges_nonneg hc (Finset.mem_range.mp hi) (hp.perm.lt (Finset.mem_range.mp hi))
  refine Finset.sum_congr rfl fun i hi => ?_
  have hle := (Finset.single_le_sum hpos hi).trans_lt hlt
  rw [excludeEdges_apply] at hle ⊢
  split
  · next hex =>
    rw [if_pos hex] at hle
    exact absurd hle (lt_irrefl _)
  · rfl

/-- A route along a tour that costs less than `M_VAL` without the excluded edges has this value. -/
theorem route_of_lt {v : ValueType} (hn : 0 < data.rank) (hc : Costs data) (hp : IsTour data.rank p)
    (hvalue : v = Tsp.cost data.rank (excludeEdges data.matrix edges) p) (hlt : v < mVal) :
    ClosedRoute data.rank ((List.range (data.rank + 1)).map fun k => p^[k] 0) ∧
      v = calcValue data.matrix ((List.range (data.rank + 1)).map fun k => p^[k] 0) := by
  obtain ⟨hclosed, hcalc⟩ := closedRoute_iterates hp hn data.matrix
  exact ⟨hclosed, hvalue.trans ((cost_excludeEdges_of_lt hc hp (hvalue ▸ hlt)).trans hcalc.symm)⟩

section Contract

variable (hone : ∀ m, SymmetricOn data.rank m →
    IsMinOneTree data.rank m (oneTree m data.rank).value (oneTree m data.rank).edges)
  (hn : 3 ≤ data.rank) (hsymm : SymmetricOn data.rank data.matrix) (hc : Costs data)
  (heps : 0 ≤ params.epsilon)

include hone hn hsymm hc heps

open LagrangeanRelaxation in
theorem transformNode_tight (hin : Within data.rank new.includedEdges) (hother : IsOneTree data.rank other)
    (hincluded : 2 ≤ params.gradientMaxIters → ∀ e ∈ new.includedEdges, Adj other e.1 e.2)
    (h : transformNode oneTree data.rank data.matrix params new r = some m) :
    Tight data params new r m := by
  obtain ⟨closed, s, _, hs, hlt, rfl, hstop⟩ := transformNode_cases h
  have hmsymm : SymmetricOn data.rank (excludeEdges data.matrix closed) := excludeEdges_symm hsymm
  have hpos : ∀ i < data.rank, ∀ j < data.rank, 0 ≤ excludeEdges data.matrix closed i j :=
    fun i hi j hj => excludeEdges_nonneg hc hi hj
  have P := (hs.spec hn hmsymm hpos hin heps).2
  have hrelaxed : Relaxed data.rank (roundSolution oneTree data.rank s).edges := .of_isMin (hone _ P.symm)
  have hbelow : ∀ {v : ValueType}, v + params.epsilon < r → v < r := fun h =>
    (le_add_of_nonneg_right heps).trans_lt h
  constructor
  case included => exact Node.includedEdges_solved _ _
  case relaxed => rwa [Node.data_solved]
  case value =>
    rw [Node.data_solved]
    intro hlow hr route hroute hne
    obtain ⟨p, hp, rfl, hperm⟩ := buildTour_sound hn hrelaxed.length hroute hne
    have hvalue := hs.value_eq_cost hone hn hmsymm hpos hin heps hlt (hbelow hlow) hother hincluded hp hperm
    exact route_of_lt (Nat.zero_lt_of_lt hn) hc hp hvalue ((hbelow hlow).trans_le hr)
  case adj =>
    rw [Node.data_solved]
    intro hlow hopen htwo
    -- A round that stops here has found a tour, so this is the last one.
    have hlast : s.iter + 1 = params.gradientMaxIters := by
      refine hstop.resolve_right fun hstop => hstop.elim hlow.not_gt fun hdeg => ?_
      refine hrelaxed.buildTour_ne_nil hn (fun v hv => ?_) hopen
      exact of_decide_eq_true (List.all_eq_true.mp hdeg v (List.mem_range.mpr hv))
    rcases hs.later hone hn hmsymm hpos hin heps with rfl | L
    · simp only [LagrangeanRelaxation.start] at hlast
      omega
    · exact L.adj hone hn hmsymm hpos hin P.symm (hbelow hlow) hother (hincluded htwo)

omit hone hn hsymm hc heps in
/-- The new nodes of a node include edges of its relaxation. -/
theorem Carries.newNodes (C : Carries data params node)
    (hnews : rule.nodes data.rank data.matrix node = some news) (hnew : new ∈ news) :
    Within data.rank new.includedEdges ∧
      (2 ≤ params.gradientMaxIters → ∀ e ∈ new.includedEdges, Adj node.data.relaxation e.1 e.2) := by
  obtain ⟨included, _, rfl, hcut⟩ := BranchingRule.nodes_cut hnews hnew
  refine ⟨fun e he => ?_, fun htwo e he => ?_⟩ <;> rcases List.mem_append.mp he with he | he
  exacts [C.relaxed.within e (hcut.mem he), C.within e he, .inl (hcut.mem he), C.adj htwo e he]

theorem Reached.carries (h : Reached oneTree data params rule node) : Carries data params node := by
  induction h with
  | root hroot =>
    have T := transformNode_tight hone hn hsymm hc heps
      (fun _ he => absurd he List.not_mem_nil) (hone _ hsymm).oneTree
      (fun _ _ he => absurd he List.not_mem_nil) hroot
    refine ⟨T.relaxed, ?_, fun _ => ?_⟩ <;> rw [T.included]
    exacts [fun _ he => absurd he List.not_mem_nil, fun _ he => absurd he List.not_mem_nil]
  | @child node m r sol b _ hrun hm C =>
    unfold branch at hrun
    split at hrun
    · obtain rfl := Option.some.inj hrun
      exact absurd hm List.not_mem_nil
    obtain ⟨news, hnews, hrun⟩ := Option.bind_eq_some_iff.mp hrun
    obtain ⟨new, hnew, r', _, _, htransform, hlow, hopen⟩ :=
      ((branchChildren_processed heps hrun).nodes m hm).resolve_left List.not_mem_nil
    obtain ⟨hwithin, hadj⟩ := C.newNodes hnews hnew
    have T := transformNode_tight hone hn hsymm hc heps hwithin C.relaxed.oneTree hadj htransform
    refine ⟨T.relaxed, ?_, fun htwo => ?_⟩ <;> rw [T.included]
    exacts [hwithin, T.adj hlow hopen htwo]

end Contract

/-- Whenever `branch` lowers the record at a node it reaches, the new record is what the route of the
solution costs. The engines start from a record of at most the greedy value, which is below `M_VAL`, and only
lower it. -/
theorem record_eq_cost
    (hone : ∀ m, SymmetricOn data.rank m →
      IsMinOneTree data.rank m (oneTree m data.rank).value (oneTree m data.rank).edges)
    (hn : 3 ≤ data.rank) (hsymm : SymmetricOn data.rank data.matrix) (hc : Costs data)
    (heps : 0 ≤ params.epsilon)
    (hnode : Reached oneTree data params rule node) (hrecord : record ≤ mVal)
    (h : Lowers oneTree data params rule node record sol b b') :
    b'.record = calcValue data.matrix b'.sol.route := by
  obtain ⟨_, ⟨done, new, rest, hnews, hdone, hround⟩, hlt⟩ := h
  have C := hnode.carries hone hn hsymm hc heps
  obtain ⟨hwithin, hadj⟩ := C.newNodes hnews (List.mem_append_right done (List.mem_cons_self (l := rest)))
  have hle : b.record ≤ mVal := (branchChildren_processed heps hdone).le.trans hrecord
  obtain ⟨m, hm, ⟨_, rfl⟩ | ⟨hopen, route, hroute, ⟨_, rfl⟩ | ⟨hne, rfl⟩⟩⟩ := branchChild_cases hround
  · exact absurd hlt (lt_irrefl _)
  · exact absurd hlt (lt_irrefl _)
  · have T := transformNode_tight hone hn hsymm hc heps hwithin C.relaxed.oneTree hadj hm
    exact (T.value hopen hle route hroute hne).2

end Branch

/-- Three vertices, whose only tour costs `7`. -/
def triangleData : InitialData where
  matrix i j := if i = j then mVal else MSOneTree.nearCosts i j
  rank := 3
  size_lt := size_lt_three

theorem triangleData_costs : SymmetricOn 3 triangleData.matrix ∧ Costs triangleData :=
  ⟨by decide +kernel, .of_le (fun _ _ => if_pos rfl) (x := 4) (by decide +kernel)
    (by norm_num [triangleData, mVal])⟩

/-- The first new node of the root is the tour. -/
theorem triangleData_round : ((transformNode triangle 3 triangleData.matrix {} (.root {}) 20).bind
    fun node => (BranchingRule.rule2.nodes 3 triangleData.matrix node).bind fun news =>
      news.head?.bind fun new => (branchChild (transformNode triangle 3 triangleData.matrix {}) 0
        { record := 20, sol := {}, nodes := [], released := [] } new).map fun b =>
          (node.data.value, b.record)) = some (7, 7) := by
  decide +kernel

theorem record_eq_cost_triangle : (triangle triangleData.matrix 3).edges =
    (MSOneTree.solve triangleData.matrix 3).edges ∧ ∃ (node : Node) (b : Branched Node),
      Reached triangle triangleData {} .rule2 node ∧
        b.record = calcValue triangleData.matrix b.sol.route ∧ b.record = 7 := by
  refine ⟨by decide +kernel, ?_⟩
  obtain ⟨node, hnode, h⟩ := Option.bind_eq_some_iff.mp triangleData_round
  obtain ⟨news, hnews, h⟩ := Option.bind_eq_some_iff.mp h
  obtain ⟨new, hnew, h⟩ := Option.bind_eq_some_iff.mp h
  obtain ⟨b, hb, hpair⟩ := Option.map_eq_some_iff.mp h
  obtain ⟨rest, rfl⟩ := List.head?_eq_some_iff.mp hnew
  obtain ⟨hvalue, hrecord⟩ := Prod.mk.inj hpair
  have hreached : Reached triangle triangleData {} .rule2 node := .root hnode
  have hlowers : Lowers triangle triangleData {} .rule2 node 20 {}
      { record := 20, sol := {}, nodes := [], released := [] } b :=
    ⟨by rw [hvalue]; decide +kernel, ⟨[], new, rest, hnews, rfl, hb⟩, by rw [hrecord]; decide +kernel⟩
  exact ⟨node, b, hreached, record_eq_cost (fun _ => triangle_isMin) (Nat.le_refl 3)
    triangleData_costs.1 triangleData_costs.2 le_rfl hreached (by decide +kernel) hlowers,
    hrecord⟩

end Optimer.Stsp
