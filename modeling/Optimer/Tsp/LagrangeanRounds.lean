import Optimer.Tsp.LagrangeanBound
import Optimer.Tsp.OneTreeShape
import Optimer.Tsp.SymmetricBranch

/-! The rounds of `LagrangeanRelaxation::solve` on matrices without negative entries: the multipliers only
grow, so that no tour gets cheaper, and `transform_node` finds tours at no less than their cost. -/

namespace Optimer.Stsp
open Optimer.Tsp Finset

variable {n i j u : ℕ} {p : ℕ → ℕ} {e : Edge} {edges : List Edge} {matrix m : ℕ → ℕ → ValueType}
  {node : Node} {oneTree : (ℕ → ℕ → ValueType) → ℕ → MSOneTree.Solution ValueType}

theorem closeEdges_eq {adj : ℕ → List ℕ} (h : closeEdges n adj matrix u = some m) :
    ∃ closed, m = excludeEdges matrix closed := by
  rcases hadj : adj u with - | ⟨a, - | ⟨b, - | ⟨c, l⟩⟩⟩
  case cons.cons.nil => exact ⟨_, Option.some.inj (h.symm.trans (closeEdges_two hadj))⟩
  all_goals
    simp only [closeEdges, hadj] at h
    split at h
    · exact ⟨[], (Option.some.inj h).symm⟩
    · cases h

/-- The matrix of a node is the original one without some edges. -/
theorem nodeMatrix_eq (h : nodeMatrix n matrix node = some m) : ∃ closed, m = excludeEdges matrix closed := by
  have hloop : ∀ (l : List ℕ) (m₀ : ℕ → ℕ → ValueType),
      l.foldlM (closeEdges n (adjacencyList node.includedEdges)) m₀ = some m →
        ∃ closed, m = excludeEdges m₀ closed := by
    intro l
    induction l with
    | nil => exact fun m₀ h₀ => ⟨[], (Option.some.inj h₀).symm⟩
    | cons u l ih =>
      intro m₀ h₀
      rw [List.foldlM_cons] at h₀
      obtain ⟨m₁, hm₁, hm⟩ := Option.bind_eq_some_iff.mp h₀
      obtain ⟨closed₁, rfl⟩ := closeEdges_eq hm₁
      obtain ⟨closed, rfl⟩ := ih _ hm
      exact ⟨closed₁ ++ closed, (List.foldl_append ..).symm⟩
  obtain ⟨closed, rfl⟩ := hloop _ _ h
  exact ⟨node.excludedEdges ++ closed, (List.foldl_append ..).symm⟩

namespace LagrangeanRelaxation

variable {initial : ℕ → ℕ → ValueType} {ub eps : ValueType} {included : List Edge} {s t : State}
  {maxIter : ℕ}

/-- `alpha_reduce`. -/
abbrev alphaReduce (maxIter : ℕ) : ValueType := (alphaStartValue - 1 / 100) / maxIter

/-- The states in which `solve` starts a round. -/
inductive Rounds (oneTree : (ℕ → ℕ → ValueType) → ℕ → MSOneTree.Solution ValueType)
    (initial : ℕ → ℕ → ValueType) (n : ℕ) (ub eps : ValueType) (included : List Edge) (maxIter : ℕ) :
    State → Prop
  | start : Rounds oneTree initial n ub eps included maxIter (start initial)
  | next {s t : State} : Rounds oneTree initial n ub eps included maxIter s → s.iter < maxIter →
      body oneTree initial n ub eps (alphaReduce maxIter) included s = .inl t →
        Rounds oneTree initial n ub eps included maxIter t

/-! ### Tours do not get cheaper -/

theorem setEdge_of_ne {f : Edge} {x : ValueType} (h : s(f.1, f.2) ≠ s(e.1, e.2)) :
    setEdge matrix e x f.1 f.2 = matrix f.1 f.2 := by
  refine if_neg fun h' => h ?_
  rcases h' with rfl | rfl
  exacts [rfl, Sym2.eq_swap]

/-- An edge that is set to zero takes no more than its cost from edges that are all different. -/
theorem cost_setEdge_le (hdist : Distinct edges) (hin : Within n edges) (hsymm : SymmetricOn n matrix)
    (hpos : 0 ≤ matrix e.1 e.2) :
    SpanningTree.cost matrix edges ≤
      matrix e.1 e.2 + SpanningTree.cost (setEdge matrix e 0) edges := by
  induction edges with
  | nil => exact le_add_of_nonneg_left hpos
  | cons f edges ih =>
    obtain ⟨hnot, hdist⟩ := List.nodup_cons.mp hdist
    obtain ⟨⟨h1, h2⟩, hin⟩ := List.forall_mem_cons.mp hin
    by_cases hfe : s(f.1, f.2) = s(e.1, e.2)
    · have hrest : SpanningTree.cost (setEdge matrix e 0) edges = SpanningTree.cost matrix edges :=
        congrArg List.sum (List.map_congr_left fun g hg =>
          setEdge_of_ne fun heq => hnot (List.mem_map.mpr ⟨g, hg, heq.trans hfe.symm⟩))
      have hsame : matrix f.1 f.2 = matrix e.1 e.2 := by
        rcases Sym2.eq_iff.mp hfe with ⟨h, h'⟩ | ⟨h, h'⟩
        exacts [h ▸ h' ▸ rfl, h ▸ h' ▸ hsymm _ h1 _ h2]
      have hzero : setEdge matrix e 0 f.1 f.2 = 0 := by
        refine if_pos ?_
        rcases Sym2.eq_iff.mp hfe with ⟨h, h'⟩ | ⟨h, h'⟩
        exacts [.inl (Prod.ext h h'), .inr (Prod.ext h' h)]
      show matrix f.1 f.2 + SpanningTree.cost matrix edges ≤
        matrix e.1 e.2 + (setEdge matrix e 0 f.1 f.2 + SpanningTree.cost (setEdge matrix e 0) edges)
      rw [hrest, hsame, hzero, zero_add]
    · have hle := ih hdist hin
      show matrix f.1 f.2 + SpanningTree.cost matrix edges ≤
        matrix e.1 e.2 + (setEdge matrix e 0 f.1 f.2 + SpanningTree.cost (setEdge matrix e 0) edges)
      rw [setEdge_of_ne hfe]
      linarith

/-- Edges that are all different cost no more than with the included ones set to zero and paid for. -/
theorem cost_includeEdges_le (hdist : Distinct edges) (hedges : Within n edges)
    (hsymm : SymmetricOn n matrix) (hpos : ∀ i < n, ∀ j < n, 0 ≤ matrix i j) (hin : Within n included) :
    SpanningTree.cost matrix edges ≤
      (includeEdges matrix included).1 + SpanningTree.cost (includeEdges matrix included).2 edges := by
  have hloop : ∀ s : ValueType × (ℕ → ℕ → ValueType), SymmetricOn n s.2 →
      (∀ i < n, ∀ j < n, 0 ≤ s.2 i j) → s.1 + SpanningTree.cost s.2 edges ≤
        (included.foldl includeEdge s).1 + SpanningTree.cost (included.foldl includeEdge s).2 edges := by
    induction included with
    | nil => exact fun s _ _ => le_rfl
    | cons e included ih =>
      intro s hs hpos
      obtain ⟨⟨h1, h2⟩, hin⟩ := List.forall_mem_cons.mp hin
      refine le_trans ?_ (ih hin (includeEdge s e) (setEdge_symm hs) fun i hi j hj => ?_)
      · rw [includeEdge, add_assoc]
        exact add_le_add le_rfl (cost_setEdge_le hdist hedges hs (hpos _ h1 _ h2))
      · show 0 ≤ setEdge s.2 e 0 i j
        unfold setEdge
        split
        exacts [le_rfl, hpos i hi j hj]
  exact (zero_add _).symm.trans_le (hloop (0, matrix) hsymm hpos)

theorem includeEdges_le (hp : IsTour n p) (hn : 3 ≤ n) (hsymm : SymmetricOn n matrix)
    (hpos : ∀ i < n, ∀ j < n, 0 ≤ matrix i j) (hin : Within n included) :
    cost n matrix p ≤ (includeEdges matrix included).1 + cost n (includeEdges matrix included).2 p := by
  have hcost : ∀ m : ℕ → ℕ → ValueType,
      SpanningTree.cost m ((List.range n).map fun i => (i, p i)) = cost n m p := fun m =>
    congrArg List.sum (List.map_map ..)
  have hdist : Distinct ((List.range n).map fun i => (i, p i)) := by
    rw [Distinct, List.map_map]
    exact hp.edges_nodup hn
  have hedges : Within n ((List.range n).map fun i => (i, p i)) := fun e he => by
    obtain ⟨i, hi, rfl⟩ := List.mem_map.mp he
    exact ⟨List.mem_range.mp hi, hp.perm.lt (List.mem_range.mp hi)⟩
  have hle := cost_includeEdges_le hdist hedges hsymm hpos hin
  rwa [hcost, hcost] at hle

theorem includeEdges_nonneg (hpos : ∀ i < n, ∀ j < n, 0 ≤ matrix i j) :
    ∀ i < n, ∀ j < n, 0 ≤ (includeEdges matrix included).2 i j := by
  have hloop : ∀ s : ValueType × (ℕ → ℕ → ValueType), (∀ i < n, ∀ j < n, 0 ≤ s.2 i j) →
      ∀ i < n, ∀ j < n, 0 ≤ (included.foldl includeEdge s).2 i j := by
    induction included with
    | nil => exact fun s hs => hs
    | cons e included ih =>
      refine fun s hs => ih (includeEdge s e) fun i hi j hj => ?_
      show 0 ≤ setEdge s.2 e 0 i j
      unfold setEdge
      split
      exacts [le_rfl, hs i hi j hj]
  exact hloop (0, matrix) hpos

/-- What holds where a round starts: no multiplier is negative, and no tour is cheaper than with the
multipliers alone. -/
structure Raised (n : ℕ) (initial : ℕ → ℕ → ValueType) (maxIter : ℕ) (s : State) : Prop where
  alpha : s.alpha = alphaStartValue - s.iter * alphaReduce maxIter
  lambda : ∀ i, 0 ≤ s.lambda i
  nonneg : ∀ i < n, ∀ j < n, 0 ≤ s.matrix i j
  cost_le : ∀ p, IsTour n p →
    cost n initial p + 2 * ∑ i ∈ range n, s.lambda i ≤ s.includedEdgesPenalty + cost n s.matrix p

theorem raised_start (hpos : ∀ i < n, ∀ j < n, 0 ≤ initial i j) :
    Raised n initial maxIter (start initial) where
  alpha := by simp [start]
  lambda _ := le_rfl
  nonneg := hpos
  cost_le p _ := by simp [start]

theorem Raised.alpha_pos (R : Raised n initial maxIter s) (hlt : s.iter < maxIter) : 0 < s.alpha := by
  have hmax : (0 : ValueType) < maxIter := by exact_mod_cast Nat.zero_lt_of_lt hlt
  have hiter : (s.iter : ValueType) ≤ maxIter := by exact_mod_cast hlt.le
  have hsum : (s.iter : ValueType) * alphaReduce maxIter ≤ alphaStartValue - 1 / 100 := by
    rw [alphaReduce, mul_div_assoc', div_le_iff₀ hmax, mul_comm]
    exact mul_le_mul_of_nonneg_left hiter (by norm_num [alphaStartValue])
  rw [R.alpha]
  linarith

theorem Raised.step_nonneg (R : Raised n initial maxIter s) (hlt : s.iter < maxIter)
    {sol : MSOneTree.Solution ValueType} (hle : sol.value ≤ ub) : 0 ≤ step n ub s sol := by
  have hgradient : 0 ≤ sumGradient n sol.edges :=
    List.sum_nonneg fun x hx => by
      obtain ⟨i, _, rfl⟩ := List.mem_map.mp hx
      exact sq_nonneg _
  exact div_nonneg (mul_nonneg (R.alpha_pos hlt).le (sub_nonneg.mpr hle)) (by exact_mod_cast hgradient)

theorem Raised.next (R : Raised n initial maxIter s) (hlt : s.iter < maxIter) (hn : 3 ≤ n)
    (hsymm : SymmetricOn n initial) (hpos : ∀ i < n, ∀ j < n, 0 ≤ initial i j)
    (hin : Within n included) {sol : MSOneTree.Solution ValueType} (hle : sol.value ≤ ub) :
    Raised n initial maxIter (nextState initial n ub (alphaReduce maxIter) included s sol) := by
  have hlambda : ∀ i, 0 ≤ s.lambda i + step n ub s sol * degrees sol.edges i := fun i =>
    add_nonneg (R.lambda i) (mul_nonneg (R.step_nonneg hlt hle) (Nat.cast_nonneg _))
  have hmult : ∀ i < n, ∀ j < n, 0 ≤ multiplied initial
      (fun i => s.lambda i + step n ub s sol * degrees sol.edges i) i j := by
    intro i hi j hj
    unfold multiplied
    split
    · exact Costs.mVal_pos.le
    · exact add_nonneg (hpos i hi j hj) (add_nonneg (hlambda i) (hlambda j))
  refine ⟨?_, hlambda, includeEdges_nonneg hmult, fun p hp => ?_⟩
  · simp only [nextState, R.alpha, Nat.cast_add, Nat.cast_one]
    ring
  · refine le_trans (cost_multiplied hp (by omega) _).ge ?_
    exact includeEdges_le hp hn (multiplied_symm hsymm _) hmult hin

/-- A tour that a round finds costs no more than the value of the round. -/
theorem Raised.tour_le (R : Raised n initial maxIter s) (hp : IsTour n p)
    (hcost : SpanningTree.cost s.matrix (oneTree s.matrix n).edges = cost n s.matrix p) :
    cost n initial p ≤ (roundSolution oneTree n s).value := by
  have hsum : ((List.range n).map s.lambda).sum = ∑ i ∈ range n, s.lambda i := rfl
  have hle := R.cost_le p hp
  rw [← hcost, SpanningTree.cost] at hle
  simp only [roundSolution, lagrangean, hsum]
  linarith

theorem Rounds.priced (hn : 3 ≤ n) (hsymm : SymmetricOn n initial)
    (h : Rounds oneTree initial n ub eps included maxIter s) : Priced n initial included s := by
  induction h with
  | start => exact priced_start hsymm
  | next _ _ ht => exact priced_body hsymm hn ht

/-- What holds in every round. -/
theorem Rounds.spec (hn : 3 ≤ n) (hsymm : SymmetricOn n initial)
    (hpos : ∀ i < n, ∀ j < n, 0 ≤ initial i j) (hin : Within n included) (heps : 0 ≤ eps)
    (h : Rounds oneTree initial n ub eps included maxIter s) :
    Raised n initial maxIter s ∧ Priced n initial included s := by
  refine ⟨?_, h.priced hn hsymm⟩
  induction h with
  | start => exact raised_start hpos
  | @next s t _ hlt ht R =>
    rcases body_cases (s := s) with ⟨_, hb, _⟩ | ⟨hle, _, hb⟩ <;> rw [hb] at ht
    · exact nomatch ht
    · exact Sum.inl.inj ht ▸ R.next hlt hn hsymm hpos hin ((le_add_of_nonneg_right heps).trans hle)

/-- The round whose solution `solve` returns. -/
theorem solve_rounds (hiter : 1 ≤ maxIter) :
    ∃ s k, Rounds oneTree initial n ub eps included maxIter s ∧ s.iter < maxIter ∧
      solve oneTree initial n ub eps included maxIter = some (roundSolution oneTree n s, k) ∧
      (s.iter + 1 = maxIter ∨ Stops oneTree n ub eps s) :=
  solve_rule _ .start (fun _ _ hs hlt ht => hs.next hlt ht) hiter

end LagrangeanRelaxation

/-! ### Calls of `transform_node` -/

section Transform

variable {data : InitialData} {params : Parameters} {new node' : Node} {r : ValueType}

open LagrangeanRelaxation in
/-- What a call of `transform_node` returns. -/
theorem transformNode_cases {n : ℕ} (h : transformNode oneTree n matrix params new r = some node') : ∃ closed s,
      nodeMatrix n matrix new = some (excludeEdges matrix closed) ∧
      Rounds oneTree (excludeEdges matrix closed) n r params.epsilon new.includedEdges
        params.gradientMaxIters s ∧
      s.iter < params.gradientMaxIters ∧ node' = new.solved (roundSolution oneTree n s) ∧
      (s.iter + 1 = params.gradientMaxIters ∨ Stops oneTree n r params.epsilon s) := by
  obtain ⟨m, hm, h⟩ := Option.bind_eq_some_iff.mp h
  obtain ⟨⟨sol, k⟩, hsol, h⟩ := Option.bind_eq_some_iff.mp h
  obtain rfl := Option.some.inj h
  obtain ⟨closed, rfl⟩ := nodeMatrix_eq hm
  have hiter : 1 ≤ params.gradientMaxIters := by
    -- Without a round there is no solution.
    refine Nat.one_le_iff_ne_zero.mpr fun hzero => ?_
    rw [hzero] at hsol
    exact nomatch hsol
  obtain ⟨s, k', hs, hlt, hsol', hstop⟩ := solve_rounds hiter
  obtain ⟨rfl, rfl⟩ := Prod.mk.inj (Option.some.inj (hsol.symm.trans hsol'))
  exact ⟨closed, s, hm, hs, hlt, rfl, hstop⟩

/-- An excluded edge costs `M_VAL`, which is no less than before. -/
theorem le_excludeEdges (hc : Costs data) (hi : i < data.rank) (hj : j < data.rank) :
    data.matrix i j ≤ excludeEdges data.matrix edges i j := by
  rw [excludeEdges_apply]
  split
  exacts [hc.le' hi hj, le_rfl]

theorem excludeEdges_nonneg (hc : Costs data) (hi : i < data.rank) (hj : j < data.rank) :
    0 ≤ excludeEdges data.matrix edges i j :=
  (hc.nonneg' hi hj).trans (le_excludeEdges hc hi hj)

/-- The states in which `transform_node` hands a matrix to `MSOneTree::solve`. -/
def Handed (data : InitialData) (params : Parameters) (new : Node) (r : ValueType)
    (s : LagrangeanRelaxation.State) : Prop :=
  ∃ matrix, nodeMatrix data.rank data.matrix new = some matrix ∧ s.iter < params.gradientMaxIters ∧
    LagrangeanRelaxation.Rounds MSOneTree.solve matrix data.rank r params.epsilon new.includedEdges
      params.gradientMaxIters s

/-- What `MSOneTree::solve` needs to find a minimum 1-tree: Prim's algorithm does not start with an edge to
`0`, and two edges at `0` are cheaper than the diagonal entry. -/
structure Solvable (n : ℕ) (matrix : ℕ → ℕ → ValueType) : Prop where
  first : 2 ≤ MSOneTree.minElement (matrix MSOneTree.Prim.startPoint) n
  zero : ∃ j ∈ Ico 1 n, ∃ k ∈ Ico 1 n, j ≠ k ∧ matrix 0 j < matrix 0 0 ∧ matrix 0 k < matrix 0 0

theorem solvable_iff : Solvable n matrix ↔ 2 ≤ MSOneTree.minElement (matrix MSOneTree.Prim.startPoint) n ∧
    ∃ j ∈ Ico 1 n, ∃ k ∈ Ico 1 n, j ≠ k ∧ matrix 0 j < matrix 0 0 ∧ matrix 0 k < matrix 0 0 :=
  ⟨fun h => ⟨h.first, h.zero⟩, fun h => ⟨h.1, h.2⟩⟩

instance : Decidable (Solvable n matrix) := decidable_of_iff _ solvable_iff.symm

/-- All entries handed over are below `max_val()`, and the matrices are solvable as long as a tour of the
node is below the record by more than `epsilon`. -/
structure Usable (data : InitialData) (params : Parameters) (new : Node) (r : ValueType) : Prop where
  small : ∀ s, Handed data params new r s →
    ∀ i < data.rank, ∀ j < data.rank, s.matrix i j < MSOneTree.maxVal
  solvable : (∃ p ∈ new.tours data.rank, cost data.rank data.matrix p + params.epsilon < r) →
    ∀ s, Handed data params new r s → Solvable data.rank s.matrix

/-- What a call of `transform_node` does: the relaxation is in range, costs at least as much as a tour if
it is one, and is a bound for the tours of the node. -/
structure Transformed (data : InitialData) (params : Parameters) (new : Node) (r : ValueType)
    (node' : Node) : Prop where
  solved : ∃ sol, node' = new.solved sol
  length : node'.data.relaxation.length = data.rank
  within : Within data.rank node'.data.relaxation
  tour : ∀ route, buildTour node'.data.relaxation = some route → route ≠ [] →
    ∃ p, IsTour data.rank p ∧ cost data.rank data.matrix p ≤ node'.data.value
  bound : ∀ p ∈ new.tours data.rank, cost data.rank data.matrix p + params.epsilon < r →
    Distinct new.includedEdges →
      Relaxed data.rank node'.data.relaxation ∧ node'.data.value ≤ cost data.rank data.matrix p

/-- Edges that a tour passes leave no vertex with more than two of them. -/
theorem degrees_le_two (hdist : Distinct edges) (hn : 2 ≤ n) (hp : IsTour n p)
    (hpass : ∀ e ∈ edges, Passes n p e) (u : ℕ) : degrees edges u ≤ 2 := by
  by_contra hdeg
  obtain ⟨e, he, _, hno⟩ := exists_left_out hdist (fun he => (hpass _ he).ne hp hn rfl)
    (not_le.mp hdeg) hp
  exact hno (hpass e he)

open LagrangeanRelaxation in
theorem transformNode_spec (hn : 3 ≤ data.rank) (hsymm : SymmetricOn data.rank data.matrix)
    (hc : Costs data) (heps : 0 ≤ params.epsilon)
    (hin : Within data.rank new.includedEdges) (hu : Usable data params new r)
    (h : transformNode MSOneTree.solve data.rank data.matrix params new r = some node') :
    Transformed data params new r node' := by
  obtain ⟨closed, s, hm, hs, hlt, rfl, _⟩ := transformNode_cases h
  obtain ⟨R, P⟩ := hs.spec hn (excludeEdges_symm hsymm)
    (fun i hi j hj => excludeEdges_nonneg hc hi hj) hin heps
  have hhanded : Handed data params new r s := ⟨_, hm, hlt, hs⟩
  have hsmall := hu.small s hhanded
  have hshape := MSOneTree.solve_shaped (Nat.le_of_succ_le hn) R.nonneg fun j hj => hsmall 0 (by omega) j hj
  constructor
  case solved => exact ⟨_, rfl⟩
  case length => rw [Node.data_solved]; exact hshape.length
  case within => rw [Node.data_solved]; exact hshape.within
  case tour =>
    rw [Node.data_solved]
    intro route hroute hne
    obtain ⟨p, hp, hcost⟩ := buildTour_cost hn hshape.length hroute hne
    refine ⟨p, hp, le_trans ?_ (R.tour_le hp (hcost _ P.symm))⟩
    exact sum_le_sum fun i hi => le_excludeEdges hc (mem_range.mp hi) (hp.perm.lt (mem_range.mp hi))
  case bound =>
    rw [Node.data_solved]
    intro p hp hlow hdist
    have hdeg := degrees_le_two hdist (Nat.le_of_succ_le hn) hp.1 hp.2.included
    obtain ⟨m', hm', _, hcost⟩ := nodeMatrix_spec hdist (fun v _ => hdeg v) (Nat.le_of_succ_le hn) hsymm
    obtain rfl := Option.some.inj (hm.symm.trans hm')
    have hsolvable := hu.solvable ⟨p, hp, hlow⟩ s hhanded
    have hone := MSOneTree.solve_isMin_of ⟨P.symm, fun i hi j hj _ => hsmall i hi j hj⟩ hn
      hsolvable.first hsolvable.zero
    exact ⟨⟨hone.oneTree, hone.length, hone.nodup⟩,
      (P.value_le hn hone hp.1 hp.2.included).trans_eq (hcost p hp.1 hp.2)⟩

end Transform

end Optimer.Stsp
