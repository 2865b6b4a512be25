import Optimer.Tsp.Adjacency
import Optimer.Tsp.Lagrangean
import Optimer.Tsp.OneTreeCorrect

/-! The value that `LagrangeanSolver::transform_node` stores is a lower bound for the tours of the
node: in each round of `LagrangeanRelaxation::solve` the penalty and the matrix together price every such
tour at its original cost and twice the multipliers. -/

namespace Optimer.Stsp
open Optimer.Tsp Finset

variable {n i u : ℕ} {p : ℕ → ℕ} {e : Edge} {edges : List Edge} {matrix : ℕ → ℕ → ValueType}
  {node : Node} {oneTree : (ℕ → ℕ → ValueType) → ℕ → MSOneTree.Solution ValueType}

/-! ### The matrix of a node -/

theorem closeEdges_two {adj : ℕ → List ℕ} {a b : ℕ} (h : adj u = [a, b]) :
    closeEdges n adj matrix u = some (excludeEdges matrix
      (((List.range n).filter fun v => v ≠ a ∧ v ≠ b).map fun v => (u, v))) := by
  rw [closeEdges, h, excludeEdges, List.foldl_map, List.foldl_filter]
  simp only [decide_eq_true_eq]

/-- Closing the other edges of a vertex changes nothing for the tours with its included edges. -/
theorem closeEdges_spec (hdist : Distinct edges) (hdeg : degrees edges u ≤ 2) (hn : 2 ≤ n)
    (hsymm : SymmetricOn n matrix) :
    ∃ m, closeEdges n (adjacencyList edges) matrix u = some m ∧ SymmetricOn n m ∧
      ∀ p, IsTour n p → (∀ e ∈ edges, Passes n p e) → ∀ i < n, m i (p i) = matrix i (p i) := by
  rw [← length_adjacencyList] at hdeg
  match hadj : adjacencyList edges u with
  | [] => exact ⟨matrix, by simp [closeEdges, hadj], hsymm, fun _ _ _ _ _ => rfl⟩
  | [a] => exact ⟨matrix, by simp [closeEdges, hadj], hsymm, fun _ _ _ _ _ => rfl⟩
  | [a, b] =>
    refine ⟨_, closeEdges_two hadj, excludeEdges_symm hsymm, fun p hp hfit i hi => ?_⟩
    have hpass : ∀ v ∈ adjacencyList edges u, Passes n p (u, v) := fun v hv =>
      (mem_adjacencyList.mp hv).elim (hfit _) fun h => (hfit _ h).swap
    have hab : a ≠ b := by
      have hnodup := nodup_adjacencyList (u := u) hdist fun he => (hfit _ he).ne hp hn rfl
      rw [hadj] at hnodup
      simpa using hnodup
    refine excludeEdges_tour (fun e he => ?_) hi
    obtain ⟨v, hv, rfl⟩ := List.mem_map.mp he
    have hne : v ≠ a ∧ v ≠ b := by simpa using (List.mem_filter.mp hv).2
    intro hpv
    rcases Passes.eq_or_eq hp (hpass a (by simp [hadj])) (hpass b (by simp [hadj])) hab hpv with h | h
    exacts [hne.1 h, hne.2 h]
  | a :: b :: c :: rest =>
    rw [hadj] at hdeg
    simp at hdeg

/-- The matrix of a node prices the tours of the node as the original one does. -/
theorem nodeMatrix_spec (hdist : Distinct node.includedEdges)
    (hdeg : ∀ v < n, degrees node.includedEdges v ≤ 2) (hn : 2 ≤ n) (hsymm : SymmetricOn n matrix) :
    ∃ m, nodeMatrix n matrix node = some m ∧ SymmetricOn n m ∧
      ∀ p, IsTour n p → node.Fits n p → cost n m p = cost n matrix p := by
  have hloop : ∀ l : List ℕ, (∀ u ∈ l, u < n) → ∀ m₀, SymmetricOn n m₀ →
      ∃ m, l.foldlM (closeEdges n (adjacencyList node.includedEdges)) m₀ = some m ∧
        SymmetricOn n m ∧ ∀ p, IsTour n p → node.Fits n p → ∀ i < n, m i (p i) = m₀ i (p i) := by
    intro l
    induction l with
    | nil => exact fun _ m₀ h₀ => ⟨m₀, rfl, h₀, fun _ _ _ _ _ => rfl⟩
    | cons u l ih =>
      intro hl m₀ h₀
      obtain ⟨m₁, hm₁, h₁, hsame₁⟩ :=
        closeEdges_spec hdist (hdeg u (hl u List.mem_cons_self)) hn h₀
      obtain ⟨m, hm, h, hsame⟩ := ih (fun v hv => hl v (List.mem_cons_of_mem _ hv)) m₁ h₁
      refine ⟨m, by rw [List.foldlM_cons, hm₁]; exact hm, h, fun p hp hfit i hi => ?_⟩
      rw [hsame p hp hfit i hi, hsame₁ p hp hfit.included i hi]
  obtain ⟨m, hm, h, hsame⟩ := hloop (List.range n) (fun u => List.mem_range.mp) _
    (excludeEdges_symm hsymm)
  refine ⟨m, hm, h, fun p hp hfit => sum_congr rfl fun i hi => ?_⟩
  rw [hsame p hp hfit i (mem_range.mp hi), excludeEdges_tour hfit.excluded (mem_range.mp hi)]

namespace LagrangeanRelaxation

variable {initial : ℕ → ℕ → ValueType} {ub eps reduce : ValueType} {included : List Edge} {s t : State}

/-! ### One round -/

/-- The multipliers raise the cost of a tour by twice their sum. -/
theorem cost_multiplied (hp : IsTour n p) (hn : 2 ≤ n) (lambda : ℕ → ValueType) :
    cost n (multiplied initial lambda) p = cost n initial p + 2 * ∑ i ∈ range n, lambda i := by
  have hperm : ∑ i ∈ range n, lambda (p i) = ∑ i ∈ range n, lambda i :=
    sum_nbij p hp.perm.mapsTo hp.perm.injOn hp.perm.surjOn fun _ _ => rfl
  have hentry : ∀ i ∈ range n,
      multiplied initial lambda i (p i) = initial i (p i) + (lambda i + lambda (p i)) :=
    fun i hi => if_neg (hp.ne hn (mem_range.mp hi)).symm
  rw [cost, sum_congr rfl hentry, sum_add_distrib, sum_add_distrib, hperm, cost]
  ring

/-- An included edge is set to zero and paid for. -/
theorem cost_setEdge_zero (hp : IsTour n p) (hn : 3 ≤ n) (hsymm : SymmetricOn n matrix)
    (h : Passes n p e) : matrix e.1 e.2 + cost n (setEdge matrix e 0) p = cost n matrix p := by
  obtain ⟨i, hi, he⟩ := h
  have hentry : matrix e.1 e.2 = matrix i (p i) := by
    rcases he with rfl | rfl
    exacts [rfl, hsymm _ (hp.perm.lt hi) _ hi]
  have hself : setEdge matrix e 0 i (p i) = 0 := if_pos he
  have hother : ∀ k ∈ (range n).erase i, setEdge matrix e 0 k (p k) = matrix k (p k) := by
    intro k hk
    obtain ⟨hki, hk⟩ := mem_erase.mp hk
    refine if_neg fun hk' => ?_
    have hback := hp.apply_apply_ne hn hi
    rcases he with rfl | rfl <;> rcases hk' with hk' | hk' <;> rw [Prod.mk.injEq] at hk'
    · exact hki hk'.1
    · exact hback (hk'.2 ▸ hk'.1)
    · exact hback (hk'.1 ▸ hk'.2)
    · exact hki hk'.2
  rw [cost, cost, ← add_sum_erase _ _ (mem_range.mpr hi), hself, zero_add, sum_congr rfl hother,
    hentry, add_sum_erase _ (fun k => matrix k (p k)) (mem_range.mpr hi)]

theorem multiplied_symm (h : SymmetricOn n initial) (lambda : ℕ → ValueType) :
    SymmetricOn n (multiplied initial lambda) := by
  intro i hi j hj
  unfold multiplied
  by_cases hij : i = j
  · rw [if_pos hij, if_pos hij.symm]
  · rw [if_neg hij, if_neg (Ne.symm hij), h i hi j hj, add_comm (lambda i)]

theorem includeEdges_spec (included : List Edge) (hsymm : SymmetricOn n matrix) (hn : 3 ≤ n) :
    SymmetricOn n (includeEdges matrix included).2 ∧
      ∀ p, IsTour n p → (∀ e ∈ included, Passes n p e) →
        (includeEdges matrix included).1 + cost n (includeEdges matrix included).2 p =
          cost n matrix p := by
  have hloop : ∀ s : ValueType × (ℕ → ℕ → ValueType), SymmetricOn n s.2 →
      SymmetricOn n (included.foldl includeEdge s).2 ∧
        ∀ p, IsTour n p → (∀ e ∈ included, Passes n p e) →
          (included.foldl includeEdge s).1 + cost n (included.foldl includeEdge s).2 p =
            s.1 + cost n s.2 p := by
    induction included with
    | nil => exact fun s h => ⟨h, fun _ _ _ => rfl⟩
    | cons e included ih =>
      intro s h
      obtain ⟨hs, hcost⟩ := ih (includeEdge s e) (setEdge_symm h)
      refine ⟨hs, fun p hp hfit => ?_⟩
      rw [List.foldl_cons, hcost p hp fun f hf => hfit f (List.mem_cons_of_mem _ hf), includeEdge,
        add_assoc, cost_setEdge_zero hp hn h (hfit e List.mem_cons_self)]
  obtain ⟨hs, hcost⟩ := hloop (0, matrix) hsymm
  exact ⟨hs, fun p hp hfit => (hcost p hp hfit).trans (zero_add _)⟩

/-- The invariant of the loop: penalty and matrix together price the tours with the included edges at
their cost in the given matrix and twice the multipliers. -/
structure Priced (n : ℕ) (initial : ℕ → ℕ → ValueType) (included : List Edge) (s : State) : Prop where
  symm : SymmetricOn n s.matrix
  cost_eq : ∀ p, IsTour n p → (∀ e ∈ included, Passes n p e) →
    s.includedEdgesPenalty + cost n s.matrix p = cost n initial p + 2 * ∑ i ∈ range n, s.lambda i

theorem priced_start (hsymm : SymmetricOn n initial) : Priced n initial included (start initial) where
  symm := hsymm
  cost_eq p _ _ := by simp [start]

theorem priced_next (hsymm : SymmetricOn n initial) (hn : 3 ≤ n) (s : State)
    (sol : MSOneTree.Solution ValueType) :
    Priced n initial included (nextState initial n ub reduce included s sol) := by
  obtain ⟨hs, hcost⟩ := includeEdges_spec included (multiplied_symm hsymm _) hn
  exact ⟨hs, fun p hp hfit => (hcost p hp hfit).trans (cost_multiplied hp (by omega) _)⟩

/-- Weak duality: the solution of a round is a lower bound for the tours with the included edges. -/
theorem Priced.value_le (P : Priced n initial included s) (hn : 3 ≤ n)
    (hone : IsMinOneTree n s.matrix (oneTree s.matrix n).value (oneTree s.matrix n).edges)
    (hp : IsTour n p) (hfit : ∀ e ∈ included, Passes n p e) :
    (roundSolution oneTree n s).value ≤ cost n initial p := by
  have hle : ((oneTree s.matrix n).edges.map fun e => s.matrix e.1 e.2).sum ≤ cost n s.matrix p :=
    hone.value_eq.symm.trans_le (hone.le_tour hn P.symm hp)
  have hsum : ((List.range n).map s.lambda).sum = ∑ i ∈ range n, s.lambda i := rfl
  have heq := P.cost_eq p hp hfit
  simp only [roundSolution, lagrangean, hsum]
  linarith

/-! ### The whole loop -/

/-- Why a round is the last one: its value is no longer below the upper bound, or all degrees are two. -/
def Stops (oneTree : (ℕ → ℕ → ValueType) → ℕ → MSOneTree.Solution ValueType) (n : ℕ) (ub eps : ValueType)
    (s : State) : Prop :=
  ub < (roundSolution oneTree n s).value + eps ∨ rightDegrees n (roundSolution oneTree n s).edges = true

theorem body_cases : (∃ k, body oneTree initial n ub eps reduce included s =
      .inr (roundSolution oneTree n s, k) ∧ Stops oneTree n ub eps s) ∨
    (roundSolution oneTree n s).value + eps ≤ ub ∧
      rightDegrees n (roundSolution oneTree n s).edges = false ∧
      body oneTree initial n ub eps reduce included s =
        .inl (nextState initial n ub reduce included s (roundSolution oneTree n s)) := by
  unfold body
  by_cases hub : (roundSolution oneTree n s).value + eps > ub
  · exact .inl ⟨_, if_pos hub, .inl hub⟩
  · by_cases hdeg : rightDegrees n (roundSolution oneTree n s).edges = true
    · exact .inl ⟨_, (if_neg hub).trans (if_pos hdeg), .inr hdeg⟩
    · exact .inr ⟨not_lt.mp hub, by simpa using hdeg, (if_neg hub).trans (if_neg hdeg)⟩

theorem priced_body (hsymm : SymmetricOn n initial) (hn : 3 ≤ n)
    (h : body oneTree initial n ub eps reduce included s = .inl t) : Priced n initial included t := by
  rcases body_cases (s := s) with ⟨j, hb, _⟩ | ⟨_, _, hb⟩ <;> rw [hb] at h
  · exact nomatch h
  · exact Sum.inl.inj h ▸ priced_next hsymm hn s _

/-- The solution that `solve` returns is that of a round that stops, or of the last one. -/
theorem solve_rule {maxIter : ℕ} (I : State → Prop) (hstart : I (start initial))
    (hstep : ∀ s t, I s → s.iter < maxIter →
      body oneTree initial n ub eps ((alphaStartValue - 1 / 100) / maxIter) included s = .inl t → I t)
    (hm : 1 ≤ maxIter) : ∃ s k, I s ∧ s.iter < maxIter ∧
      solve oneTree initial n ub eps included maxIter = some (roundSolution oneTree n s, k) ∧
      (s.iter + 1 = maxIter ∨ Stops oneTree n ub eps s) := by
  have hloop := Loop.bounded_rule
    (body oneTree initial n ub eps ((alphaStartValue - 1 / 100) / maxIter) included)
    (fun k s => s.iter = k ∧ I s ∧
      (1 ≤ k → ∃ s', I s' ∧ s'.iter + 1 = k ∧ s.solution = some (roundSolution oneTree n s')))
    (fun r => ∃ s', I s' ∧ s'.iter < maxIter ∧ r.1 = roundSolution oneTree n s' ∧
      Stops oneTree n ub eps s') (k := 0) (m := maxIter)
    (fun k s hk hs => ?_) ⟨rfl, hstart, fun h => absurd h (by decide)⟩
  · rw [solve]
    split at hloop
    · next t ht =>
      obtain ⟨s', hs', hlast, hsol⟩ := hloop.2.2 (by omega)
      exact ⟨s', maxIter, hs', by omega, by simp only [ht, hsol, Option.map_some], .inl (by omega)⟩
    · next r hr =>
      obtain ⟨s', hs', hlt, hsol, hstops⟩ := hloop
      exact ⟨s', r.2, hs', hlt, by simp only [hr, ← hsol], .inr hstops⟩
  · obtain ⟨hiter, hI, _⟩ := hs
    have hlt : s.iter < maxIter := by omega
    rcases body_cases (s := s) with ⟨j, hb, hstops⟩ | ⟨_, _, hb⟩ <;> rw [hb]
    · exact ⟨s, hI, hlt, rfl, hstops⟩
    · exact ⟨congrArg (· + 1) hiter, hstep s _ hI hlt hb, fun _ => ⟨s, hI, congrArg (· + 1) hiter, rfl⟩⟩

end LagrangeanRelaxation

/-! ### The value of a node -/

open LagrangeanRelaxation in
/-- The Lagrangean bound is valid in whichever round it is taken, for any multipliers. No edge is included twice
in the nodes that `branch` makes: the rules choose edges that are not included yet. -/
theorem transformNode_bound {params : Parameters} (hn : 3 ≤ n) (hsymm : SymmetricOn n matrix)
    (hone : ∀ m, SymmetricOn n m → IsMinOneTree n m (oneTree m n).value (oneTree m n).edges)
    (hiter : 1 ≤ params.gradientMaxIters) (hdist : Distinct node.includedEdges)
    (hdeg : ∀ v < n, degrees node.includedEdges v ≤ 2) (record : ValueType) :
    ∃ node', transformNode oneTree n matrix params node record = some node' ∧
      ∀ p, IsTour n p → node.Fits n p → node'.data.value ≤ cost n matrix p := by
  obtain ⟨m, hm, hms, hcost⟩ := nodeMatrix_spec hdist hdeg (by omega) hsymm
  obtain ⟨s, k, P, _, hsol, _⟩ : ∃ s k, Priced n m node.includedEdges s ∧
      s.iter < params.gradientMaxIters ∧
      solve oneTree m n record params.epsilon node.includedEdges params.gradientMaxIters =
        some (roundSolution oneTree n s, k) ∧ _ :=
    solve_rule _ (priced_start hms) (fun _ _ _ _ ht => priced_body hms hn ht) hiter
  refine ⟨node.solved (roundSolution oneTree n s), by simp [transformNode, hm, hsol], fun p hp hfit => ?_⟩
  rw [Node.data_solved, ← hcost p hp hfit]
  exact P.value_le hn (hone _ P.symm) hp hfit.included

/-- The only 1-tree of three vertices. -/
def triangle (matrix : ℕ → ℕ → ValueType) (_ : ℕ) : MSOneTree.Solution ValueType where
  value := matrix 1 2 + (matrix 0 2 + matrix 0 1)
  edges := [(1, 2), (0, 2), (0, 1)]

theorem triangle_isMin (hsymm : SymmetricOn 3 matrix) :
    IsMinOneTree 3 matrix (triangle matrix 3).value (triangle matrix 3).edges where
  oneTree := by
    refine ⟨[(1, 2)], 2, 1, .refl _, ⟨by decide, fun a ha b hb => ?_, rfl⟩, by decide, by decide,
      by decide⟩
    have h12 : SpanningTree.Joined [((1 : ℕ), 2)] 1 2 := .single (.inl List.mem_cons_self)
    have ha : a = 1 ∨ a = 2 := by rw [mem_Ico] at ha; omega
    have hb : b = 1 ∨ b = 2 := by rw [mem_Ico] at hb; omega
    rcases ha with rfl | rfl <;> rcases hb with rfl | rfl
    exacts [.refl, h12, h12.symm, .refl]
  length := rfl
  nodup := by simp [triangle]
  value_eq := by simp [triangle, SpanningTree.cost]
  least := by
    rintro other ⟨tree, a, b, hperm, htree, hab, ha, hb⟩
    have hlen : tree.length = 1 := by
      have := htree.length
      rw [Nat.card_Ico] at this
      omega
    obtain ⟨f, rfl⟩ := List.length_eq_one_iff.mp hlen
    obtain ⟨x, y, hx, hy, hxy, _⟩ := SpanningTree.exists_crossing (mem_singleton_self 2)
      (htree.joined 1 (by decide) 2 (by decide)) (by decide)
    have hf := htree.mem f (List.mem_singleton_self _)
    have hfcost : matrix f.1 f.2 = matrix 1 2 := by
      rw [mem_singleton] at hx hy
      rw [mem_Ico, mem_Ico] at hf
      subst hy
      rcases hxy with h | h <;> cases List.mem_singleton.mp h
      · rw [show x = 1 by omega]
      · rw [show x = 1 by omega, hsymm 2 (by decide) 1 (by decide)]
    have hpair : matrix 0 a + matrix 0 b = matrix 0 2 + matrix 0 1 := by
      rw [mem_Ico] at ha hb
      rcases (show a = 1 ∧ b = 2 ∨ a = 2 ∧ b = 1 by omega) with ⟨rfl, rfl⟩ | ⟨rfl, rfl⟩
      exacts [add_comm _ _, rfl]
    rw [SpanningTree.cost_perm hperm]
    simp [triangle, SpanningTree.cost, hfcost, hpair]

theorem transformNode_bound_near :
    (triangle MSOneTree.nearCosts 3).edges = (MSOneTree.solve MSOneTree.nearCosts 3).edges ∧
    ∃ node', transformNode triangle 3 MSOneTree.nearCosts { gradientMaxIters := 5 }
      (newNode (.root {}) [(1, 2)] []) 20 = some node' ∧
      ∀ p, IsTour 3 p → (newNode (.root {}) [(1, 2)] []).Fits 3 p →
        node'.data.value ≤ cost 3 MSOneTree.nearCosts p :=
  ⟨by decide +kernel, transformNode_bound (by decide) MSOneTree.nearCosts_edgeCosts.symm
    (fun _ => triangle_isMin) (by decide) (by decide) (by decide) 20⟩

end Optimer.Stsp
