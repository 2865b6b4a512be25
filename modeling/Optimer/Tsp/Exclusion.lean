import Optimer.Tsp.AsymmetricCorrect

/-! Rules 2, 4 and 5 of `TspSolver`, which only exclude edges: what they keep of the tours of a node,
and what they do at a root whose assignment is a tour. -/

namespace Optimer.Tsp
open Finset Transition

variable {data : InitialData} {node new m : Node} {news : List Node} {fuel : ℕ} {p q : ℕ → ℕ}
  {es : List Edge}

/-! ### Nodes without included edges -/

/-- The nodes of a search that only excludes edges. -/
structure Node.Excludes (data : InitialData) (node : Node) : Prop where
  valid : node.Valid data
  included : node.includedPoints = []

theorem newNode_excludedPoints : (newNode node [] es).excludedPoints = es ++ node.excludedPoints := rfl

namespace Node.Excludes

variable (h : node.Excludes data)

include h

theorem bare : node.Bare data := ⟨h.valid.solved.formed, h.included⟩

theorem newNode_dimension : dimensionNew data (newNode node [] es) = data.rank := by
  rw [dimensionNew, h.bare.newNode_included]
  rfl

theorem newNode_ready (hes : ∀ e ∈ es, e.1 < data.rank ∧ e.2 < data.rank) :
    (newNode node [] es).Ready data := by
  refine (h.bare.newNode_placed hes).ready fun parent hp => ?_
  cases hp
  exact h.valid.solved

omit h in
theorem newNode_fits (hq : node.Fits q) (hes : ∀ e ∈ es, q e.1 ≠ e.2) : (newNode node [] es).Fits q :=
  ⟨hq.included, fun e he => (List.mem_append.mp he).elim (hes e) (hq.excluded e)⟩

theorem child (hm : (newNode node [] es).Completes data m) (hv : m.Valid data) : m.Excludes data :=
  ⟨hv, hm.includedPoints.trans h.bare.newNode_included⟩

theorem edgeMap_false {e : Edge} : node.edgeMap e = false ↔ e ∉ node.excludedPoints := by
  rw [← Bool.not_eq_true, Node.edgeMap_eq_true, h.included]
  simp

end Node.Excludes

/-! ### A root that is a tour -/

section Recover

theorem kept_nil (n : ℕ) : kept n [] = List.range n := by simp [kept]

theorem originalToNew_nil {n k : ℕ} (hk : k < n) : originalToNew n [] k = k := by
  rw [originalToNew, if_neg List.not_mem_nil, kept_nil]
  have hlt : k < (List.range n).length := by rwa [List.length_range]
  have hidx := List.nodup_range.idxOf_getElem k hlt
  rwa [List.getElem_range] at hidx

theorem newToOriginal_nil {n k : ℕ} (hk : k < n) : newToOriginal n [] k = k := by
  rw [newToOriginal, kept_nil, List.getD_eq_getElem _ _ (by simpa using hk), List.getElem_range]

variable (h : node.Excludes data) {i : ℕ} (hi : i < data.rank)
  (hes : ∀ e ∈ es, e.1 = i ∧ e.2 < data.rank) (hall : ∀ j < data.rank, j ≠ i → (i, j) ∈ es)

include h hi hes hall

/-- Only row `i` is unassigned at first. -/
theorem excludeRow_inherited (hn : 2 ≤ data.rank) : ∃ primal,
    inheritedPrimal data (newNode node [] es) node.data.apSolution = some primal ∧
      primal i = data.rank ∧ ∀ r < data.rank, r ≠ i → primal r = node.primal r := by
  have hready : (newNode node [] es).Ready data :=
    h.newNode_ready fun e he => ⟨(hes e he).1 ▸ hi, (hes e he).2⟩
  obtain ⟨primal, hrun, hout, hkeep⟩ := hready.placed.inherited node.data.apSolution
  rw [h.bare.newNode_rows, h.newNode_dimension] at hout
  rw [h.bare.newNode_rows, h.bare.newNode_cols] at hkeep
  refine ⟨primal, hrun, ?_, fun r hr hri => ?_⟩
  · obtain ⟨j, hj, hji⟩ : ∃ j < data.rank, j ≠ i := by
      by_cases h0 : i = 0
      · exact ⟨1, by omega, by omega⟩
      · exact ⟨0, by omega, Ne.symm h0⟩
    have hij := hout _ (hall j hj hji)
    rwa [originalToNew_nil hi] at hij
  · have hkeep := hkeep r fun e he heq => hri (by
      rw [(hes e he).1, originalToNew_nil hi] at heq
      exact heq.symm)
    rwa [newToOriginal_nil hr, originalToNew_nil (h.valid.solved.perm.lt hr)] at hkeep

omit hes in
/-- All entries of row `i` are the same. -/
theorem excludeRow_matrix (hc : Costs data) {j : ℕ} (hj : j < data.rank) :
    matrixNew data (newNode node [] es) i j = mVal := by
  rw [matrixNew_eq, h.bare.newNode_rows, h.bare.newNode_cols, newToOriginal_nil hi, newToOriginal_nil hj,
    Node.cost]
  by_cases hji : j = i
  · rw [hji, hc.diag i hi, ite_self]
  · rw [if_pos]
    exact List.mem_append_left _ (hall j hj hji)

/-- Where all edges of row `i` are excluded and the column of its edge has the highest price, the new
node gets the assignment of its parent back: the augmenting path is that edge. -/
theorem excludeRow_recovers (hn : 2 ≤ data.rank) (hc : Costs data)
    (hmax : ∀ j < data.rank, node.data.apSolution.dualV j ≤ node.data.apSolution.dualV (node.primal i))
    (hm : (newNode node [] es).Completes data m) : ∀ r < data.rank, m.primal r = node.primal r := by
  have hperm := h.valid.solved.perm
  have hready : (newNode node [] es).Ready data :=
    h.newNode_ready fun e he => ⟨(hes e he).1 ▸ hi, (hes e he).2⟩
  obtain ⟨primal, hrun, hpi, hpr⟩ := excludeRow_inherited h hi hes hall hn
  have hwarm : ApSolver.Warm data.rank (matrixNew data (newNode node [] es))
      (Node.inheritedSolution data (newNode node [] es) node.data.apSolution primal) :=
    h.newNode_dimension ▸ hready.warm hc hrun
  have hcol := hperm.lt hi
  have hassigned : ∀ r < data.rank, r ≠ i → primal r < data.rank := fun r hr hri =>
    hpr r hr hri ▸ hperm.lt hr
  have hunused : ∀ r < data.rank, primal r ≠ node.primal i := fun r hr => by
    by_cases hri : r = i
    · rw [hri, hpi]
      exact Nat.ne_of_gt hcol
    · rw [hpr r hr hri]
      exact fun heq => hri (hperm.inj hr hi heq)
  have hleast : ApSolver.Scan.LeastSlack data.rank (matrixNew data (newNode node [] es)) i
      (Node.inheritedSolution data (newNode node [] es) node.data.apSolution primal) (node.primal i) := by
    intro j hj
    simp only [Node.inheritedSolution, excludeRow_matrix h hi hall hc hcol,
      excludeRow_matrix h hi hall hc hj, h.bare.newNode_cols, newToOriginal_nil hcol, newToOriginal_nil hj]
    exact sub_le_sub_left (hmax j hj) _
  obtain ⟨fuel, hf, hrunm⟩ := hm.run
  obtain ⟨sol, hsolve, hsol⟩ :=
    ApSolver.solve_direct hwarm hi hpi.ge hassigned hcol hunused hleast hf
  have hstart : apStart data (newNode node [] es) = some (some
      (Node.inheritedSolution data (newNode node [] es) node.data.apSolution primal)) :=
    Node.apStart_child hrun
  simp only [transformNode, hstart, h.newNode_dimension, hsolve, Option.bind_eq_bind,
    Option.bind_some, Option.pure_def, Option.some.injEq] at hrunm
  intro r hr
  rw [← hrunm, Node.primal, Node.data_solved]
  show (apOriginal data (newNode node [] es) sol).primal r = node.primal r
  rw [Node.apOriginal_free hready.edges (h.bare.newNode_rows ▸ List.not_mem_nil), h.bare.newNode_rows,
    h.bare.newNode_cols, originalToNew_nil hr, hsol]
  by_cases hri : r = i
  · rw [hri, Function.update_self, newToOriginal_nil hcol]
  · rw [Function.update_of_ne hri]
    show newToOriginal data.rank [] (primal r) = node.primal r
    rw [hpr r hr hri, newToOriginal_nil (hperm.lt hr)]

end Recover

/-- The tours of a root that is a tour itself are no cheaper than the one a new node gives back. -/
theorem excludeRow_keeps (hn : 2 ≤ data.rank) (hc : Costs data) (h : node.Excludes data)
    (htour : IsTour data.rank node.primal) (hq : q ∈ node.tours data)
    (hnews : ∀ i < data.rank, ∃ es, newNode node [] es ∈ news ∧
      (∀ e ∈ es, e.1 = i ∧ e.2 < data.rank) ∧ ∀ j < data.rank, j ≠ i → (i, j) ∈ es) :
    Keeps data news q := by
  obtain ⟨i, hi, hmax⟩ := exists_max_image (range data.rank)
    (fun i => node.data.apSolution.dualV (node.primal i)) ⟨0, mem_range.mpr (by omega)⟩
  have hi := mem_range.mp hi
  obtain ⟨es, hmem, hes, hall⟩ := hnews i hi
  refine .inr ⟨_, hmem, fun m hm => ?_⟩
  have heq := excludeRow_recovers h hi hes hall hn hc (fun j hj => by
    obtain ⟨r, hr, rfl⟩ := htour.perm.surj hj
    exact hmax r (mem_range.mpr hr)) hm
  refine ⟨htour.congr heq (by omega), ?_⟩
  rw [hm.solved.value, cost_congr heq, ← h.valid.solved.value]
  exact h.valid.solved.value_le hc hq.1.perm hq.2

/-! ### The vertices of a subtour -/

/-- A node without the value `M_VAL` has a subtour. -/
theorem subtourVertices_spec (hc : Costs data) (hn : 2 ≤ data.rank) (h : node.Valid data)
    (hf : data.rank < fuel) (hval : node.data.value < mVal) : ∃ v < data.rank,
      subtourVertices fuel data node = some (orbit node.primal v) := by
  obtain ⟨r, hrun, hr⟩ := mincardSubtour_spec h.solved.perm data.rank_lt hf
  rcases hr with ⟨_, hfix⟩ | ⟨v, hv, _, rfl⟩
  · have h0 : 0 < data.rank := by omega
    have hle := single_le_sum (f := fun i => data.matrix i (node.primal i))
      (fun i hi => hc.nonneg' (mem_range.mp hi) (h.solved.perm.lt (mem_range.mp hi)))
      (mem_range.mpr h0)
    simp only [hfix 0 h0, hc.diag 0 h0] at hle
    rw [h.solved.value] at hval
    exact absurd hval (not_lt.mpr hle)
  · exact ⟨v, hv, by simp [subtourVertices, hrun]⟩

/-- A tour leaves every subtour that is not a tour itself. -/
theorem IsTour.leaves {n v : ℕ} (hq : IsTour n q) (hp : IsPerm n p) (hv : v < n) (hopen : ¬ IsTour n p) :
    ∃ x ∈ orbit p v, q x ∉ orbit p v := by
  by_contra hno
  push Not at hno
  have hall : (orbit p v).toFinset = range n := hq.eq_range
    (fun x hx => mem_range.mpr (hp.orbit_lt hv (List.mem_toFinset.mp hx)))
    ⟨v, List.mem_toFinset.mpr (hp.self_mem_orbit hv)⟩
    (fun x hx => List.mem_toFinset.mpr (hno x (List.mem_toFinset.mp hx)))
  refine hopen (hp.isTour_of_orbit hv fun x hx => ?_)
  exact List.mem_toFinset.mp (hall ▸ mem_range.mpr hx)

/-! ### Rule 2 -/

theorem branchingRule2_spec (hc : Costs data) (hn : 2 ≤ data.rank) (h : node.Valid data)
    (hf : data.rank < fuel) : ∃ vs, Subtour data node vs ∧
      BranchingRule.rule2.nodes fuel data node = some (rule2Nodes node vs, []) := by
  obtain ⟨vs, hrun, hs⟩ := selectMove_spec hc hn h hf
  refine ⟨vs, hs, ?_⟩
  simp only [BranchingRule.nodes, branchingRule2, hrun, rule2Nodes, Option.bind_eq_bind,
    Option.bind_some, Option.pure_def, Option.map_some, List.map_map]
  rfl

namespace Subtour

variable {vs : List ℕ}

/-- Rule 2 keeps the tours of a node that is not a tour. -/
theorem keeps2 (hs : Subtour data node vs) (hopen : ¬ IsTour data.rank node.primal) (hn : 2 ≤ data.rank)
    (hq : q ∈ node.tours data) : Keeps data (rule2Nodes node vs) q := by
  obtain ⟨x, hx, hqx⟩ := hs.differs hopen hn hq
  refine .inl ⟨_, List.mem_map_of_mem hx, Node.Excludes.newNode_fits hq.2 ?_⟩
  exact List.forall_mem_singleton.mpr hqx

end Subtour

/-! ### Rule 4 -/

/-- The check of rule 4 holds where every vertex of the subtour has an edge to another one that is not
marked. -/
theorem branchingRule4_spec {vs : List ℕ} (hvs : subtourVertices fuel data node = some vs)
    (hsafe : ∀ i ∈ vs, ∃ j ∈ vs, j ≠ i ∧ node.edgeMap (i, j) = false) :
    BranchingRule.rule4.nodes fuel data node =
      some (vs.map fun i => newNode node [] (rule4Edges node vs i), []) := by
  have hall : ∀ i ∈ vs, (if rule4Edges node vs i = [] then none else
      some (newNode node [] (rule4Edges node vs i))) = some (newNode node [] (rule4Edges node vs i)) := by
    intro i hi
    obtain ⟨j, hj, hji, hmark⟩ := hsafe i hi
    exact if_neg (List.ne_nil_of_mem (mem_rule4Edges.mpr ⟨rfl, hj, hji, hmark⟩))
  simp only [BranchingRule.nodes, branchingRule4, hvs, Option.bind_eq_bind, Option.bind_some]
  exact congrArg (Option.map (·, [])) (mapM_some hall)

section Rule4

variable {v : ℕ} (h : node.Excludes data)

include h

theorem rule4_splits (hv : v < data.rank)
    (hsafe : ∀ i ∈ orbit node.primal v, ∃ j ∈ orbit node.primal v, j ≠ i ∧ node.edgeMap (i, j) = false) :
    Splits data node ((orbit node.primal v).map fun i =>
      newNode node [] (rule4Edges node (orbit node.primal v) i)) := by
  refine (h.bare.places fun new hnew => ?_).splits h.valid.solved
  obtain ⟨i, hi, rfl⟩ := List.mem_map.mp hnew
  obtain ⟨j, hj, hji, hmark⟩ := hsafe i hi
  refine ⟨_, rfl, List.ne_nil_of_mem (mem_rule4Edges.mpr ⟨rfl, hj, hji, hmark⟩), fun e he => ?_⟩
  obtain ⟨rfl, he2, _, hmark⟩ := mem_rule4Edges.mp he
  exact ⟨h.valid.solved.perm.orbit_lt hv hi, h.valid.solved.perm.orbit_lt hv he2, hmark⟩

omit h in
/-- The new node of a vertex where a tour leaves the subtour keeps the tour. -/
theorem rule4_leaves (hfit : node.Fits q) (hleave : ∃ x ∈ orbit node.primal v, q x ∉ orbit node.primal v) :
    ∃ new ∈ (orbit node.primal v).map fun i => newNode node [] (rule4Edges node (orbit node.primal v) i),
      new.Fits q := by
  obtain ⟨x, hx, hqx⟩ := hleave
  refine ⟨_, List.mem_map_of_mem hx, Node.Excludes.newNode_fits hfit fun e he heq => hqx ?_⟩
  obtain ⟨rfl, he2, _⟩ := mem_rule4Edges.mp he
  exact heq ▸ he2

theorem rule4_keeps (hc : Costs data) (hn : 2 ≤ data.rank) (hv : v < data.rank)
    (hq : q ∈ node.tours data) : Keeps data ((orbit node.primal v).map fun i =>
      newNode node [] (rule4Edges node (orbit node.primal v) i)) q := by
  have hperm := h.valid.solved.perm
  by_cases htour : IsTour data.rank node.primal
  · refine excludeRow_keeps hn hc h htour hq fun i hi => ?_
    have hall := htour.mem_orbit hv
    refine ⟨_, List.mem_map_of_mem (hall i hi), fun e he => ?_, fun j hj hji => ?_⟩
    · obtain ⟨rfl, he2, _⟩ := mem_rule4Edges.mp he
      exact ⟨rfl, hperm.orbit_lt hv he2⟩
    · exact mem_rule4Edges.mpr ⟨rfl, hall j hj, hji, h.valid.unmarked_of_tour htour _⟩
  · exact .inl (rule4_leaves hq.2 (hq.1.leaves hperm hv htour))

end Rule4

/-! ### Rule 5 -/

section Rule5

variable {v : ℕ} (h : node.Excludes data)

include h

/-- The vertices before the first one where a tour leaves the subtour stay in it. -/
theorem rule5_leaves (hv : v < data.rank) (hfit : node.Fits q)
    (hleave : ∃ x ∈ orbit node.primal v, q x ∉ orbit node.primal v)
    (hclean : ∀ i < data.rank, node.primal i ≠ i ∧ (i, node.primal i) ∉ node.excludedPoints) :
    ∃ new ∈ (rule5Nodes data node (orbit node.primal v)).filter
      fun child => decide (child.data.excludedEdges ≠ []), new.Fits q := by
  have hperm := h.valid.solved.perm
  obtain ⟨pre, x, post, hvs, hpre, hqx⟩ := exists_first hleave
  have hx : x ∈ orbit node.primal v := hvs ▸ List.mem_append_right _ List.mem_cons_self
  have hxlt := hperm.orbit_lt hv hx
  have hedge : node.edge x ∈ rule5Edges data node (orbit node.primal v) pre x :=
    mem_rule5Edges.mpr ⟨hperm.lt hxlt, h.edgeMap_false.mpr (hclean x hxlt).2,
      .inl ⟨hperm.orbit_closed hv hx, rfl, (hclean x hxlt).1⟩⟩
  refine ⟨newNode node [] (rule5Edges data node (orbit node.primal v) pre x),
    List.mem_filter.mpr ⟨by rw [hvs]; exact mem_rule5Nodes, decide_eq_true (List.ne_nil_of_mem hedge)⟩,
    Node.Excludes.newNode_fits hfit fun e he heq => ?_⟩
  obtain ⟨_, _, ⟨hin, he1, _⟩ | ⟨hout, he1, _⟩⟩ := mem_rule5Edges.mp he
  · exact hqx (he1 ▸ heq ▸ hin)
  · exact hout (heq ▸ hpre _ he1)

theorem rule5_keeps (hc : Costs data) (hn : 2 ≤ data.rank) (hv : v < data.rank)
    (hq : q ∈ node.tours data) : Keeps data ((rule5Nodes data node
      (orbit node.primal v)).filter fun child => decide (child.data.excludedEdges ≠ [])) q := by
  have hperm := h.valid.solved.perm
  by_cases htour : IsTour data.rank node.primal
  · have hall := htour.mem_orbit hv
    refine excludeRow_keeps hn hc h htour hq fun i hi => ?_
    obtain ⟨pre, post, hvs⟩ := List.append_of_mem (hall i hi)
    have hrow : ∀ j < data.rank, j ≠ i →
        (i, j) ∈ rule5Edges data node (orbit node.primal v) pre i := fun j hj hji =>
      mem_rule5Edges.mpr ⟨hj, h.valid.unmarked_of_tour htour _, .inl ⟨hall j hj, rfl, hji⟩⟩
    have hne := List.ne_nil_of_mem (hrow (node.primal i) (hperm.lt hi) (htour.ne hn hi))
    refine ⟨_, List.mem_filter.mpr ⟨?_, decide_eq_true hne⟩, fun e he => ?_, hrow⟩
    · rw [hvs]
      exact mem_rule5Nodes
    · obtain ⟨he2, _, ⟨_, he1, _⟩ | ⟨hout, _, _⟩⟩ := mem_rule5Edges.mp he
      · exact ⟨he1, he2⟩
      · exact absurd (hall _ he2) hout
  · exact .inl (rule5_leaves h hv hq.2 (hq.1.leaves hperm hv htour) fun i hi =>
      h.valid.solved.clean hc hq.1.perm hq.2 (hc.cost_lt hq.1.perm fun i hi => hq.1.ne hn hi) hi)

end Rule5

end Optimer.Tsp
