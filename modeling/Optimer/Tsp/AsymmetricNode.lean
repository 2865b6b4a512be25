import Mathlib.Data.List.GetD
import Mathlib.Tactic.Linarith
import Optimer.Tsp.ApSolverCorrect
import Optimer.Tsp.Asymmetric

/-! `transform_node`: the prices and the assignment a node takes over from its parent fit the reduced
problem, and its value is a lower bound for the tours its edges allow. -/

namespace Optimer.Tsp
open Assignment Finset

/-! ### The kept rows and columns -/

section Kept

variable {n k : ℕ} {used : List ℕ}

theorem kept_nodup : (kept n used).Nodup := List.nodup_range.filter _

theorem mem_kept : k ∈ kept n used ↔ k < n ∧ k ∉ used := by simp [kept]

theorem kept_length (hnodup : used.Nodup) (hlt : ∀ k ∈ used, k < n) :
    (kept n used).length = n - used.length := by
  have hkept : (kept n used).toFinset = range n \ used.toFinset := by
    ext k
    simp [mem_kept]
  have hsub : used.toFinset ⊆ range n := fun k hk => mem_range.mpr (hlt k (List.mem_toFinset.mp hk))
  rw [← List.toFinset_card_of_nodup kept_nodup, hkept, card_sdiff_of_subset hsub, card_range,
    List.toFinset_card_of_nodup hnodup]

theorem newToOriginal_mem (hk : k < (kept n used).length) :
    newToOriginal n used k < n ∧ newToOriginal n used k ∉ used := by
  rw [newToOriginal, List.getD_eq_getElem _ _ hk]
  exact mem_kept.mp (List.getElem_mem hk)

theorem originalToNew_lt (hk : k < n) (hused : k ∉ used) :
    originalToNew n used k < (kept n used).length := by
  rw [originalToNew, if_neg hused]
  exact List.idxOf_lt_length_of_mem (mem_kept.mpr ⟨hk, hused⟩)

theorem newToOriginal_originalToNew (hk : k < n) (hused : k ∉ used) :
    newToOriginal n used (originalToNew n used k) = k := by
  have hlt := originalToNew_lt hk hused
  rw [originalToNew, if_neg hused] at hlt ⊢
  rw [newToOriginal, List.getD_eq_getElem _ _ hlt, List.getElem_idxOf]

theorem originalToNew_newToOriginal (hk : k < (kept n used).length) :
    originalToNew n used (newToOriginal n used k) = k := by
  rw [originalToNew, if_neg (newToOriginal_mem hk).2, newToOriginal, List.getD_eq_getElem _ _ hk]
  exact kept_nodup.idxOf_getElem k hk

theorem newToOriginal_inj {l : ℕ} (hk : k < (kept n used).length) (hl : l < (kept n used).length)
    (h : newToOriginal n used k = newToOriginal n used l) : k = l := by
  rw [← originalToNew_newToOriginal hk, h, originalToNew_newToOriginal hl]

theorem originalToNew_inj {l : ℕ} (hk : k < n) (hku : k ∉ used) (hl : l < n) (hlu : l ∉ used)
    (h : originalToNew n used k = originalToNew n used l) : k = l := by
  rw [← newToOriginal_originalToNew hk hku, h, newToOriginal_originalToNew hl hlu]

end Kept

/-! ### Nodes -/

variable {data : InitialData} {node : Node} {i j : ℕ} {p q : ℕ → ℕ}

namespace Node

@[simp] theorem includedPoints_solved (node : Node) (value sol) :
    (node.solved value sol).includedPoints = node.includedPoints := by
  cases node <;> rfl

@[simp] theorem excludedPoints_solved (node : Node) (value sol) :
    (node.solved value sol).excludedPoints = node.excludedPoints := by
  cases node <;> rfl

@[simp] theorem parent?_solved (node : Node) (value sol) :
    (node.solved value sol).parent? = node.parent? := by
  cases node <;> rfl

@[simp] theorem data_solved (node : Node) (value sol) : (node.solved value sol).data =
    { node.data with value, apSolution := sol } := by
  cases node <;> rfl

/-- The assignment contains the included edges and none of the excluded ones. -/
structure Fits (node : Node) (p : ℕ → ℕ) : Prop where
  included : ∀ e ∈ node.includedPoints, p e.1 = e.2
  excluded : ∀ e ∈ node.excludedPoints, p e.1 ≠ e.2

/-- The costs of the assignment problem of a node. -/
def cost (data : InitialData) (node : Node) (i j : ℕ) : ValueType :=
  if (i, j) ∈ node.excludedPoints then mVal else data.matrix i j

/-- The rows and the columns that no included edge uses. -/
def rows (data : InitialData) (node : Node) : Finset ℕ :=
  (range data.rank).filter fun i => i ∉ usedRows node

def cols (data : InitialData) (node : Node) : Finset ℕ :=
  (range data.rank).filter fun j => j ∉ usedCols node

/-- The included edges of a node form a part of an assignment. -/
structure Included (data : InitialData) (node : Node) : Prop where
  lt : ∀ e ∈ node.includedPoints, e.1 < data.rank ∧ e.2 < data.rank
  rows : (usedRows node).Nodup
  cols : (usedCols node).Nodup

/-- What `transform_node` stores in a node: an optimal solution of its assignment problem. -/
structure Solved (data : InitialData) (node : Node) : Prop where
  edges : node.Included data
  perm : IsPerm data.rank node.data.apSolution.primal
  included : ∀ e ∈ node.includedPoints, node.data.apSolution.primal e.1 = e.2
  feasible : Feasible (node.rows data) (node.cols data) (node.cost data)
    node.data.apSolution.dualU node.data.apSolution.dualV
  tight : ∀ i ∈ node.rows data, node.cost data i (node.data.apSolution.primal i) =
    node.data.apSolution.dualU i + node.data.apSolution.dualV (node.data.apSolution.primal i)
  dualU : ∀ i < data.rank, 0 ≤ node.data.apSolution.dualU i
  used : (∀ i ∈ usedRows node, node.data.apSolution.dualU i = 0) ∧
    ∀ j ∈ usedCols node, node.data.apSolution.dualV j = 0
  value : node.data.value = Tsp.cost data.rank data.matrix node.data.apSolution.primal

/-- What a rule has to give to `transform_node`: the node's own excluded edges are in free rows and
columns, and its parent has been solved. -/
structure Ready (data : InitialData) (node : Node) : Prop where
  edges : node.Included data
  excluded : ∀ e ∈ node.data.excludedEdges,
    (e.1 < data.rank ∧ e.1 ∉ usedRows node) ∧ e.2 < data.rank ∧ e.2 ∉ usedCols node
  parent : ∀ parent ∈ node.parent?, parent.Solved data

/-- What `transform_node` stores in a node with all costs: an assignment with the included edges. -/
structure Formed (data : InitialData) (node : Node) : Prop where
  edges : node.Included data
  perm : IsPerm data.rank node.data.apSolution.primal
  included : ∀ e ∈ node.includedPoints, node.data.apSolution.primal e.1 = e.2
  value : node.data.value = Tsp.cost data.rank data.matrix node.data.apSolution.primal

/-- What a rule gives to `transform_node` with all costs. -/
structure Placed (data : InitialData) (node : Node) : Prop where
  edges : node.Included data
  excluded : ∀ e ∈ node.data.excludedEdges,
    (e.1 < data.rank ∧ e.1 ∉ usedRows node) ∧ e.2 < data.rank ∧ e.2 ∉ usedCols node
  parent : ∀ parent ∈ node.parent?, parent.Formed data

theorem Solved.formed (h : node.Solved data) : node.Formed data :=
  ⟨h.edges, h.perm, h.included, h.value⟩

theorem Ready.placed (h : node.Ready data) : node.Placed data :=
  ⟨h.edges, h.excluded, fun parent hp => (h.parent parent hp).formed⟩

theorem Placed.ready (h : node.Placed data) (hparent : ∀ parent ∈ node.parent?, parent.Solved data) :
    node.Ready data :=
  ⟨h.edges, h.excluded, hparent⟩

theorem mem_rows : i ∈ node.rows data ↔ i < data.rank ∧ i ∉ usedRows node := by simp [rows]

theorem mem_cols : j ∈ node.cols data ↔ j < data.rank ∧ j ∉ usedCols node := by simp [cols]

/-- An assignment with the included edges assigns the free rows to the free columns. -/
theorem assigns_free (hp : IsPerm data.rank p) (hinc : node.Included data)
    (hfit : ∀ e ∈ node.includedPoints, p e.1 = e.2) : Assigns (node.rows data) (node.cols data) p := by
  refine ⟨fun i hi => ?_, fun i hi j hj heq => ?_, fun j hj => ?_⟩
  · obtain ⟨hi, hu⟩ := mem_rows.mp (mem_coe.mp hi)
    refine mem_coe.mpr (mem_cols.mpr ⟨hp.lt hi, fun hmem => hu ?_⟩)
    obtain ⟨e, he, hei⟩ := List.mem_map.mp hmem
    have heq := hp.inj (hinc.lt e he).1 hi ((hfit e he).trans hei)
    exact heq ▸ List.mem_map_of_mem he
  · exact hp.inj (mem_rows.mp (mem_coe.mp hi)).1 (mem_rows.mp (mem_coe.mp hj)).1 heq
  · obtain ⟨hj, hu⟩ := mem_cols.mp (mem_coe.mp hj)
    obtain ⟨i, hi, rfl⟩ := hp.surj hj
    refine ⟨i, mem_coe.mpr (mem_rows.mpr ⟨hi, fun hmem => hu ?_⟩), rfl⟩
    obtain ⟨e, he, rfl⟩ := List.mem_map.mp hmem
    exact List.mem_map.mpr ⟨e, he, (hfit e he).symm⟩

namespace Solved

/-- No assignment that fits the node is cheaper, not even on the free rows alone. -/
theorem free_le (h : node.Solved data) (hq : IsPerm data.rank q) (hfit : node.Fits q) :
    ∑ i ∈ node.rows data, node.cost data i (node.data.apSolution.primal i) ≤
      ∑ i ∈ node.rows data, data.matrix i (q i) := by
  have hle := h.feasible.optimal (assigns_free h.perm h.edges h.included) h.tight
    (assigns_free hq h.edges hfit.included)
  refine hle.trans_eq (sum_congr rfl fun i _ => if_neg fun hmem => ?_)
  exact hfit.excluded _ hmem rfl

theorem eq_used (h : node.Solved data) (hfit : node.Fits q) (hi : i ∈ usedRows node) :
    node.data.apSolution.primal i = q i := by
  obtain ⟨e, he, rfl⟩ := List.mem_map.mp hi
  rw [h.included e he, hfit.included e he]

theorem cost_split (data : InitialData) (node : Node) (f : ℕ → ℕ) : Tsp.cost data.rank data.matrix f =
    ∑ i ∈ node.rows data, data.matrix i (f i) +
      ∑ i ∈ (range data.rank).filter fun i => ¬ i ∉ usedRows node, data.matrix i (f i) :=
  (sum_filter_add_sum_filter_not _ _ _).symm

/-- The value of a node is a lower bound for the assignments that fit it. -/
theorem value_le (h : node.Solved data) (hc : Costs data)
    (hq : IsPerm data.rank q) (hfit : node.Fits q) :
    node.data.value ≤ Tsp.cost data.rank data.matrix q := by
  rw [h.value, cost_split data node, cost_split data node q]
  refine add_le_add (.trans (sum_le_sum fun i hi => ?_) (h.free_le hq hfit))
    (sum_le_sum fun i hi => ?_)
  · obtain ⟨hi, _⟩ := mem_rows.mp hi
    rw [Node.cost]
    split
    exacts [hc.le' hi (h.perm.lt hi), le_rfl]
  · rw [h.eq_used hfit (not_not.mp (mem_filter.mp hi).2)]

/-- Where an assignment cheaper than `M_VAL` fits the node, its own solution has no fixed point and no
excluded edge. -/
theorem clean (h : node.Solved data) (hc : Costs data) (hq : IsPerm data.rank q)
    (hfit : node.Fits q) (hlt : Tsp.cost data.rank data.matrix q < mVal) (hi : i < data.rank) :
    node.data.apSolution.primal i ≠ i ∧ (i, node.data.apSolution.primal i) ∉ node.excludedPoints := by
  have hnonneg : ∀ i ∈ range data.rank, 0 ≤ data.matrix i (q i) := fun i hi =>
    hc.nonneg' (mem_range.mp hi) (hq.lt (mem_range.mp hi))
  by_cases hu : i ∈ usedRows node
  · have heq := h.eq_used hfit hu
    rw [heq]
    refine ⟨fun hfix => ?_, fun hmem => hfit.excluded _ hmem rfl⟩
    have hle := single_le_sum (f := fun i => data.matrix i (q i)) hnonneg (mem_range.mpr hi)
    simp only [hfix, hc.diag i hi] at hle
    exact absurd hlt (not_lt.mpr hle)
  · have hnode : ∀ i ∈ node.rows data, 0 ≤ node.cost data i (node.data.apSolution.primal i) := by
      intro i hi
      obtain ⟨hi, _⟩ := mem_rows.mp hi
      rw [Node.cost]
      split
      exacts [Costs.mVal_pos.le, hc.nonneg' hi (h.perm.lt hi)]
    have hlt' : node.cost data i (node.data.apSolution.primal i) < mVal :=
      calc node.cost data i (node.data.apSolution.primal i)
        _ ≤ ∑ i ∈ node.rows data, node.cost data i (node.data.apSolution.primal i) :=
            single_le_sum (f := fun i => node.cost data i (node.data.apSolution.primal i)) hnode
              (mem_rows.mpr ⟨hi, hu⟩)
        _ ≤ ∑ i ∈ node.rows data, data.matrix i (q i) := h.free_le hq hfit
        _ ≤ Tsp.cost data.rank data.matrix q :=
            sum_le_sum_of_subset_of_nonneg (filter_subset _ _) fun i hi _ => hnonneg i hi
        _ < mVal := hlt
    refine ⟨fun hfix => ?_, fun hmem => ?_⟩
    · rw [Node.cost] at hlt'
      split at hlt'
      · exact lt_irrefl _ hlt'
      · rw [hfix, hc.diag i hi] at hlt'
        exact lt_irrefl _ hlt'
    · rw [Node.cost, if_pos hmem] at hlt'
      exact lt_irrefl _ hlt'

end Solved

end Node

/-! ### The assignment problem -/

theorem matrixNew_eq (i j : ℕ) : matrixNew data node i j = node.cost data
    (newToOriginal data.rank (usedRows node) i) (newToOriginal data.rank (usedCols node) j) := rfl

namespace Node

theorem Included.rows_length (h : node.Included data) :
    (kept data.rank (usedRows node)).length = dimensionNew data node := by
  rw [kept_length h.rows, usedRows, List.length_map, dimensionNew]
  intro k hk
  obtain ⟨e, he, rfl⟩ := List.mem_map.mp hk
  exact (h.lt e he).1

theorem Included.cols_length (h : node.Included data) :
    (kept data.rank (usedCols node)).length = dimensionNew data node := by
  rw [kept_length h.cols, usedCols, List.length_map, dimensionNew]
  intro k hk
  obtain ⟨e, he, rfl⟩ := List.mem_map.mp hk
  exact (h.lt e he).2

/-- The loop that takes the excluded edges out of an assignment unassigns their rows. -/
theorem unassign_spec {m : ℕ} {iNew jNew : ℕ → ℕ} {es : List Edge}
    (hcheck : ∀ e ∈ es, iNew e.1 < m ∧ jNew e.2 < m) (base : ℕ → ℕ) :
    ∃ primal, es.foldlM (fun primal e => if iNew e.1 < m ∧ jNew e.2 < m then
        some (Function.update primal (iNew e.1) m) else none) base = some primal ∧
      (∀ e ∈ es, primal (iNew e.1) = m) ∧ ∀ i, (∀ e ∈ es, iNew e.1 ≠ i) → primal i = base i := by
  induction es generalizing base with
  | nil => exact ⟨base, rfl, fun e he => absurd he List.not_mem_nil, fun i _ => rfl⟩
  | cons e es ih =>
    rw [List.foldlM_cons, if_pos (hcheck e List.mem_cons_self)]
    obtain ⟨primal, hrun, hout, hkeep⟩ := ih (fun e he => hcheck e (List.mem_cons_of_mem _ he))
      (Function.update base (iNew e.1) m)
    refine ⟨primal, hrun, List.forall_mem_cons.mpr ⟨?_, hout⟩, fun i hi => ?_⟩
    · by_cases hmem : ∃ f ∈ es, iNew f.1 = iNew e.1
      · obtain ⟨f, hf, hfe⟩ := hmem
        exact hfe ▸ hout f hf
      · rw [hkeep _ fun f hf hfe => hmem ⟨f, hf, hfe⟩, Function.update_self]
    · obtain ⟨hne, hes⟩ := List.forall_mem_cons.mp hi
      rw [hkeep i hes, Function.update_of_ne hne.symm]

/-- The checks hold: the rows of the edges the node excludes are unassigned and no others. -/
theorem Placed.inherited (h : node.Placed data) (parent : ApSolver.Solution) :
    ∃ primal, inheritedPrimal data node parent = some primal ∧
      (∀ e ∈ node.data.excludedEdges,
        primal (originalToNew data.rank (usedRows node) e.1) = dimensionNew data node) ∧
      ∀ i, (∀ e ∈ node.data.excludedEdges, originalToNew data.rank (usedRows node) e.1 ≠ i) →
        primal i = originalToNew data.rank (usedCols node)
          (parent.primal (newToOriginal data.rank (usedRows node) i)) := by
  refine unassign_spec (fun e he => ?_) _
  obtain ⟨⟨h1, h1u⟩, h2, h2u⟩ := h.excluded e he
  have hrow := originalToNew_lt h1 h1u
  have hcol := originalToNew_lt h2 h2u
  rw [h.edges.rows_length] at hrow
  rw [h.edges.cols_length] at hcol
  exact ⟨hrow, hcol⟩

/-- The solution a node inherits from its parent. -/
def inheritedSolution (data : InitialData) (node : Node) (parent : ApSolver.Solution) (primal : ℕ → ℕ) :
    ApSolver.Solution where
  dualU i := parent.dualU (newToOriginal data.rank (usedRows node) i)
  dualV j := parent.dualV (newToOriginal data.rank (usedCols node) j)
  primal := primal

theorem apStart_child {parent : Node} {d : TspSet} {primal : ℕ → ℕ}
    (h : inheritedPrimal data (.child parent d) parent.data.apSolution = some primal) :
    apStart data (.child parent d) =
      some (some (inheritedSolution data (.child parent d) parent.data.apSolution primal)) := by
  simp only [apStart, parent?, h]
  rfl

section Inherited

variable {parent : Node} {d : TspSet} {primal : ℕ → ℕ}

/-- A free row of a child is free in its parent, and so is a free column. -/
theorem rows_child (hi : i ∈ (Node.child parent d).rows data) : i ∈ parent.rows data := by
  obtain ⟨hi, hu⟩ := mem_rows.mp hi
  refine mem_rows.mpr ⟨hi, fun hmem => hu ?_⟩
  rw [usedRows, includedPoints, List.map_append]
  exact List.mem_append_right _ hmem

theorem cols_child (hj : j ∈ (Node.child parent d).cols data) : j ∈ parent.cols data := by
  obtain ⟨hj, hu⟩ := mem_cols.mp hj
  refine mem_cols.mpr ⟨hj, fun hmem => hu ?_⟩
  rw [usedCols, includedPoints, List.map_append]
  exact List.mem_append_right _ hmem

theorem Included.row_mem (h : node.Included data) (hi : i < dimensionNew data node) :
    newToOriginal data.rank (usedRows node) i ∈ node.rows data :=
  mem_rows.mpr (newToOriginal_mem (h.rows_length.symm ▸ hi))

theorem Included.col_mem (h : node.Included data) (hj : j < dimensionNew data node) :
    newToOriginal data.rank (usedCols node) j ∈ node.cols data :=
  mem_cols.mpr (newToOriginal_mem (h.cols_length.symm ▸ hj))

/-- A row that is still assigned has the column that its parent gave it. -/
theorem Placed.kept (h : (Node.child parent d).Placed data)
    (hrun : inheritedPrimal data (.child parent d) parent.data.apSolution = some primal)
    (hi : i < dimensionNew data (.child parent d))
    (hlt : primal i < dimensionNew data (.child parent d)) :
    (∀ e ∈ d.excludedEdges, e.1 ≠ newToOriginal data.rank (usedRows (.child parent d)) i) ∧
    newToOriginal data.rank (usedCols (.child parent d)) (primal i) =
      parent.data.apSolution.primal (newToOriginal data.rank (usedRows (.child parent d)) i) := by
  obtain ⟨primal', hrun', hout, hkeep⟩ := h.inherited parent.data.apSolution
  cases hrun.symm.trans hrun'
  have hne : ∀ e ∈ d.excludedEdges, originalToNew data.rank (usedRows (.child parent d)) e.1 ≠ i := by
    rintro e he rfl
    exact absurd (hout e he) (Nat.ne_of_lt hlt)
  refine ⟨fun e he heq => hne e he ?_, ?_⟩
  · rw [heq, originalToNew_newToOriginal (h.edges.rows_length.symm ▸ hi)]
  · have heq := hkeep i hne
    have hrow := (h.parent parent rfl).perm.lt (mem_rows.mp (h.edges.row_mem hi)).1
    rw [heq]
    -- a column below the dimension stands for the free column it came from
    refine newToOriginal_originalToNew hrow fun hu => ?_
    rw [heq, originalToNew, if_pos hu, dimensionNew] at hlt
    omega

theorem Placed.injective (h : (Node.child parent d).Placed data)
    (hrun : inheritedPrimal data (.child parent d) parent.data.apSolution = some primal) :
    ApSolver.Injective (dimensionNew data (.child parent d)) primal := by
  intro a ha b hb hlt heq
  have hpa := (h.kept hrun ha hlt).2
  have hpb := (h.kept hrun hb (heq ▸ hlt)).2
  have hr := (h.parent parent rfl).perm.inj (mem_rows.mp (h.edges.row_mem ha)).1
    (mem_rows.mp (h.edges.row_mem hb)).1 (by rw [← hpa, ← hpb, heq])
  exact newToOriginal_inj (h.edges.rows_length.symm ▸ ha) (h.edges.rows_length.symm ▸ hb) hr

end Inherited

/-- The inherited solution is one that `ApSolver::solve` can start from. -/
theorem Ready.warm {parent : Node} {d : TspSet} (hc : Costs data)
    (h : (Node.child parent d).Ready data) {primal : ℕ → ℕ}
    (hrun : inheritedPrimal data (.child parent d) parent.data.apSolution = some primal) :
    ApSolver.Warm (dimensionNew data (.child parent d)) (matrixNew data (.child parent d))
      (inheritedSolution data (.child parent d) parent.data.apSolution primal) := by
  have hp : parent.Solved data := h.parent parent rfl
  have hcost : ∀ r c, (r, c) ∉ d.excludedEdges →
      (Node.child parent d).cost data r c = parent.cost data r c := fun r c hown => by
    have hiff : (r, c) ∈ (Node.child parent d).excludedPoints ↔ (r, c) ∈ parent.excludedPoints :=
      List.mem_append.trans (or_iff_right hown)
    simp only [Node.cost, hiff]
  refine ⟨h.placed.injective hrun, fun i hi j hj => ?_, fun i hi hlt => ?_⟩
  · have hri := h.edges.row_mem hi
    have hcj := h.edges.col_mem hj
    refine (hp.feasible _ (rows_child hri) _ (cols_child hcj)).trans ?_
    rw [matrixNew_eq]
    by_cases hown : (newToOriginal data.rank (usedRows (.child parent d)) i,
        newToOriginal data.rank (usedCols (.child parent d)) j) ∈ d.excludedEdges
    · have hle : parent.cost data (newToOriginal data.rank (usedRows (.child parent d)) i)
          (newToOriginal data.rank (usedCols (.child parent d)) j) ≤ mVal := by
        rw [Node.cost]
        split
        exacts [le_rfl, hc.le' (mem_rows.mp hri).1 (mem_cols.mp hcj).1]
      have hmem := List.mem_append_left parent.excludedPoints hown
      exact hle.trans_eq (if_pos hmem).symm
    · rw [hcost _ _ hown]
  · obtain ⟨hexc, heq⟩ := h.placed.kept hrun hi hlt
    have htight := hp.tight _ (rows_child (h.edges.row_mem hi))
    simp only [inheritedSolution] at hlt ⊢
    rw [matrixNew_eq, heq, hcost]
    · exact htight
    · exact fun hown => hexc _ hown rfl

end Node

/-! ### Back to the whole problem -/

/-- The included edges written over an assignment. -/
theorem foldl_update {es : List Edge} (hrows : (es.map Prod.fst).Nodup) (base : ℕ → ℕ) :
    (∀ e ∈ es, (es.foldl (fun p e => Function.update p e.1 e.2) base) e.1 = e.2) ∧
      ∀ i, i ∉ es.map Prod.fst →
        (es.foldl (fun p e => Function.update p e.1 e.2) base) i = base i := by
  induction es generalizing base with
  | nil => exact ⟨fun e he => absurd he List.not_mem_nil, fun i _ => rfl⟩
  | cons f es ih =>
    rw [List.map_cons, List.nodup_cons] at hrows
    obtain ⟨hin, hout⟩ := ih hrows.2 (Function.update base f.1 f.2)
    simp only [List.foldl_cons]
    refine ⟨fun e he => ?_, fun i hi => ?_⟩
    · rcases List.mem_cons.mp he with rfl | he
      · rw [hout _ hrows.1, Function.update_self]
      · exact hin e he
    · rw [List.map_cons, List.mem_cons, not_or] at hi
      rw [hout i hi.2, Function.update_of_ne hi.1]

namespace Node

section Solved

variable {sol : ApSolver.Solution}

theorem apOriginal_used (h : node.Included data) :
    ∀ e ∈ node.includedPoints, (apOriginal data node sol).primal e.1 = e.2 :=
  (foldl_update h.rows _).1

theorem apOriginal_free (h : node.Included data) (hi : i ∉ usedRows node) :
    (apOriginal data node sol).primal i = newToOriginal data.rank (usedCols node)
      (sol.primal (originalToNew data.rank (usedRows node) i)) := by
  have hout := (foldl_update h.rows fun i => if i ∈ usedRows node then 0
    else newToOriginal data.rank (usedCols node)
      (sol.primal (originalToNew data.rank (usedRows node) i))).2 i hi
  rw [if_neg hi] at hout
  exact hout

theorem Included.new_row (h : node.Included data) (hi : i ∈ node.rows data) :
    originalToNew data.rank (usedRows node) i < dimensionNew data node := by
  obtain ⟨hi, hu⟩ := mem_rows.mp hi
  exact h.rows_length ▸ originalToNew_lt hi hu

theorem Included.new_col (h : node.Included data) (hj : j ∈ node.cols data) :
    originalToNew data.rank (usedCols node) j < dimensionNew data node := by
  obtain ⟨hj, hu⟩ := mem_cols.mp hj
  exact h.cols_length ▸ originalToNew_lt hj hu

/-- A solved reduced problem assigns the free rows to free columns. -/
theorem apOriginal_mem (h : node.Included data)
    (hsol : ApSolver.Total (dimensionNew data node) sol.primal)
    (hi : i ∈ node.rows data) : (apOriginal data node sol).primal i ∈ node.cols data := by
  rw [apOriginal_free h (mem_rows.mp hi).2]
  exact mem_cols.mpr (newToOriginal_mem (h.cols_length.symm ▸ hsol.lt _ (h.new_row hi)))

theorem apOriginal_perm (h : node.Included data)
    (hsol : ApSolver.Total (dimensionNew data node) sol.primal) :
    IsPerm data.rank (apOriginal data node sol).primal := by
  have hmixed : ∀ i ∈ usedRows node, ∀ j ∈ node.rows data,
      (apOriginal data node sol).primal i ≠ (apOriginal data node sol).primal j := by
    intro i hi j hj heq
    obtain ⟨e, he, rfl⟩ := List.mem_map.mp hi
    rw [apOriginal_used h e he] at heq
    exact (mem_cols.mp (apOriginal_mem h hsol hj)).2 (heq ▸ List.mem_map_of_mem he)
  refine .of_injective (fun i hi => ?_) fun i hi j hj heq => ?_
  · by_cases hu : i ∈ usedRows node
    · obtain ⟨e, he, rfl⟩ := List.mem_map.mp hu
      rw [apOriginal_used h e he]
      exact (h.lt e he).2
    · exact (mem_cols.mp (apOriginal_mem h hsol (mem_rows.mpr ⟨hi, hu⟩))).1
  · by_cases hiu : i ∈ usedRows node <;> by_cases hju : j ∈ usedRows node
    · obtain ⟨e, he, rfl⟩ := List.mem_map.mp hiu
      obtain ⟨f, hf, rfl⟩ := List.mem_map.mp hju
      rw [apOriginal_used h e he, apOriginal_used h f hf] at heq
      rw [List.inj_on_of_nodup_map h.cols he hf heq]
    · exact absurd heq (hmixed i hiu j (mem_rows.mpr ⟨hj, hju⟩))
    · exact absurd heq.symm (hmixed j hju i (mem_rows.mpr ⟨hi, hiu⟩))
    · have hir := h.new_row (mem_rows.mpr ⟨hi, hiu⟩)
      have hjr := h.new_row (mem_rows.mpr ⟨hj, hju⟩)
      rw [apOriginal_free h hiu, apOriginal_free h hju] at heq
      have heq := newToOriginal_inj (h.cols_length.symm ▸ hsol.lt _ hir)
        (h.cols_length.symm ▸ hsol.lt _ hjr) heq
      exact originalToNew_inj hi hiu hj hju (hsol.injective _ hir _ hjr (hsol.lt _ hir) heq)

/-- A solved reduced problem gives a solved node. -/
theorem Included.solved (h : node.Included data)
    (hsol : ApSolver.Solved (dimensionNew data node) (matrixNew data node) sol)
    (hdual : ∀ i < dimensionNew data node, 0 ≤ sol.dualU i) :
    (node.solved (Tsp.cost data.rank data.matrix (apOriginal data node sol).primal)
      (apOriginal data node sol)).Solved data := by
  have hcost : ∀ value ap, (node.solved value ap).cost data = node.cost data := fun value ap => by
    unfold Node.cost
    rw [excludedPoints_solved]
  have hrows : ∀ value ap, (node.solved value ap).rows data = node.rows data := fun value ap => by
    unfold Node.rows usedRows
    rw [includedPoints_solved]
  have hcols : ∀ value ap, (node.solved value ap).cols data = node.cols data := fun value ap => by
    unfold Node.cols usedCols
    rw [includedPoints_solved]
  refine ⟨⟨?_, ?_, ?_⟩, ?_, ?_, ?_, ?_, fun i hi => ?_, ⟨fun i hi => ?_, fun j hj => ?_⟩, ?_⟩
  · simpa using h.lt
  · simpa [usedRows] using h.rows
  · simpa [usedCols] using h.cols
  · simpa using apOriginal_perm h hsol.total
  · exact fun e he => by simpa using apOriginal_used h e (by simpa using he)
  · rw [hrows, hcols, hcost, data_solved]
    intro r hr c hc
    have hfeas := hsol.priced.feasible _ (h.new_row hr) _ (h.new_col hc)
    rw [matrixNew_eq, newToOriginal_originalToNew (mem_rows.mp hr).1 (mem_rows.mp hr).2,
      newToOriginal_originalToNew (mem_cols.mp hc).1 (mem_cols.mp hc).2] at hfeas
    simpa [apOriginal, (mem_rows.mp hr).2, (mem_cols.mp hc).2] using hfeas
  · rw [hrows, hcost, data_solved]
    intro r hr
    have hlt := hsol.lt _ (h.new_row hr)
    have htight := hsol.priced.tight _ (h.new_row hr) hlt
    have hcol := apOriginal_mem h hsol.total hr
    rw [matrixNew_eq, newToOriginal_originalToNew (mem_rows.mp hr).1 (mem_rows.mp hr).2,
      ← apOriginal_free h (mem_rows.mp hr).2] at htight
    have hback : originalToNew data.rank (usedCols node) ((apOriginal data node sol).primal r) =
        sol.primal (originalToNew data.rank (usedRows node) r) := by
      rw [apOriginal_free h (mem_rows.mp hr).2]
      exact originalToNew_newToOriginal (h.cols_length.symm ▸ hlt)
    have hu : (apOriginal data node sol).dualU r = sol.dualU (originalToNew data.rank (usedRows node) r) :=
      if_neg (mem_rows.mp hr).2
    have hv : (apOriginal data node sol).dualV ((apOriginal data node sol).primal r) =
        sol.dualV (originalToNew data.rank (usedCols node) ((apOriginal data node sol).primal r)) :=
      if_neg (mem_cols.mp hcol).2
    simp only
    rw [hu, hv, hback]
    exact htight
  · rw [data_solved]
    show 0 ≤ if i ∈ usedRows node then 0 else sol.dualU (originalToNew data.rank (usedRows node) i)
    split
    · exact le_rfl
    · next hu => exact hdual _ (h.new_row (mem_rows.mpr ⟨hi, hu⟩))
  · rw [usedRows, includedPoints_solved] at hi
    rw [data_solved]
    exact if_pos hi
  · rw [usedCols, includedPoints_solved] at hj
    rw [data_solved]
    exact if_pos hj
  · simp

end Solved

/-- The prices of the rows that `transform_node` starts from are not negative. -/
theorem Ready.dualU_nonneg (h : node.Ready data) (hc : Costs data) {start : Option ApSolver.Solution}
    (hstart : apStart data node = some start) {i : ℕ} (hi : i < dimensionNew data node) :
    0 ≤ (ApSolver.preprocess (dimensionNew data node) (matrixNew data node) start).2.dualU i := by
  have hrow := newToOriginal_mem (h.edges.rows_length.symm ▸ hi)
  cases node with
  | root d =>
    cases hstart
    refine ApSolver.minOver_nonneg fun j hj => ?_
    have hcol := newToOriginal_mem (h.edges.cols_length.symm ▸ hj)
    exact hc.nonneg' hrow.1 hcol.1
  | child parent d =>
    obtain ⟨primal, hrun, _⟩ := h.placed.inherited parent.data.apSolution
    cases (apStart_child hrun).symm.trans hstart
    exact (h.parent parent rfl).dualU _ hrow.1

/-- The checks of `transform_node` hold, and `ap_solver_` starts from prices and an assignment that fit
the reduced problem. -/
theorem Ready.start (h : node.Ready data) (hc : Costs data) : ∃ start, apStart data node = some start ∧
    ∀ sol ∈ start, ApSolver.Warm (dimensionNew data node) (matrixNew data node) sol := by
  cases node with
  | root d => exact ⟨none, rfl, fun sol hsol => nomatch hsol⟩
  | child parent d =>
    obtain ⟨primal, hrun, _⟩ := h.placed.inherited parent.data.apSolution
    refine ⟨some _, apStart_child hrun, fun _ hsol => ?_⟩
    exact Option.mem_some_iff.mp hsol ▸ h.warm hc hrun

/-- With all costs, a run of `transform_node` that ends gives a node with an assignment. -/
theorem Placed.transformNode (h : node.Placed data) {fuel : ℕ} {child : Node}
    (hrun : Tsp.transformNode data node fuel = some child) :
    (∃ value sol, child = node.solved value sol) ∧ child.Formed data := by
  simp only [Tsp.transformNode, Option.bind_eq_bind, Option.bind_eq_some_iff, Option.pure_def,
    Option.some.injEq] at hrun
  obtain ⟨start, hstart, sol, hsolve, rfl⟩ := hrun
  have hinj : ∀ sol ∈ start, ApSolver.Injective (dimensionNew data node) sol.primal := by
    cases node with
    | root d =>
      cases hstart
      exact fun sol hsol => nomatch hsol
    | child parent d =>
      obtain ⟨primal, hprimal, _⟩ := h.inherited parent.data.apSolution
      cases (apStart_child hprimal).symm.trans hstart
      exact fun sol hsol => Option.mem_some_iff.mp hsol ▸ h.injective hprimal
  have htotal := ApSolver.solve_total hinj hsolve
  refine ⟨⟨_, _, rfl⟩, ⟨⟨?_, ?_, ?_⟩, ?_, ?_, ?_⟩⟩
  · simpa using h.edges.lt
  · simpa [usedRows] using h.edges.rows
  · simpa [usedCols] using h.edges.cols
  · simpa using apOriginal_perm h.edges htotal
  · exact fun e he => by simpa using apOriginal_used h.edges e (by simpa using he)
  · simp

/-- `transform_node` ends, with a solved node. -/
theorem Ready.transformNode (h : node.Ready data) (hc : Costs data) {fuel : ℕ}
    (hf : 2 * data.rank + 1 < fuel) : ∃ value sol,
      Tsp.transformNode data node fuel = some (node.solved value sol) ∧
        (node.solved value sol).Solved data := by
  obtain ⟨start, hrun, hwarm⟩ := h.start hc
  have hfuel : 2 * dimensionNew data node + 1 < fuel := by
    unfold dimensionNew
    omega
  obtain ⟨sol, hsolve, hsol, hdual⟩ := ApSolver.solve_spec hwarm hfuel
  refine ⟨_, apOriginal data node sol, ?_, h.edges.solved hsol fun i hi => ?_⟩
  · simp [Tsp.transformNode, hrun, hsolve]
  · exact (h.dualU_nonneg hc hrun hi).trans (hdual i)

/-- The assignment of a node. -/
abbrev primal (node : Node) : ℕ → ℕ := node.data.apSolution.primal

/-- The edge of an assignment at a vertex. -/
abbrev edge (node : Node) (v : ℕ) : Edge := (v, node.primal v)

theorem edgeMap_eq_true {e : Edge} :
    node.edgeMap e = true ↔ e ∈ node.includedPoints ∨ e ∈ node.excludedPoints := by
  simp [edgeMap]

/-- The places of the matrix without a mark. -/
def unmarked (data : InitialData) (node : Node) : Finset Edge :=
  (range data.rank ×ˢ range data.rank).filter fun e => node.edgeMap e = false

end Node

end Optimer.Tsp
