import Optimer.Tsp.Reached
import Optimer.Tsp.RuleAgreement

/-! The nodes that `branch` reaches, with costs any `n` of which are below `M_VAL`: what `transform_node`
makes of a new node, the tours that the rules keep, and the nodes without any tour. -/

namespace Optimer.Tsp
open Finset

variable {data : InitialData} {node new child m : Node} {fuel : ℕ} {rule : BranchingRule}
  {r : ValueType} {p q : ℕ → ℕ}

/-! ### Reached nodes -/

/-- A new node below a solved one can be transformed. -/
theorem Created.ready_of (hsolved : ∀ node, Reached fuel data rule node → node.Solved data)
    (h : Created fuel data rule new) : new.Ready data := by
  refine h.placed.ready fun parent hp => ?_
  cases h with
  | root => exact nomatch hp
  | child hnode hnodes hnew =>
    rw [(hnode.formed.places hnodes).1.parent _ hnew] at hp
    cases hp
    exact hsolved _ hnode

section Costs

variable (hc : Costs data) (hf : 2 * data.rank + 1 < fuel)

include hc hf

theorem Reached.solved (h : Reached fuel data rule node) : node.Solved data := by
  induction h with
  | root hrun =>
    obtain ⟨value, ap, hrun', hsolved⟩ := root_ready.transformNode hc hf
    cases hrun.symm.trans hrun'
    exact hsolved
  | child hnode hbranch hm ih =>
    obtain ⟨news, released, hnodes, new, hnew, hrun, _⟩ := branch_nodes hbranch hm
    have hplaces := (hnode.formed.places hnodes).1
    obtain ⟨value, ap, hrun', hsolved⟩ := ((hplaces.splits ih).ready new hnew).transformNode hc hf
    cases hrun.symm.trans hrun'
    exact hsolved

theorem Created.ready (h : Created fuel data rule new) : new.Ready data :=
  h.ready_of fun _ hnode => hnode.solved hc hf

theorem Reached.valid (h : Reached fuel data rule node) : node.Valid data := by
  refine ⟨h.solved hc hf, fun parent hp htour => ?_⟩
  have hopen := h.no_tour fun hnone => nomatch hp.symm.trans hnone
  by_cases h0 : data.rank = 0
  · -- without vertices no rule makes a new node
    cases h with
    | root hrun =>
      obtain ⟨⟨_, _, rfl⟩, _⟩ := root_placed.transformNode hrun
      exact nomatch hp
    | child hnode hbranch hm =>
      obtain ⟨news, released, hnodes, new, hnew, _⟩ := branch_nodes hbranch hm
      obtain ⟨e, he, _⟩ := (hnode.formed.places hnodes).1.fresh new hnew
      omega
  · have hsol := (htour.perm.hasSolution_iff (Nat.pos_of_ne_zero h0)).mpr htour
    exact Bool.false_ne_true (hopen.symm.trans hsol)

theorem Reached.rule_valid (h : Reached fuel data rule node) : rule.Valid data node := by
  have hvalid := h.valid hc hf
  have hformed := h.formed
  cases rule with
  | rule1 | rule3 => exact hvalid
  | rule2 | rule4 | rule5 =>
    have hbare : node.Bare data := hformed
    exact ⟨hvalid, hbare.included⟩

end Costs

/-! ### `transform_node` -/

/-- `transform_node` on all new nodes: the included edges have rows and columns of their own, so the
reduced problem is square and the checks hold; `ap_solver_` starts from prices that fit the reduced
matrix and are tight on a part of an assignment; and the node it leaves has an assignment with the
included edges and a value that no tour with its edges is below. -/
theorem transform_invariant (data : InitialData) (hc : Costs data) (rule : BranchingRule) (fuel : ℕ)
    (hf : 2 * data.rank + 1 < fuel) (new : Node) (hnew : Created fuel data rule new) :
    ((usedRows new).Nodup ∧ (usedCols new).Nodup ∧
      (kept data.rank (usedRows new)).length = dimensionNew data new ∧
      (kept data.rank (usedCols new)).length = dimensionNew data new) ∧
    (∃ start, apStart data new = some start ∧
      ∀ sol ∈ start, ApSolver.Warm (dimensionNew data new) (matrixNew data new) sol) ∧
    ∃ child, transformNode data new fuel = some child ∧ IsPerm data.rank child.primal ∧
      (∀ e ∈ new.includedPoints, child.primal e.1 = e.2) ∧
      ∀ q, IsTour data.rank q → new.Fits q → child.data.value ≤ cost data.rank data.matrix q := by
  have hready := hnew.ready hc hf
  refine ⟨⟨hready.edges.rows, hready.edges.cols, hready.edges.rows_length, hready.edges.cols_length⟩,
    hready.start hc, ?_⟩
  obtain ⟨value, ap, hrun, hsolved⟩ := hready.transformNode hc hf
  have hcomp : new.Completes data (new.solved value ap) := ⟨⟨fuel, hf, hrun⟩, hsolved⟩
  refine ⟨_, hrun, hsolved.perm, fun e he => ?_, fun q hq hfit => ?_⟩
  · exact hsolved.included e (hcomp.includedPoints ▸ he)
  · exact hsolved.value_le hc hq.perm (hcomp.fits hfit)

/-- The second new node of rule 3 includes an edge and excludes one. -/
theorem transform_invariant_pairs : ∃ root ∈ transformNode pairsData (.root {}) 40,
    ∃ nodes ∈ BranchingRule.rule3.nodes 40 pairsData root, ∃ new ∈ nodes.1,
      new.data.includedEdges ≠ [] ∧ new.data.excludedEdges ≠ [] ∧
        ∃ child, transformNode pairsData new 40 = some child ∧ IsPerm 4 child.primal := by
  have hrun : ∃ root ∈ transformNode pairsData (.root {}) 40,
      ∃ nodes ∈ BranchingRule.rule3.nodes 40 pairsData root, ∃ new ∈ nodes.1,
        new.data.includedEdges ≠ [] ∧ new.data.excludedEdges ≠ [] := by decide +kernel
  obtain ⟨root, hroot, nodes, hnodes, new, hnew, hinc, hexc⟩ := hrun
  obtain ⟨_, _, child, hchild, hperm, _⟩ := transform_invariant pairsData pairsData_costs .rule3 40
    (by decide) new (.child (.root hroot) hnodes hnew)
  exact ⟨root, hroot, nodes, hnodes, new, hnew, hinc, hexc, child, hchild, hperm⟩

/-! ### The tours of a node -/

theorem IsPerm.isTour_of_lt_three {n : ℕ} (h : IsPerm n p) (hne : ∀ i < n, p i ≠ i) (hn : n < 3) :
    IsTour n p := by
  refine ⟨h, fun i hi => ?_⟩
  have h0 : 0 < n := Nat.zero_lt_of_lt hi
  have hlt := h.lt h0
  have hfix := hne 0 h0
  rcases Nat.eq_zero_or_pos i with rfl | hpos
  · exact ⟨0, rfl⟩
  · exact ⟨1, by rw [Function.iterate_one]; omega⟩

theorem Node.Solved.ne_of_lt (h : node.Solved data) (hc : Costs data) (hval : node.data.value < mVal)
    {i : ℕ} (hi : i < data.rank) : node.primal i ≠ i := by
  intro hfix
  have hle := single_le_sum (f := fun i => data.matrix i (node.primal i))
    (fun i hi => hc.nonneg' (mem_range.mp hi) (h.perm.lt (mem_range.mp hi))) (mem_range.mpr hi)
  simp only [hfix, hc.diag i hi] at hle
  rw [h.value] at hval
  exact absurd hval (not_lt.mpr hle)

/-- Exactly one node of a list has a property. -/
def ExactlyOne (P : Node → Prop) (nodes : List Node) : Prop :=
  ∃ pre node post, nodes = pre ++ node :: post ∧ P node ∧ ∀ m ∈ pre ++ post, ¬ P m

theorem ExactlyOne.exists_mem {P : Node → Prop} {nodes : List Node} (h : ExactlyOne P nodes) :
    ∃ node ∈ nodes, P node := by
  obtain ⟨pre, node, post, rfl, hnode, _⟩ := h
  exact ⟨node, List.mem_append_right _ List.mem_cons_self, hnode⟩

/-- A tour uses the edge of rule 1 or it does not. -/
theorem rule1_one (hq : node.Fits q) (e : Edge) : ExactlyOne (fun new => new.Fits q) (rule1Nodes node e) := by
  have hinc : (newNode node [e] []).Fits q ↔ q e.1 = e.2 := by
    refine ⟨fun h => h.included e List.mem_cons_self, fun h => ⟨?_, hq.excluded⟩⟩
    exact List.forall_mem_cons.mpr ⟨h, hq.included⟩
  have hexc : (newNode node [] [e]).Fits q ↔ q e.1 ≠ e.2 := by
    refine ⟨fun h => h.excluded e List.mem_cons_self, fun h => ⟨hq.included, ?_⟩⟩
    exact List.forall_mem_cons.mpr ⟨h, hq.excluded⟩
  by_cases hqe : q e.1 = e.2
  · refine ⟨[newNode node [] [e]], newNode node [e] [], [], rfl, hinc.mpr hqe, ?_⟩
    exact List.forall_mem_singleton.mpr fun h => hexc.mp h hqe
  · refine ⟨[], newNode node [] [e], [newNode node [e] []], rfl, hexc.mpr hqe, ?_⟩
    exact List.forall_mem_singleton.mpr fun h => hqe (hinc.mp h)

/-- The first vertex where a tour leaves the assignment gives the new node of rule 3 that keeps the tour:
the nodes before it exclude an edge of the tour, and those after it include one the tour does not have. -/
theorem rule3_one {vs : List ℕ} {included : List Edge} (hq : (newNode node included []).Fits q)
    (hne : ∃ v ∈ vs, q v ≠ node.primal v) :
    ExactlyOne (fun new => new.Fits q) (rule3Nodes node included (vs.map node.edge)) := by
  induction vs generalizing included with
  | nil =>
    obtain ⟨v, hv, _⟩ := hne
    exact absurd hv List.not_mem_nil
  | cons x vs ih =>
    rw [List.map_cons, rule3Nodes]
    by_cases hx : q x = node.primal x
    · have hfits : (newNode node (included ++ [node.edge x]) []).Fits q := by
        refine ⟨fun e he => ?_, hq.excluded⟩
        simp only [newNode, Node.includedPoints, List.mem_append, List.mem_singleton] at he
        rcases he with (he | rfl) | he
        · exact hq.included e (List.mem_append_left _ he)
        · exact hx
        · exact hq.included e (List.mem_append_right _ he)
      have hne' : ∃ v ∈ vs, q v ≠ node.primal v := by
        obtain ⟨v, hv, hqv⟩ := hne
        rcases List.mem_cons.mp hv with rfl | hv
        · exact absurd hx hqv
        · exact ⟨v, hv, hqv⟩
      obtain ⟨pre, new, post, heq, hnew, hrest⟩ := ih hfits hne'
      refine ⟨_ :: pre, new, post, by rw [heq]; rfl, hnew, List.forall_mem_cons.mpr ⟨fun h => ?_, hrest⟩⟩
      exact h.excluded (node.edge x) List.mem_cons_self hx
    · refine ⟨[], _, _, rfl, ⟨hq.included, ?_⟩, fun m hm h => ?_⟩
      · exact List.forall_mem_cons.mpr ⟨hx, hq.excluded⟩
      · obtain ⟨pre, e, post, _, rfl⟩ := mem_rule3Nodes.mp hm
        refine hx (h.included (node.edge x) ?_)
        exact List.mem_append_left _ (List.mem_append_left _ (List.mem_append_right _
          (List.mem_singleton_self _)))

/-- Branching loses no tour: a rule returns at every node that is not a tour and has one below it, and
each such tour is allowed by one of the new nodes; by no more than one for rules 1 and 3. -/
theorem branching_loses_no_tour (data : InitialData) (hc : Costs data) (rule : BranchingRule) (fuel : ℕ)
    (hf : 2 * data.rank + 1 < fuel) (node : Node) (hnode : Reached fuel data rule node)
    (hval : node.data.value < mVal) (hopen : ¬ IsTour data.rank node.primal) (q : ℕ → ℕ)
    (hq : IsTour data.rank q) (hfit : node.Fits q) :
    ∃ news released, rule.nodes fuel data node = some (news, released) ∧ (∃ new ∈ news, new.Fits q) ∧
      (rule = .rule1 ∨ rule = .rule3 → ExactlyOne (fun new => new.Fits q) news) := by
  have hvalid := hnode.rule_valid hc hf
  have hsolved := hvalid.valid.solved
  have hn : 3 ≤ data.rank := by
    by_contra hlt
    exact hopen (hsolved.perm.isTour_of_lt_three (fun i hi => hsolved.ne_of_lt hc hval hi) (by omega))
  have hn2 : 2 ≤ data.rank := Nat.le_of_succ_le hn
  have hf' : data.rank < fuel := by omega
  have hmem : q ∈ node.tours data := ⟨hq, hfit⟩
  have hclean : ∀ i < data.rank, node.primal i ≠ i ∧ (i, node.primal i) ∉ node.excludedPoints :=
    fun i hi => hsolved.clean hc hq.perm hfit (hc.cost_lt hq.perm fun i hi => hq.ne hn2 hi) hi
  cases rule with
  | rule1 =>
    rcases branchingRule1_cases fuel data node with ⟨_, hnone⟩ | ⟨e, _, _, _, hnodes⟩
    · obtain ⟨i, hi, j, hj, hedge, hlow⟩ := exists_low hc hn hvalid hmem
      exact absurd hnone (minEdge_ne_none hi hj hedge hlow)
    · have hone := rule1_one hfit e
      exact ⟨_, _, hnodes, hone.exists_mem, fun _ => hone⟩
  | rule2 =>
    obtain ⟨vs, hs, hnodes⟩ := branchingRule2_spec hc hn2 hvalid.valid hf'
    obtain ⟨x, hx, hqx⟩ := hs.differs hopen hn2 hmem
    refine ⟨_, _, hnodes, ⟨_, List.mem_map_of_mem hx, Node.Excludes.newNode_fits hfit ?_⟩, ?_⟩
    · exact List.forall_mem_singleton.mpr hqx
    · exact fun hor => absurd hor (by decide)
  | rule3 =>
    obtain ⟨vs, hs, hnodes⟩ := branchingRule3_spec hc hn2 hvalid.valid hf'
    have hone : ExactlyOne (fun new => new.Fits q) (rule3Nodes node [] (vs.map node.edge)) :=
      rule3_one ⟨hfit.included, hfit.excluded⟩ (hs.differs hopen hn2 hmem)
    exact ⟨_, [], hnodes, hone.exists_mem, fun _ => hone⟩
  | rule4 =>
    have hnode : node.Excludes data := hvalid
    obtain ⟨v, hv, hvs⟩ := subtourVertices_spec hc hn2 hnode.valid hf' hval
    have hsafe : ∀ i ∈ orbit node.primal v, ∃ j ∈ orbit node.primal v, j ≠ i ∧
        node.edgeMap (i, j) = false := fun i hi => by
      obtain ⟨hne, hexc⟩ := hclean i (hsolved.perm.orbit_lt hv hi)
      exact ⟨node.primal i, hsolved.perm.orbit_closed hv hi, hne, hnode.edgeMap_false.mpr hexc⟩
    exact ⟨_, _, branchingRule4_spec hvs hsafe, rule4_leaves hfit (hq.leaves hsolved.perm hv hopen),
      fun hor => absurd hor (by decide)⟩
  | rule5 =>
    have hnode : node.Excludes data := hvalid
    obtain ⟨v, hv, hvs⟩ := subtourVertices_spec hc hn2 hnode.valid hf' hval
    obtain ⟨released, hnodes⟩ := branchingRule5_spec hvs
    exact ⟨_, _, hnodes, rule5_leaves hnode hv hfit (hq.leaves hsolved.perm hv hopen) hclean,
      fun hor => absurd hor (by decide)⟩

theorem branching_loses_no_tour_pairs : ∃ root ∈ transformNode pairsData (.root {}) 40,
    ∃ news released, BranchingRule.rule3.nodes 40 pairsData root = some (news, released) ∧
      ExactlyOne (fun new => new.Fits fun i => (i + 1) % 4) news := by
  have hrun : ∃ root ∈ transformNode pairsData (.root {}) 40, root.data.value < mVal ∧
      hasSolution root.primal 4 = false ∧ root.includedPoints = [] ∧ root.excludedPoints = [] := by
    decide +kernel
  obtain ⟨root, hroot, hval, hopen, hinc, hexc⟩ := hrun
  have hreached : Reached 40 pairsData .rule3 root := .root hroot
  have hperm : IsPerm 4 root.primal := (hreached.solved pairsData_costs (by decide)).perm
  have hno : ¬ IsTour 4 root.primal := fun htour => by
    have hsol := (hperm.hasSolution_iff (by decide)).mpr htour
    exact Bool.false_ne_true (hopen.symm.trans hsol)
  have hq : IsTour 4 fun i => (i + 1) % 4 := isTour_four (by decide) (by decide) (by decide)
  have hfit : root.Fits fun i => (i + 1) % 4 :=
    ⟨fun e he => absurd he (hinc ▸ List.not_mem_nil), fun e he => absurd he (hexc ▸ List.not_mem_nil)⟩
  obtain ⟨news, released, hnodes, _, hone⟩ := branching_loses_no_tour pairsData pairsData_costs .rule3 40
    (by decide) root hreached hval hno _ hq hfit
  exact ⟨root, hroot, news, released, hnodes, hone (.inr rfl)⟩

/-! ### Nodes without a tour -/

/-- `transform_node` gives the new node a value of at least `M_VAL`, so that `branch` drops it with every
record up to `M_VAL`. -/
def Discarded (fuel : ℕ) (data : InitialData) (new : Node) : Prop :=
  ∃ child, transformNode data new fuel = some child ∧ mVal ≤ child.data.value ∧
    ∀ b : Branched Node, b.record ≤ mVal →
      branchChild fuel data b new = some { b with released := b.released ++ [child] }

/-- Three vertices; the arcs between `0` and `1` cost `1` and the others nothing. -/
def tieData : InitialData where
  matrix i j := if i = j then mVal else if (i, j) ∈ [(0, 1), (1, 0)] then 1 else 0
  rank := 3
  size_lt := size_lt_three

/-- Where some cheapest assignments have a fixed point and others have none, it depends on the numbering of the
vertices. Exchanging `0` and `1` keeps the costs and makes one of these nodes the other. -/
theorem infeasible_tie : (∀ i < 3, ∀ j < 3,
      tieData.matrix (Equiv.swap 0 1 i) (Equiv.swap 0 1 j) = tieData.matrix i j) ∧
    ∃ a b, Created 40 tieData .rule4 a ∧ Created 40 tieData .rule4 b ∧
      a.includedPoints = [] ∧ a.excludedPoints = [(0, 1), (0, 2)] ∧ ¬ Discarded 40 tieData a ∧
      b.includedPoints = [] ∧ b.excludedPoints = [(1, 0), (1, 2)] ∧ Discarded 40 tieData b := by
  have hrun : ∃ root ∈ transformNode tieData (.root {}) 40, ∃ nodes ∈ BranchingRule.rule4.nodes 40 tieData root,
      (∃ a ∈ nodes.1, a.includedPoints = [] ∧ a.excludedPoints = [(0, 1), (0, 2)] ∧
        ∃ child ∈ transformNode tieData a 40, child.data.value < mVal) ∧
      ∃ b ∈ nodes.1, b.includedPoints = [] ∧ b.excludedPoints = [(1, 0), (1, 2)] ∧
        ∃ child ∈ transformNode tieData b 40, mVal ≤ child.data.value := by decide +kernel
  obtain ⟨root, hroot, nodes, hnodes, ⟨a, ha, hainc, haexc, m, hm, hlt⟩, b, hb, hbinc, hbexc, m', hm', hle⟩ := hrun
  refine ⟨by decide +kernel, a, b, .child (.root hroot) hnodes ha, .child (.root hroot) hnodes hb, hainc, haexc,
    ?_, hbinc, hbexc, m', hm', hle, fun b hbr => branchChild_of_le hm' (hbr.trans hle)⟩
  rintro ⟨m'', hm'', hle', _⟩
  cases hm.symm.trans hm''
  exact absurd hlt (not_lt.mpr hle')

end Optimer.Tsp
