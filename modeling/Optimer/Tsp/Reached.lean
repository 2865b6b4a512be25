import Mathlib.Data.Fintype.Prod
import Optimer.Tsp.RuleShape

/-! The nodes that repeated calls of `branch` reach, with all costs: every branching step marks a new edge
and a record comes with its route. Only the check of rule 4 can stop a step. -/

namespace Optimer.Tsp
open Finset

/-- The nodes that `get_initial_node` and calls of `branch` give out, with any record and solution. -/
inductive Reached (fuel : ℕ) (data : InitialData) (rule : BranchingRule) : Node → Prop
  | root {node} : transformNode data (.root {}) fuel = some node → Reached fuel data rule node
  | child {node r sol b m} : Reached fuel data rule node → branch fuel data rule node r sol = some b →
      m ∈ b.nodes → Reached fuel data rule m

/-- The nodes that are given to `transform_node`. -/
inductive Created (fuel : ℕ) (data : InitialData) (rule : BranchingRule) : Node → Prop
  | root : Created fuel data rule (.root {})
  | child {node news released new} : Reached fuel data rule node →
      rule.nodes fuel data node = some (news, released) → new ∈ news → Created fuel data rule new

/-- Calls of `branch` on nodes that have been reached, one after the other on the same record and
solution. -/
inductive Calls (fuel : ℕ) (data : InitialData) (rule : BranchingRule) (r : ValueType) (sol : Solution) :
    ValueType → Solution → Prop
  | nil : Calls fuel data rule r sol r sol
  | call {node r' sol' b} : Calls fuel data rule r sol r' sol' → Reached fuel data rule node →
      branch fuel data rule node r' sol' = some b → Calls fuel data rule r sol b.record b.sol

/-! ### Calls of `branch` -/

variable {data : InitialData} {node new child m : Node} {news released : List Node} {fuel : ℕ}
  {rule : BranchingRule} {r r' : ValueType} {sol sol' : Solution} {b b' : Branched Node}

/-- What the loop of `branch` does with a new node: it takes it for a record, returns it or drops it. -/
theorem branchChild_cases (h : branchChild fuel data b new = some b') :
    ∃ child, transformNode data new fuel = some child ∧
      (hasSolution child.primal data.rank = true ∧ child.data.value < b.record ∧
          createTour child.primal data.rank ≠ [] ∧ b'.record = child.data.value ∧
          b'.sol = ⟨child.data.value, createTour child.primal data.rank⟩ ∧ b'.nodes = b.nodes ∨
        (b'.record = b.record ∧ b'.sol = b.sol) ∧
          (b'.nodes = b.nodes ∨ hasSolution child.primal data.rank = false ∧
            child.data.value < b.record ∧ b'.nodes = b.nodes ++ [child])) := by
  simp only [branchChild, Option.bind_eq_bind, Option.bind_eq_some_iff, Option.pure_def] at h
  obtain ⟨child, hrun, h⟩ := h
  refine ⟨child, hrun, ?_⟩
  by_cases hsol : hasSolution child.primal data.rank = true
  · rw [if_pos hsol] at h
    by_cases hlt : child.data.value < b.record
    · rw [if_pos hlt] at h
      by_cases hroute : createTour child.primal data.rank = []
      · exact nomatch (if_pos hroute).symm.trans h
      · cases (if_neg hroute).symm.trans h
        exact .inl ⟨hsol, hlt, hroute, rfl, rfl, rfl⟩
    · rw [if_neg hlt] at h
      cases h
      exact .inr ⟨⟨rfl, rfl⟩, .inl rfl⟩
  · rw [if_neg hsol] at h
    by_cases hlt : child.data.value < b.record
    · rw [if_pos hlt] at h
      cases h
      exact .inr ⟨⟨rfl, rfl⟩, .inr ⟨Bool.not_eq_true _ ▸ hsol, hlt, rfl⟩⟩
    · rw [if_neg hlt] at h
      cases h
      exact .inr ⟨⟨rfl, rfl⟩, .inl rfl⟩

/-- The nodes after the loop are those before it and new nodes without a tour. -/
theorem branchChildren_nodes (h : news.foldlM (branchChild fuel data) b = some b') :
    ∀ m ∈ b'.nodes, m ∈ b.nodes ∨ ∃ new ∈ news, transformNode data new fuel = some m ∧
      hasSolution m.primal data.rank = false := by
  induction news generalizing b with
  | nil =>
    cases h
    exact fun m hm => .inl hm
  | cons new news ih =>
    rw [List.foldlM_cons, Option.bind_eq_bind, Option.bind_eq_some_iff] at h
    obtain ⟨b₁, hstep, h⟩ := h
    intro m hm
    rcases ih h m hm with hm | ⟨new', hnew, hm⟩
    · obtain ⟨child, hrun, ⟨_, _, _, _, _, heq⟩ | ⟨_, heq | ⟨hopen, _, heq⟩⟩⟩ := branchChild_cases hstep
      · exact .inl (heq ▸ hm)
      · exact .inl (heq ▸ hm)
      · rcases List.mem_append.mp (heq ▸ hm) with hm | hm
        · exact .inl hm
        · cases List.mem_singleton.mp hm
          exact .inr ⟨new, List.mem_cons_self, hrun, hopen⟩
    · exact .inr ⟨new', List.mem_cons_of_mem new hnew, hm⟩

/-- A call that returns nodes has called the rule. -/
theorem branch_nodes (h : branch fuel data rule node r sol = some b) (hm : m ∈ b.nodes) :
    ∃ news released, rule.nodes fuel data node = some (news, released) ∧
      ∃ new ∈ news, transformNode data new fuel = some m ∧ hasSolution m.primal data.rank = false := by
  rw [branch] at h
  split at h
  · cases h
    exact absurd hm List.not_mem_nil
  · simp only [Option.bind_eq_bind, Option.bind_eq_some_iff, Prod.exists] at h
    obtain ⟨news, released, hnodes, h⟩ := h
    exact ⟨news, released, hnodes, (branchChildren_nodes h m hm).resolve_left List.not_mem_nil⟩

theorem root_placed : (Node.root {}).Placed data where
  edges := ⟨fun _ h => absurd h List.not_mem_nil, .nil, .nil⟩
  excluded _ h := absurd h List.not_mem_nil
  parent _ h := nomatch h

namespace Reached

/-- Every node reached has an assignment with its included edges. -/
theorem formed (h : Reached fuel data rule node) : rule.Formed data node := by
  induction h with
  | root hrun =>
    obtain ⟨⟨_, _, rfl⟩, hformed⟩ := root_placed.transformNode hrun
    exact .root hformed (Node.includedPoints_solved ..)
  | child _ hbranch hm ih =>
    obtain ⟨news, released, hnodes, new, hnew, hrun, _⟩ := branch_nodes hbranch hm
    obtain ⟨hplaces, hchild⟩ := ih.places hnodes
    obtain ⟨⟨_, _, rfl⟩, hformed⟩ := (hplaces.placed new hnew).transformNode hrun
    exact hchild new hnew _ hformed (Node.includedPoints_solved ..)

/-- Only the root may have a tour for its assignment. -/
theorem no_tour (h : Reached fuel data rule node) (hchild : node.parent? ≠ none) :
    hasSolution node.primal data.rank = false := by
  cases h with
  | root hrun =>
    obtain ⟨⟨_, _, rfl⟩, _⟩ := root_placed.transformNode hrun
    exact absurd rfl hchild
  | child _ hbranch hm =>
    obtain ⟨_, _, _, _, _, _, hopen⟩ := branch_nodes hbranch hm
    exact hopen

end Reached

theorem Created.placed (h : Created fuel data rule new) : new.Placed data := by
  cases h with
  | root => exact root_placed
  | child hnode hnodes hnew => exact (hnode.formed.places hnodes).1.placed _ hnew

/-! ### Records -/

/-- The solution is a closed route from `0` through every vertex, and costs what the record says. -/
structure Recorded (data : InitialData) (r : ValueType) (sol : Solution) : Prop where
  value : sol.value = r
  route : ∃ l, (0 :: l).Perm (List.range data.rank) ∧ sol.route = 0 :: (l ++ [0])
  cost : calcValue data.matrix sol.route = r

theorem Recorded.exists_tour (h : Recorded data r sol) :
    ∃ p, IsTour data.rank p ∧ Tsp.cost data.rank data.matrix p = r := by
  obtain ⟨l, hperm, hroute⟩ := h.route
  have hclosed : ClosedRoute data.rank sol.route := ⟨0, l, hperm, hroute⟩
  obtain ⟨p, hp, hcost⟩ : ∃ p, IsTour data.rank p ∧ Tsp.cost data.rank data.matrix p =
    calcValue data.matrix sol.route := hclosed.exists_tour
  exact ⟨p, hp, hcost.trans h.cost⟩

/-- Nothing has changed, or a lower record has been found with its solution. -/
def Lowered (data : InitialData) (r : ValueType) (sol : Solution) (r' : ValueType) (sol' : Solution) :
    Prop :=
  r' = r ∧ sol' = sol ∨ r' < r ∧ Recorded data r' sol'

theorem Lowered.trans {r'' : ValueType} {sol'' : Solution} (h : Lowered data r sol r' sol')
    (h' : Lowered data r' sol' r'' sol'') : Lowered data r sol r'' sol'' := by
  rcases h' with ⟨rfl, rfl⟩ | ⟨hlt', hrec'⟩
  · exact h
  · rcases h with ⟨rfl, rfl⟩ | ⟨hlt, _⟩
    · exact .inr ⟨hlt', hrec'⟩
    · exact .inr ⟨hlt'.trans hlt, hrec'⟩

theorem branchChild_lowered (hnew : new.Placed data) (h : branchChild fuel data b new = some b') :
    Lowered data b.record b.sol b'.record b'.sol := by
  obtain ⟨child, hrun, ⟨hsol, hlt, _, hrec, hsol', _⟩ | ⟨⟨hrec, hsol'⟩, _⟩⟩ := branchChild_cases h
  · have hchild := (hnew.transformNode hrun).2
    have hn : 0 < data.rank := Nat.pos_of_ne_zero fun h0 => by
      have hne := hchild.perm.createTour_ne_iff.mpr hsol
      exact hne (by rw [h0]; rfl)
    have htour := (hchild.perm.hasSolution_iff hn).mp hsol
    obtain ⟨hroute, hcost⟩ := htour.createTour_closed hn data.matrix
    rw [hrec, hsol']
    exact .inr ⟨hlt, rfl, hroute, hcost.trans hchild.value.symm⟩
  · exact .inl ⟨hrec, hsol'⟩

theorem branch_lowered (h : Reached fuel data rule node) (hrun : branch fuel data rule node r sol = some b) :
    Lowered data r sol b.record b.sol := by
  have hfold : ∀ (news : List Node) (b b' : Branched Node), (∀ new ∈ news, new.Placed data) →
      news.foldlM (branchChild fuel data) b = some b' →
      Lowered data b.record b.sol b'.record b'.sol := by
    intro news
    induction news with
    | nil =>
      intro b b' _ h
      cases h
      exact .inl ⟨rfl, rfl⟩
    | cons new news ih =>
      intro b b' hnews h
      rw [List.foldlM_cons, Option.bind_eq_bind, Option.bind_eq_some_iff] at h
      obtain ⟨b₁, hstep, h⟩ := h
      obtain ⟨hnew, hnews⟩ := List.forall_mem_cons.mp hnews
      exact (branchChild_lowered hnew hstep).trans (ih b₁ b' hnews h)
  rw [branch] at hrun
  split at hrun
  · cases hrun
    exact .inl ⟨rfl, rfl⟩
  · simp only [Option.bind_eq_bind, Option.bind_eq_some_iff, Prod.exists] at hrun
    obtain ⟨news, released, hnodes, hrun⟩ := hrun
    exact hfold news _ b (h.formed.places hnodes).1.placed hrun

/-- A record is lowered together with its solution, to the cost of a tour, in every sequence of calls;
and `create_tour` gives a route for every assignment that `has_solution` accepts, so the failure of
`check_route` is never reached. -/
theorem record_consistent (fuel : ℕ) (data : InitialData) (rule : BranchingRule) :
    (∀ r sol r' sol', Calls fuel data rule r sol r' sol' →
      (r' = r ∧ sol' = sol ∨ r' < r ∧ Recorded data r' sol') ∧
      ∀ v, IsOptimum data.rank data.matrix v → r' < r → v ≤ r') ∧
    ∀ new, Created fuel data rule new → ∀ child, transformNode data new fuel = some child →
      (createTour child.primal data.rank ≠ [] ↔ hasSolution child.primal data.rank = true) := by
  refine ⟨fun r sol r' sol' h => ?_, fun new hnew child hrun => ?_⟩
  · have hlow : Lowered data r sol r' sol' := by
      induction h with
      | nil => exact .inl ⟨rfl, rfl⟩
      | call _ hnode hbranch ih => exact ih.trans (branch_lowered hnode hbranch)
    refine ⟨hlow, fun v hv hlt => ?_⟩
    rcases hlow with ⟨rfl, _⟩ | ⟨_, hrec⟩
    · exact absurd hlt (lt_irrefl _)
    · obtain ⟨p, hp, hcost⟩ := hrec.exists_tour
      exact hv.2 ⟨p, hp, hcost⟩
  · exact (hnew.placed.transformNode hrun).2.perm.createTour_ne_iff

/-- Four vertices, where the only arc from vertex `0` leads to vertex `1`. -/
def missingArcData : InitialData where
  matrix i j :=
    if i = j ∨ i = 0 ∧ j ≠ 1 then mVal
    else if (i, j) ∈ [(0, 1), (2, 3), (3, 2)] then 0
    else if j = 0 then 2 else 1
  rank := 4
  size_lt := size_lt_four

/-- Rule 3 finds a tour among the new nodes of the root. -/
theorem record_consistent_missing : ∃ root ∈ transformNode missingArcData (.root {}) 40,
    ∃ b ∈ branch 40 missingArcData .rule3 root mVal ⟨mVal, []⟩,
      b.record < mVal ∧ Recorded missingArcData b.record b.sol := by
  have hrun : ∃ root ∈ transformNode missingArcData (.root {}) 40,
      ∃ b ∈ branch 40 missingArcData .rule3 root mVal ⟨mVal, []⟩, b.record < mVal := by decide +kernel
  obtain ⟨root, hroot, b, hb, hlt⟩ := hrun
  have hcalls : Calls 40 missingArcData .rule3 mVal ⟨mVal, []⟩ b.record b.sol :=
    .call .nil (.root hroot) hb
  refine ⟨root, hroot, b, hb, hlt, ?_⟩
  rcases ((record_consistent 40 missingArcData .rule3).1 _ _ _ _ hcalls).1 with ⟨heq, _⟩ | ⟨_, hrec⟩
  · exact absurd heq hlt.ne
  · exact hrec

/-! ### Progress -/

/-- The number of nodes above a node. -/
def Node.depth : Node → ℕ
  | .root _ => 0
  | .child parent _ => parent.depth + 1

theorem Node.depth_solved (node : Node) (value : ValueType) (ap : ApSolver.Solution) :
    (node.solved value ap).depth = node.depth := by
  cases node <;> rfl

/-- The tree is finite: on the way to a node every step has taken one of the places of the matrix. -/
theorem Reached.depth_add_le (h : Reached fuel data rule node) :
    node.depth + (node.unmarked data).card ≤ data.rank * data.rank := by
  induction h with
  | root hrun =>
    obtain ⟨⟨_, _, rfl⟩, _⟩ := root_placed.transformNode hrun
    rw [Node.depth_solved, Node.depth, Nat.zero_add]
    refine (card_filter_le _ _).trans_eq ?_
    rw [card_product, card_range]
  | @child node _ _ _ _ hnode hbranch hm ih =>
    obtain ⟨news, released, hnodes, new, hnew, hrun, _⟩ := branch_nodes hbranch hm
    have hplaces := (hnode.formed.places hnodes).1
    obtain ⟨⟨value, ap, rfl⟩, _⟩ := (hplaces.placed new hnew).transformNode hrun
    have hlt := hplaces.unmarked_lt hnew (Node.includedPoints_solved new value ap)
      (Node.excludedPoints_solved new value ap)
    have hdepth : (new.solved value ap).depth = node.depth + 1 := by
      rw [Node.depth_solved]
      have hp := hplaces.parent new hnew
      cases new with
      | root d => exact nomatch hp
      | child parent d =>
        cases hp
        rfl
    omega

/-- What a branching step has to do: every new node has an edge of its own that no node above it has,
and rule 4 finds an edge to exclude for every vertex of the subtour. -/
structure Progress (fuel : ℕ) (data : InitialData) (rule : BranchingRule) (node : Node) : Prop where
  fresh : ∀ news released, rule.nodes fuel data node = some (news, released) → ∀ new ∈ news,
    ∃ e, (e ∈ new.data.includedEdges ∨ e ∈ new.data.excludedEdges) ∧ e ∉ node.includedPoints ∧
      e ∉ node.excludedPoints
  check : rule = .rule4 → ∀ vs, subtourVertices fuel data node = some vs →
    ∀ i ∈ vs, rule4Edges node vs i ≠ []

/-- The new nodes of every rule have an edge of their own, so no path of the search tree is longer than
the number of places of the matrix. The check of rule 4 holds at a node exactly where no vertex of the
subtour has all its edges to the other vertices excluded. -/
theorem branching_progress (fuel : ℕ) (data : InitialData) (rule : BranchingRule) {node : Node}
    (h : Reached fuel data rule node) : node.depth ≤ data.rank * data.rank ∧
      (Progress fuel data rule node ↔ (rule = .rule4 → ∀ vs, subtourVertices fuel data node = some vs →
        ∀ i ∈ vs, ∃ j ∈ vs, j ≠ i ∧ (i, j) ∉ node.excludedPoints)) := by
  refine ⟨(Nat.le_add_right _ _).trans h.depth_add_le, fun hp hrule vs hvs i hi => ?_,
    fun hsafe => ⟨fun news released hnodes new hnew => ?_, fun hrule vs hvs i hi => ?_⟩⟩
  · obtain ⟨e, he⟩ := List.exists_mem_of_ne_nil _ (hp.check hrule vs hvs i hi)
    obtain ⟨rfl, he2, hne, hmark⟩ := mem_rule4Edges.mp he
    refine ⟨e.2, he2, hne, fun hmem => ?_⟩
    exact Bool.eq_false_iff.mp hmark (Node.edgeMap_eq_true.mpr (.inr hmem))
  · have hplaces := (h.formed.places hnodes).1
    obtain ⟨e, _, _, hold, hfresh⟩ := hplaces.fresh new hnew
    have hno := fun hmem => Bool.eq_false_iff.mp hold (Node.edgeMap_eq_true.mpr hmem)
    rw [Node.edgeMap_eq_true, hplaces.includedPoints hnew, hplaces.excludedPoints hnew,
      List.mem_append, List.mem_append] at hfresh
    refine ⟨e, ?_, fun hmem => hno (.inl hmem), fun hmem => hno (.inr hmem)⟩
    rcases hfresh with (hown | hmem) | hown | hmem
    · exact .inl hown
    · exact absurd (.inl hmem) hno
    · exact .inr hown
    · exact absurd (.inr hmem) hno
  · obtain ⟨j, hj, hji, hexc⟩ := hsafe hrule vs hvs i hi
    have hbare : node.Bare data := by
      subst hrule
      exact h.formed
    have hmark : node.edgeMap (i, j) = false := Bool.eq_false_iff.mpr fun hmark => ?_
    · exact List.ne_nil_of_mem (mem_rule4Edges.mpr ⟨rfl, hj, hji, hmark⟩)
    rcases Node.edgeMap_eq_true.mp hmark with hinc | hmem
    · exact absurd hinc (hbare.included ▸ List.not_mem_nil)
    · exact hexc hmem

/-- The root has the subtour of `0` and `1`. Its first new node excludes the arc from `0` to `1` but keeps
it in its assignment, as the other arcs of row `0` cost as much, and is below the greedy record. The
check of rule 4 fails there. -/
theorem rule4_check_fails : ∃ sol ∈ getGreedySolution 40 missingArcData.matrix missingArcData.rank,
    ∃ root ∈ transformNode missingArcData (.root {}) 40,
    ∃ b ∈ branch 40 missingArcData .rule4 root sol.value sol, ∃ node ∈ b.nodes,
      Reached 40 missingArcData .rule4 node ∧ node.data.value < b.record ∧
        branch 40 missingArcData .rule4 node b.record b.sol = none ∧
        ¬ Progress 40 missingArcData .rule4 node := by
  have hrun : ∃ sol ∈ getGreedySolution 40 missingArcData.matrix missingArcData.rank,
      ∃ root ∈ transformNode missingArcData (.root {}) 40,
      ∃ b ∈ branch 40 missingArcData .rule4 root sol.value sol, ∃ node ∈ b.nodes,
        node.data.value < b.record ∧
          (branch 40 missingArcData .rule4 node b.record b.sol).isNone = true ∧
          ∃ vs ∈ subtourVertices 40 missingArcData node, ∃ i ∈ vs, rule4Edges node vs i = [] := by
    decide +kernel
  obtain ⟨sol, hsol, root, hroot, b, hb, node, hnode, hlt, hnone, vs, hvs, i, hi, hnil⟩ := hrun
  refine ⟨sol, hsol, root, hroot, b, hb, node, hnode, .child (.root hroot) hb hnode, hlt, ?_, fun hp => ?_⟩
  · exact Option.isNone_iff_eq_none.mp hnone
  · exact hp.check rfl vs hvs i hi hnil

/-- At the root of the same matrix the check holds. -/
theorem branching_progress_missing : ∃ root ∈ transformNode missingArcData (.root {}) 40,
    Progress 40 missingArcData .rule4 root := by
  have hrun : ∃ root ∈ transformNode missingArcData (.root {}) 40,
      ∀ vs ∈ subtourVertices 40 missingArcData root, ∀ i ∈ vs,
        ∃ j ∈ vs, j ≠ i ∧ (i, j) ∉ root.excludedPoints := by decide +kernel
  obtain ⟨root, hroot, hsafe⟩ := hrun
  exact ⟨root, hroot, (branching_progress 40 missingArcData .rule4 (.root hroot)).2.mpr fun _ => hsafe⟩

end Optimer.Tsp
