import Optimer.Tsp.Classical
import Optimer.Tsp.HamiltonianCycle
import Optimer.Tsp.LagrangeanRounds
import Optimer.Tsp.OneTreeCorrect

/-! What the symmetric branching rules make of a node whose relaxation agrees with its included, excluded and
closed edges: no tour is lost, and the new nodes have at most two included edges at a vertex. -/

namespace Optimer.Stsp
open Optimer.Tsp SpanningTree

variable {node new : Node} {n u v w : ℕ} {edges included excluded : List Edge} {e : Edge} {p : ℕ → ℕ}
  {matrix : ℕ → ℕ → ValueType} {rule : BranchingRule} {news : List Node}

theorem edgeMap_iff_adj : edgeMap node e = true ↔ Adj node.includedEdges e.1 e.2 := decide_eq_true_iff

theorem degrees_pos_iff : 0 < degrees edges u ↔ ∃ w, Adj edges u w := by
  rw [← length_adjacencyList, List.length_pos_iff_exists_mem]
  simp only [mem_adjacencyList]

/-- A node that the search branches on: its relaxation is a 1-tree but no cycle, has all included edges and
neither an excluded one nor one that `transform_node` closes. -/
structure Branchable (n : ℕ) (node : Node) : Prop where
  relaxed : Relaxed n node.data.relaxation
  noCycle : ¬ IsHamiltonianCycle n node.data.relaxation
  degree_le : ∀ v < n, degrees node.includedEdges v ≤ 2
  included : ∀ e ∈ node.includedEdges, Adj node.data.relaxation e.1 e.2
  excluded : ∀ e ∈ node.excludedEdges, ¬ Adj node.data.relaxation e.1 e.2
  closed : ∀ u < n, ∀ front back, adjacencyList node.includedEdges u = [front, back] →
    ∀ v, Adj node.data.relaxation u v → v = front ∨ v = back

/-- What is asked of a new node: at most two included edges at each vertex, no edge both included and
excluded, and `transform_node` passes its `CHECK`. -/
structure WellFormed (n : ℕ) (matrix : ℕ → ℕ → ValueType) (new : Node) : Prop where
  degree_le : ∀ v < n, degrees new.includedEdges v ≤ 2
  apart : ∀ e ∈ new.includedEdges, ∀ f ∈ new.excludedEdges, s(e.1, e.2) ≠ s(f.1, f.2)
  matrix : ∃ m, nodeMatrix n matrix new = some m

/-- Every tour of the node is one of a new node. -/
def KeepsTours (n : ℕ) (node : Node) (news : List Node) : Prop :=
  ∀ p ∈ node.tours n, ∃ new ∈ news, p ∈ new.tours n

/-- `transform_node` fails only at a vertex with more than two included edges. -/
theorem exists_nodeMatrix (h : ∀ v < n, degrees new.includedEdges v ≤ 2) :
    ∃ m, nodeMatrix n matrix new = some m := by
  have hloop := Loop.foldlM_range'_total (a := 0) (m := n)
    (f := closeEdges n (adjacencyList new.includedEdges)) (s := excludeEdges matrix new.excludedEdges)
    (fun _ _ => True) (fun u m _ hu _ => ?_) trivial
  · obtain ⟨m, hm, _⟩ := hloop
    exact ⟨m, by rwa [nodeMatrix, List.range_eq_range']⟩
  · have hlen : (adjacencyList new.includedEdges u).length ≤ 2 :=
      length_adjacencyList.trans_le (h u (by omega))
    unfold closeEdges
    split
    · exact ⟨_, rfl, trivial⟩
    · exact ⟨_, if_pos (by omega), trivial⟩

theorem Relaxed.buildTour_eq_nil (R : Relaxed n edges) (h : ¬ IsHamiltonianCycle n edges) :
    buildTour edges = some [] := by
  have hn := R.three_le
  have hlen := R.length
  subst hlen
  obtain ⟨route, hroute⟩ := exists_buildTour (by omega) R.within
  rw [hroute]
  by_contra hne
  obtain ⟨p, hp, _, hperm⟩ := buildTour_sound hn rfl hroute fun hnil => hne (congrArg some hnil)
  exact h ⟨p, hp, hperm⟩

namespace Branchable

variable (N : Branchable n node)

include N

theorem buildTour_eq : buildTour node.data.relaxation = some [] :=
  N.relaxed.buildTour_eq_nil N.noCycle

/-! ### The included edges at a vertex -/

/-- At a vertex with two included edges the relaxation has no others. -/
theorem adj_included (hu : u < n) (htwo : 2 ≤ degrees node.includedEdges u)
    (h : Adj node.data.relaxation u w) : Adj node.includedEdges u w := by
  have hlen : (adjacencyList node.includedEdges u).length = 2 :=
    length_adjacencyList.trans (le_antisymm (N.degree_le u hu) htwo)
  obtain ⟨front, back, hadj⟩ := List.length_eq_two.mp hlen
  rw [← mem_adjacencyList, hadj, List.mem_pair]
  exact N.closed u hu front back hadj w h

/-- Both ends of a free edge have at most one included edge. -/
theorem degree_le_one (he : e ∈ node.data.relaxation) (hfree : edgeMap node e = false)
    (hu : e.1 = u ∨ e.2 = u) : degrees node.includedEdges u ≤ 1 := by
  by_contra htwo
  obtain ⟨h1, h2⟩ := N.relaxed.within e he
  have hadj : Adj node.includedEdges e.1 e.2 := by
    rcases hu with rfl | rfl
    · exact N.adj_included h1 (by omega) (.inl he)
    · exact (N.adj_included h2 (by omega) (.inr he)).symm
  exact Bool.false_ne_true (hfree.symm.trans (edgeMap_iff_adj.mpr hadj))

/-- So has a vertex with more than two edges of the relaxation. -/
theorem degree_le_one_of_lt (hu : u < n) (hdeg : 2 < degrees node.data.relaxation u) :
    degrees node.includedEdges u ≤ 1 := by
  by_contra htwo
  have hsub : adjacencyList node.data.relaxation u ⊆ adjacencyList node.includedEdges u := fun w hw =>
    mem_adjacencyList.mpr (N.adj_included hu (by omega) (mem_adjacencyList.mp hw))
  have hle := ((N.relaxed.nodup u).subperm hsub).length_le
  rw [length_adjacencyList, length_adjacencyList] at hle
  have := N.degree_le u hu
  omega

/-- The edges of the relaxation at a vertex are free or included. -/
theorem degrees_le_add :
    degrees node.data.relaxation u ≤ degrees (freeEdges node) u + degrees node.includedEdges u := by
  rw [← degrees_filter_add node.data.relaxation fun e => !edgeMap node e]
  refine Nat.add_le_add_left ?_ _
  have hsub : (node.data.relaxation.filter fun e => !!edgeMap node e).Sublist node.data.relaxation :=
    List.filter_sublist
  have hnodup : (adjacencyList (node.data.relaxation.filter fun e => !!edgeMap node e) u).Nodup :=
    nodup_adjacencyList ((hsub.map _).nodup N.relaxed.distinct) fun he => N.relaxed.ne (hsub.subset he) rfl
  have hincl : ∀ e ∈ node.data.relaxation.filter fun e => !!edgeMap node e,
      Adj node.includedEdges e.1 e.2 := fun e he =>
    edgeMap_iff_adj.mp (by simpa using (List.mem_filter.mp he).2)
  rw [← length_adjacencyList, ← length_adjacencyList]
  refine (hnodup.subperm fun w hw => ?_).length_le
  rw [mem_adjacencyList] at hw ⊢
  exact hw.elim (hincl _) fun h => (hincl _ h).symm

/-- A vertex whose edges of the relaxation are all free has no included edge. -/
theorem degree_eq_zero (h : degrees node.data.relaxation u = degrees (freeEdges node) u) :
    degrees node.includedEdges u = 0 := by
  by_contra hpos
  obtain ⟨w, hw⟩ := degrees_pos_iff.mp (Nat.pos_of_ne_zero hpos)
  have hrel : Adj node.data.relaxation u w := hw.elim (N.included _) fun h => (N.included _ h).symm
  have hincl : 0 < degrees (node.data.relaxation.filter fun e => !!edgeMap node e) u := by
    refine degrees_pos_iff.mpr ⟨w, hrel.imp (fun he => ?_) fun he => ?_⟩ <;>
      refine List.mem_filter.mpr ⟨he, ?_⟩ <;> rw [Bool.not_not, edgeMap_iff_adj]
    exacts [hw, hw.symm]
  have hsum := degrees_filter_add (u := u) node.data.relaxation fun e => !edgeMap node e
  rw [h] at hsum
  exact absurd (Nat.add_eq_left.mp hsum) hincl.ne'

/-! ### The `CHECK` of rule 2 -/

/-- `branching_rule2` finds a vertex with more than two edges, two of them free. -/
theorem selectedVertex2_spec : 2 < degrees node.data.relaxation (selectedVertex2 n node) ∧
    2 ≤ degrees (freeEdges node) (selectedVertex2 n node) := by
  obtain ⟨v, hv, hdeg⟩ := N.relaxed.exists_degree N.relaxed.three_le N.buildTour_eq
  have hfree : 2 ≤ degrees (freeEdges node) v := by
    have hone := N.degree_le_one_of_lt hv hdeg
    have hle := N.degrees_le_add (u := v)
    omega
  have hsome : ((List.range n).find? fun i => borderValue < degrees node.data.relaxation i &&
      borderValue ≤ degrees (freeEdges node) i).isSome = true :=
    List.find?_isSome.mpr ⟨v, List.mem_range.mpr hv,
      Bool.and_eq_true_iff.mpr ⟨decide_eq_true hdeg, decide_eq_true hfree⟩⟩
  obtain ⟨x, hx⟩ := Option.isSome_iff_exists.mp hsome
  have hspec := List.find?_some hx
  obtain ⟨hdeg, hfree⟩ := Bool.and_eq_true_iff.mp hspec
  rw [selectedVertex2, hx, Option.getD_some]
  exact ⟨of_decide_eq_true hdeg, of_decide_eq_true hfree⟩

/-- The `CHECK` on `selected_edges` holds. -/
theorem exists_selectedEdges : ∃ front back, selectedEdges n node = [front, back] := by
  obtain ⟨_, hfree⟩ := N.selectedVertex2_spec
  have hne : ∀ e ∈ freeEdges node, e.1 ≠ e.2 := fun e he => N.relaxed.ne (List.mem_of_mem_filter he)
  refine List.length_eq_two.mp ?_
  rw [selectedEdges, List.length_take, length_filter_ends hne]
  exact min_eq_left hfree

/-! ### The new nodes -/

theorem degree_cons_le (he : e ∈ node.data.relaxation) (hfree : edgeMap node e = false) (hu : u < n) :
    degrees [e] u + degrees node.includedEdges u ≤ 2 := by
  rw [degrees_singleton, length_neighbors (N.relaxed.ne he)]
  split
  · next hend =>
    have := N.degree_le_one he hfree hend
    omega
  · have := N.degree_le u hu
    omega

/-- A new node has at most two included edges at each vertex. -/
theorem degree_newNode_le (hcut : Cut rule node included excluded) (hu : u < n) :
    degrees (included ++ node.includedEdges) u ≤ 2 := by
  rw [degrees_append]
  rcases hcut.few with rfl | ⟨e, rfl⟩ | ⟨front, back, v, rfl, hfv, hbv, hdeg⟩
  · exact (Nat.zero_add _).trans_le (N.degree_le u hu)
  · exact N.degree_cons_le (hcut.mem List.mem_cons_self) (hcut.free e List.mem_cons_self) hu
  have hfront : front ∈ node.data.relaxation := hcut.mem List.mem_cons_self
  have hback : back ∈ node.data.relaxation := hcut.mem (List.mem_cons_of_mem _ List.mem_cons_self)
  have hsum : degrees [front, back] u = degrees [front] u + degrees [back] u := by
    rw [degrees_cons, ← degrees_singleton]
  rcases eq_or_ne u v with rfl | huv
  · -- The vertex has no included edge yet.
    have hle : ∀ e ∈ node.data.relaxation, degrees [e] u ≤ 1 := fun e he => by
      rw [degrees_singleton, length_neighbors (N.relaxed.ne he)]
      split
      exacts [le_rfl, Nat.zero_le _]
    have := N.degree_eq_zero hdeg
    have := hle front hfront
    have := hle back hback
    omega
  · -- Two edges with both ends in common would be the same.
    have hother : degrees [front] u = 0 ∨ degrees [back] u = 0 := by
      by_contra hboth
      push Not at hboth
      obtain ⟨a, ha⟩ := degrees_pos_iff.mp (Nat.pos_of_ne_zero hboth.1)
      obtain ⟨b, hb⟩ := degrees_pos_iff.mp (Nat.pos_of_ne_zero hboth.2)
      have hends : ∀ {e : Edge} {w : ℕ}, (e.1 = v ∨ e.2 = v) → Adj [e] u w → s(e.1, e.2) = s(u, v) := by
        rintro e w hev (h | h) <;> obtain rfl := List.mem_singleton.mp h
        · exact hev.elim (fun h => absurd h huv) fun h => congrArg (fun x => s(u, x)) h
        · exact hev.elim (fun h => Sym2.eq_swap.trans (congrArg (fun x => s(u, x)) h))
            fun h => absurd h huv
      have hnodup := (hcut.sublist.map fun e : Edge => s(e.1, e.2)).nodup N.relaxed.distinct
      have hne : s(front.1, front.2) ≠ s(back.1, back.2) := fun heq => by
        simp [heq] at hnodup
      exact hne ((hends hfv ha).trans (hends hbv hb).symm)
    have hone := N.degree_cons_le hfront (hcut.free front List.mem_cons_self) hu
    have htwo := N.degree_cons_le hback (hcut.free back (List.mem_cons_of_mem _ List.mem_cons_self)) hu
    omega

/-- No edge of a new node is both included and excluded. -/
theorem apart_newNode (hcut : Cut rule node included excluded)
    (hrule : rule = .rule1 → node.includedEdges = []) :
    ∀ e ∈ included ++ node.includedEdges, ∀ f ∈ excluded ++ node.excludedEdges,
      s(e.1, e.2) ≠ s(f.1, f.2) := by
  have hrel : ∀ e ∈ included ++ node.includedEdges, Adj node.data.relaxation e.1 e.2 := fun e he =>
    (List.mem_append.mp he).elim (fun he => .inl (hcut.mem he)) (N.included e)
  intro e he f hf heq
  rcases List.mem_append.mp hf with hf | hf
  · rcases List.mem_append.mp he with he | he
    · have hnodup := (hcut.sublist.map fun e : Edge => s(e.1, e.2)).nodup N.relaxed.distinct
      rw [List.map_append, List.nodup_append] at hnodup
      exact hnodup.2.2 _ (List.mem_map_of_mem he) _ (List.mem_map_of_mem hf) heq
    · have hnot : rule ≠ .rule1 := fun h => by
        rw [hrule h] at he
        exact absurd he List.not_mem_nil
      have hfree := hcut.freeExcluded hnot f hf
      exact Bool.false_ne_true (hfree.symm.trans (edgeMap_iff.mpr (heq ▸ List.mem_map_of_mem he)))
  · refine N.excluded f hf ?_
    rcases Sym2.eq_iff.mp heq with ⟨h1, h2⟩ | ⟨h1, h2⟩
    · exact h1 ▸ h2 ▸ hrel e he
    · exact h1 ▸ h2 ▸ (hrel e he).symm

theorem wellFormed (rule : BranchingRule) (hrule : rule = .rule1 → node.includedEdges = [])
    (h : rule.nodes n matrix node = some news) : ∀ new ∈ news, WellFormed n matrix new := by
  intro new hnew
  obtain ⟨included, excluded, rfl, hcut⟩ := BranchingRule.nodes_cut h hnew
  have hdeg : ∀ v < n, degrees (included ++ node.includedEdges) v ≤ 2 := fun v hv =>
    N.degree_newNode_le hcut hv
  exact ⟨hdeg, N.apart_newNode hcut hrule, exists_nodeMatrix hdeg⟩

end Branchable

/-- Rule 3 keeps the tours of a node in just the cases where it finds an edge. -/
theorem Branchable.keeps_rule3 (N : Branchable n node) : KeepsTours n node (branchingRule3 matrix node) ↔
    node.tours n = ∅ ∨ ∃ e, Selectable matrix node e := by
  constructor
  · intro hkeeps
    refine or_iff_not_imp_left.mpr fun hne => ?_
    obtain ⟨p, hp⟩ := Set.nonempty_iff_ne_empty.mpr hne
    obtain ⟨new, hnew, _⟩ := hkeeps p hp
    by_contra hno
    rw [branchingRule3, if_pos (maxEdge_eq_none hno)] at hnew
    exact List.not_mem_nil hnew
  · rintro (hnone | ⟨e, he⟩) p hp
    · exact absurd (hnone ▸ hp) (Set.notMem_empty p)
    · exact rule3_tours N.relaxed hp he

/-- No tour of the node is lost, and the new nodes are well-formed; rule 3 has to find an edge that costs
more than `-1e16`, or there is no tour. The nodes of `ClassicalSolver` include no edges. -/
theorem branching_keeps_tours {data : InitialData} (N : Branchable data.rank node) :
    (KeepsTours data.rank node (ClassicalSolver.newNodes data node) ∧
      (node.includedEdges = [] → ∀ new ∈ ClassicalSolver.newNodes data node,
        WellFormed data.rank data.matrix new ∧ new.includedEdges = [])) ∧
    (KeepsTours data.rank node (branchingRule1 data.rank node) ∧
      (node.includedEdges = [] → ∀ new ∈ branchingRule1 data.rank node,
        WellFormed data.rank data.matrix new ∧ new.includedEdges = [])) ∧
    (∃ news, branchingRule2 data.rank node = some news ∧ KeepsTours data.rank node news ∧
      ∀ new ∈ news, WellFormed data.rank data.matrix new) ∧
    (KeepsTours data.rank node (branchingRule3 data.matrix node) ↔
      node.tours data.rank = ∅ ∨ ∃ e, Selectable data.matrix node e) ∧
      ∀ new ∈ branchingRule3 data.matrix node, WellFormed data.rank data.matrix new := by
  have hone : KeepsTours data.rank node (branchingRule1 data.rank node) ∧
      (node.includedEdges = [] → ∀ new ∈ branchingRule1 data.rank node,
        WellFormed data.rank data.matrix new ∧ new.includedEdges = []) := by
    refine ⟨fun p hp => rule1_tours N.relaxed N.relaxed.three_le hp N.buildTour_eq, fun hnil new hnew =>
      ⟨N.wellFormed .rule1 (fun _ => hnil) rfl new hnew, ?_⟩⟩
    obtain ⟨e, _, rfl⟩ := List.mem_map.mp hnew
    exact hnil
  refine ⟨hone, hone, ?_, N.keeps_rule3, N.wellFormed .rule3 nofun rfl⟩
  obtain ⟨front, back, hsel⟩ := N.exists_selectedEdges
  obtain ⟨news, hnews⟩ : ∃ news, branchingRule2 data.rank node = some news := by
    simp only [branchingRule2, hsel]
    exact ⟨_, rfl⟩
  exact ⟨news, hnews, fun p hp => rule2_tours N.relaxed hp hnews, N.wellFormed .rule2 nofun hnews⟩

/-! ### A star -/

/-- A 1-tree whose vertex `1` has three edges. -/
def starEdges : List Edge := [(1, 3), (1, 2), (0, 1), (0, 2)]

/-- Four vertices where every edge costs `-2e16` or less. -/
def lowData : InitialData where
  matrix i j := if i = j then mVal else
    10 ^ 16 * (([[0, -3, -3, -2],
                 [-3, 0, -3, -4],
                 [-3, -3, 0, -2],
                 [-2, -4, -2, 0]] : List (List ValueType)).getD i []).getD j 0
  rank := 4
  size_lt := size_lt_four

theorem starEdges_relaxed : Relaxed 4 starEdges := by
  have C : MSOneTree.OffDiagonal 4 lowData.matrix := ⟨by decide +kernel, by decide +kernel⟩
  have hsolve : (MSOneTree.solve lowData.matrix 4).edges = starEdges := by decide +kernel
  have hmin := MSOneTree.solve_isMin_of C (by decide) (by decide +kernel)
    ⟨1, by decide, 2, by decide, by decide +kernel⟩
  rw [hsolve] at hmin
  exact ⟨hmin.oneTree, hmin.length, hmin.nodup⟩

theorem starEdges_noCycle : ¬ IsHamiltonianCycle 4 starEdges := fun ⟨_, hp, hperm⟩ => by
  have htwo := degrees_of_cycle hp hperm (show 3 ≤ 4 by decide) (show 1 < 4 by decide)
  exact absurd htwo (by decide)

/-- A node with the star as its relaxation is branchable if it has at most one edge of it included at each
vertex. -/
theorem branchable_star (hrel : node.data.relaxation = starEdges)
    (hdeg : ∀ v < 4, degrees node.includedEdges v ≤ 1)
    (hinc : ∀ e ∈ node.includedEdges, Adj starEdges e.1 e.2)
    (hexc : ∀ e ∈ node.excludedEdges, ¬ Adj starEdges e.1 e.2) : Branchable 4 node := by
  refine ⟨?_, ?_, fun v hv => (hdeg v hv).trans (by decide), ?_, ?_, fun u hu front back hadj => ?_⟩
  · rw [hrel]
    exact starEdges_relaxed
  · rw [hrel]
    exact starEdges_noCycle
  · rwa [hrel]
  · rwa [hrel]
  · have hone := length_adjacencyList.trans_le (hdeg u hu)
    rw [hadj] at hone
    exact absurd hone (by simp)

def starData : InitialData where
  matrix i j := if i = j then mVal else 1
  rank := 4
  size_lt := size_lt_four

def starRoot : Node := .root { relaxation := starEdges }

/-- One edge of the star is included and one outside it excluded. -/
def starNode : Node :=
  .child starRoot { relaxation := starEdges, includedEdges := [(1, 2)], excludedEdges := [(2, 3)] }

theorem branching_keeps_tours_star :
    (KeepsTours 4 starRoot (ClassicalSolver.newNodes starData starRoot) ∧
      ∀ new ∈ ClassicalSolver.newNodes starData starRoot,
        WellFormed 4 starData.matrix new ∧ new.includedEdges = []) ∧
      KeepsTours 4 starRoot (branchingRule1 4 starRoot) ∧
      (∃ news, branchingRule2 4 starNode = some news ∧ KeepsTours 4 starNode news ∧
        ∀ new ∈ news, WellFormed 4 starData.matrix new) ∧
      KeepsTours 4 starNode (branchingRule3 starData.matrix starNode) := by
  have hroot : Branchable starData.rank starRoot :=
    branchable_star rfl (by decide) (by decide) (by decide)
  have hnode : Branchable starData.rank starNode :=
    branchable_star rfl (by decide) (by decide) (by decide)
  have hsel : Selectable starData.matrix starNode (1, 3) :=
    ⟨by decide, by decide, by decide, by decide +kernel⟩
  obtain ⟨hclassical, hrule1, _⟩ := branching_keeps_tours hroot
  obtain ⟨_, _, hrule2, hrule3, _⟩ := branching_keeps_tours hnode
  exact ⟨⟨hclassical.1, hclassical.2 rfl⟩, hrule1.1, hrule2, hrule3.mpr (.inr ⟨_, hsel⟩)⟩

/-- Rule 3 finds no edge at the root, although there is a tour. -/
theorem rule3_loses_tours : ∃ node,
    transformNode MSOneTree.solve lowData.rank lowData.matrix { gradientMaxIters := 1 } (.root {})
      (-12 * 10 ^ 16) = some node ∧
    Branchable lowData.rank node ∧ ¬ KeepsTours lowData.rank node (branchingRule3 lowData.matrix node) := by
  have hfacts : ((transformNode MSOneTree.solve 4 lowData.matrix { gradientMaxIters := 1 } (.root {})
      (-12 * 10 ^ 16)).map fun node =>
        (node.data.relaxation, (branchingRule3 lowData.matrix node).length)) = some (starEdges, 0) := by
    decide +kernel
  obtain ⟨node, hnode, heq⟩ := Option.map_eq_some_iff.mp hfacts
  obtain ⟨hrel, hnone⟩ := Prod.mk.inj heq
  obtain ⟨_, s, _, _, _, rfl, _⟩ := transformNode_cases hnode
  refine ⟨_, hnode, branchable_star hrel ?_ ?_ ?_, fun hkeeps => ?_⟩
  · rw [Node.includedEdges_solved]
    decide
  · rw [Node.includedEdges_solved]
    exact fun _ h => absurd h List.not_mem_nil
  · rw [Node.excludedEdges_solved]
    exact fun _ h => absurd h List.not_mem_nil
  · have hp : IsTour 4 [0, 1, 3, 2].formPerm := isTour_formPerm (by decide)
    obtain ⟨new, hnew, _⟩ := hkeeps _ (by rw [Node.tours_solved]; exact Node.mem_tours_root.mpr hp)
    rw [List.eq_nil_of_length_eq_zero hnone] at hnew
    exact List.not_mem_nil hnew

end Optimer.Stsp
