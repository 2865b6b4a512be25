import Optimer.Bnb.Guarded
import Optimer.Tsp.Classical
import Optimer.Tsp.Greedy
import Optimer.Tsp.OneTreeCorrect
import Optimer.Tsp.OneTreeShape
import Optimer.Tsp.SymmetricSearch

/-! `ClassicalSolver` finds the least cost of a tour in runs that branch on no tour below the record and
in which Prim's algorithm does not start with an edge to vertex `0`. -/

namespace Optimer.Stsp.ClassicalSolver
open Optimer.Tsp Transition MSOneTree

variable {data : InitialData} {node new m : Node} {i j : ℕ} {p : ℕ → ℕ} {e : Edge} {r v : ValueType}
  {sol : Solution} {fuel : ℕ} {S : Solver Node} {c : Container}

/-! ### The matrix and the relaxation of a node -/

theorem mVal_lt_maxVal : mVal < (maxVal : ValueType) := by decide +kernel

theorem nodeMatrix_solved (node : Node) (sol : MSOneTree.Solution ValueType) :
    nodeMatrix data (node.solved sol) = nodeMatrix data node :=
  congrArg (excludeEdges data.matrix) (node.excludedEdges_solved sol)

/-- An entry that is below `M_VAL` is the original one of an edge that is not excluded. -/
theorem nodeMatrix_of_lt (h : nodeMatrix data node i j < mVal) :
    nodeMatrix data node i j = data.matrix i j ∧ ¬ ∃ e ∈ node.excludedEdges, (i, j) = e ∨ (j, i) = e := by
  rw [nodeMatrix, excludeEdges_apply] at h ⊢
  split at h
  · exact absurd h (lt_irrefl _)
  · next hno => exact ⟨if_neg hno, hno⟩

/-- The results of `transform_node` are filled in. -/
structure Solved (data : InitialData) (node : Node) : Prop where
  value : node.data.value = (MSOneTree.solve (nodeMatrix data node) data.rank).value
  relaxation : node.data.relaxation = (MSOneTree.solve (nodeMatrix data node) data.rank).edges

theorem transformNode_solved (new : Node) : Solved data (transformNode data new) := by
  constructor <;> rw [transformNode, nodeMatrix_solved, Node.data_solved]

section Entries

variable (hc : Costs data) (hi : i < data.rank) (hj : j < data.rank)

include hc hi hj

theorem nodeMatrix_nonneg : 0 ≤ nodeMatrix data node i j := by
  rw [nodeMatrix, excludeEdges_apply]
  split
  exacts [Costs.mVal_pos.le, hc.nonneg' hi hj]

theorem nodeMatrix_le : nodeMatrix data node i j ≤ mVal := by
  rw [nodeMatrix, excludeEdges_apply]
  split
  exacts [le_rfl, hc.le' hi hj]

end Entries

namespace Solved

variable (h : Solved data node) (hn : 3 ≤ data.rank) (hc : Costs data)

include h hn hc

theorem shaped : Shaped data.rank (nodeMatrix data node) ⟨node.data.value, node.data.relaxation⟩ := by
  rw [h.value, h.relaxation]
  exact solve_shaped (Nat.le_of_succ_le hn) (fun i hi j hj => nodeMatrix_nonneg hc hi hj)
    fun j hj => (nodeMatrix_le hc (by omega) hj).trans_lt mVal_lt_maxVal

theorem length : node.data.relaxation.length = data.rank := (h.shaped hn hc).length

theorem within : Within data.rank node.data.relaxation := (h.shaped hn hc).within

theorem moves_ne_nil : newNodes data node ≠ [] := fun hnil =>
  selectMoves_ne_nil (h.shaped hn hc).zero (List.map_eq_nil_iff.mp hnil)

theorem value_eq (hval : node.data.value < mVal) :
    node.data.value = SpanningTree.cost (nodeMatrix data node) node.data.relaxation :=
  (h.shaped hn hc).value.resolve_right (not_le.mpr (hval.trans mVal_lt_maxVal))

/-- A relaxation below `M_VAL` has no excluded edge. -/
theorem edge_lt (hval : node.data.value < mVal) (he : e ∈ node.data.relaxation) :
    nodeMatrix data node e.1 e.2 < mVal := by
  refine lt_of_le_of_lt ?_ (h.value_eq hn hc hval ▸ hval)
  refine List.single_le_sum (fun x hx => ?_) _ (List.mem_map_of_mem he)
  obtain ⟨f, hf, rfl⟩ := List.mem_map.mp hx
  obtain ⟨h1, h2⟩ := h.within hn hc f hf
  exact nodeMatrix_nonneg hc h1 h2

theorem value_original (hval : node.data.value < mVal) :
    node.data.value = SpanningTree.cost data.matrix node.data.relaxation := by
  rw [h.value_eq hn hc hval]
  exact congrArg List.sum (List.map_congr_left fun e he =>
    (nodeMatrix_of_lt (h.edge_lt hn hc hval he)).1)

variable (hsymm : SymmetricOn data.rank data.matrix)

include hsymm

/-- A relaxation that is a tour is one at its real cost. -/
theorem tour {route : List ℕ} (hval : node.data.value < mVal)
    (hroute : buildTour node.data.relaxation = some route) (hne : route ≠ []) :
    ∃ p, IsTour data.rank p ∧ cost data.rank data.matrix p = node.data.value := by
  obtain ⟨p, hp, hcost⟩ := buildTour_cost hn (h.length hn hc) hroute hne
  exact ⟨p, hp, (hcost _ hsymm).symm.trans (h.value_original hn hc hval).symm⟩

/-- The relaxation is a minimum 1-tree for a node with a tour, unless Prim's algorithm starts with an
edge to `0`. -/
theorem isMin (hp : p ∈ node.tours data.rank)
    (hfirst : minElement (nodeMatrix data node Prim.startPoint) data.rank ≠ 0) :
    IsMinOneTree data.rank (nodeMatrix data node) node.data.value node.data.relaxation := by
  have hn2 : 2 ≤ data.rank := Nat.le_of_succ_le hn
  have hentry : ∀ i < data.rank, nodeMatrix data node i (p i) = data.matrix i (p i) := fun i hi =>
    excludeEdges_tour hp.2.excluded hi
  have hlow : ∀ i < data.rank, nodeMatrix data node i (p i) < mVal := fun i hi =>
    (hentry i hi).trans_lt (hc.lt hn2 hi (hp.1.perm.lt hi) (hp.1.ne hn2 hi).symm)
  have hdiag : ∀ i < data.rank, nodeMatrix data node i i = mVal := fun i hi => by
    rw [nodeMatrix, excludeEdges_apply, hc.diag i hi, ite_self]
  have hnsymm : SymmetricOn data.rank (nodeMatrix data node) := excludeEdges_symm hsymm
  rw [h.value, h.relaxation]
  refine solve_isMin_of ⟨hnsymm, fun i hi j hj _ => (nodeMatrix_le hc hi hj).trans_lt mVal_lt_maxVal⟩ hn
    ?_ ?_
  · have hone : minElement (nodeMatrix data node Prim.startPoint) data.rank ≠ 1 := fun heq => by
      have hle := (minElement_spec (nodeMatrix data node Prim.startPoint) (by omega)).2.1 (p 1)
        (hp.1.perm.lt (by omega))
      rw [heq, Prim.startPoint, hdiag 1 (by omega)] at hle
      exact absurd (hlow 1 (by omega)) (not_lt.mpr hle)
    omega
  · obtain ⟨k, hk, hk0⟩ := hp.1.perm.surj (show 0 < data.rank by omega)
    have hp0 := hp.1.perm.lt (show 0 < data.rank by omega)
    have hne : p 0 ≠ 0 := hp.1.ne hn2 (by omega)
    have hk1 : k ≠ 0 := by
      rintro rfl
      exact hne hk0
    refine ⟨p 0, Finset.mem_Ico.mpr ⟨by omega, hp0⟩, k, Finset.mem_Ico.mpr ⟨by omega, hk⟩, ?_, ?_, ?_⟩
    · rintro rfl
      exact hp.1.apply_apply_ne hn (show 0 < data.rank by omega) hk0
    · rw [hdiag 0 (by omega)]
      exact hlow 0 (by omega)
    · rw [hdiag 0 (by omega), hnsymm 0 (by omega) k hk]
      exact hk0 ▸ hlow k hk

theorem value_le (hp : p ∈ node.tours data.rank)
    (hfirst : minElement (nodeMatrix data node Prim.startPoint) data.rank ≠ 0) :
    node.data.value ≤ cost data.rank data.matrix p := by
  refine ((h.isMin hn hc hsymm hp hfirst).le_tour hn (excludeEdges_symm hsymm) hp.1).trans_eq ?_
  exact Finset.sum_congr rfl fun i hi => excludeEdges_tour hp.2.excluded (Finset.mem_range.mp hi)

end Solved

/-! ### Branching -/

/-- `branch` of the loop, on `transform_node` and an `epsilon` of `0`. -/
abbrev Expands (data : InitialData) (node : Node) (r : ValueType) (sol : Solution) (b : Branched Node) :
    Prop :=
  Processed (fun new _ => some (transformNode data new)) 0 (newNodes data node)
    { record := r, sol, nodes := [], released := [] } b

theorem Solved.branch (h : Solved data node) (hn : 3 ≤ data.rank) (hc : Costs data) (r : ValueType)
    (sol : Solution) : ∃ b, branch data node r sol = some b ∧ Expands data node r sol b := by
  have hrun : ∃ b, (newNodes data node).foldlM
      (branchChild (fun new _ => some (transformNode data new)) 0)
      { record := r, sol, nodes := [], released := [] } = some b := by
    refine branchChildren_total fun new _ _ => ⟨_, rfl, ?_⟩
    have hm : Solved data (transformNode data new) := transformNode_solved new
    rw [hm.length hn hc]
    exact ⟨by omega, hm.within hn hc⟩
  obtain ⟨b, hb⟩ := hrun
  exact ⟨b, (if_neg (h.moves_ne_nil hn hc)).trans hb, branchChildren_processed le_rfl hb⟩

/-- What holds of the nodes of a search: a node below the root is below `M_VAL`. -/
structure Reached (data : InitialData) (node : Node) : Prop where
  solved : Solved data node
  small : node.excludedEdges = [] ∨ node.data.value < mVal

/-- The pairs of vertices whose edge is not excluded. -/
def freePairs (data : InitialData) (node : Node) : Finset Edge :=
  (Finset.range data.rank ×ˢ Finset.range data.rank).filter fun e =>
    ¬ ∃ f ∈ node.excludedEdges, e = f ∨ (e.2, e.1) = f

namespace Reached

variable (h : Reached data node) (hn : 3 ≤ data.rank) (hc : Costs data)

include h hn hc

/-- A node returned by `branch` excludes one more edge. -/
theorem child {b : Branched Node} (hr : r ≤ mVal) (hproc : Expands data node r sol b)
    (hm : m ∈ b.nodes) :
    Reached data m ∧ (freePairs data m).card < (freePairs data node).card := by
  obtain ⟨new, hnew, r', hr', _, hrun, hlt, _⟩ := (hproc.nodes m hm).resolve_left List.not_mem_nil
  obtain rfl := Option.some.inj hrun
  obtain ⟨e, he, rfl⟩ := List.mem_map.mp hnew
  rw [add_zero] at hlt
  refine ⟨⟨transformNode_solved _, .inr (hlt.trans_le (hr'.trans hr))⟩, Finset.card_lt_card ?_⟩
  have hexc : (transformNode data (newNode node [] [e])).excludedEdges = e :: node.excludedEdges :=
    Node.excludedEdges_solved _ _
  have hrel : e ∈ node.data.relaxation := List.mem_of_mem_filter he
  have hin := h.solved.within hn hc e hrel
  refine Finset.ssubset_iff_of_subset (fun f hf => ?_) |>.mpr ⟨e, ?_, fun hno => ?_⟩
  · rw [freePairs, Finset.mem_filter, hexc] at hf
    refine Finset.mem_filter.mpr ⟨hf.1, fun ⟨g, hg, hgf⟩ => hf.2 ⟨g, List.mem_cons_of_mem _ hg, hgf⟩⟩
  · refine Finset.mem_filter.mpr ⟨?_, ?_⟩
    · exact Finset.mem_product.mpr ⟨Finset.mem_range.mpr hin.1, Finset.mem_range.mpr hin.2⟩
    · rcases h.small with hnil | hval
      · rw [hnil]
        exact fun ⟨_, hf, _⟩ => List.not_mem_nil hf
      · exact (nodeMatrix_of_lt (h.solved.edge_lt hn hc hval hrel)).2
  · rw [freePairs, Finset.mem_filter, hexc] at hno
    exact hno.2 ⟨e, List.mem_cons_self, .inl rfl⟩

end Reached

/-- A new record is the cost of a tour. -/
theorem record_spec (hn : 3 ≤ data.rank) (hc : Costs data) (hsymm : SymmetricOn data.rank data.matrix)
    {b : Branched Node} (hr : r ≤ mVal) (hproc : Expands data node r sol b) :
    b.record = r ∨ b.record < r ∧ ∃ p, IsTour data.rank p ∧
      cost data.rank data.matrix p = b.record := by
  rcases hproc.record with heq | ⟨new, _, r', hr', _, m, hrun, hlt, heq, route, hroute, hne⟩
  · exact .inl heq
  obtain rfl := Option.some.inj hrun
  rw [add_zero] at hlt
  obtain ⟨p, hp, hcost⟩ := (transformNode_solved new).tour hn hc hsymm (hlt.trans_le (hr'.trans hr))
    hroute hne
  exact .inr ⟨heq ▸ hlt.trans_le hr', p, hp, hcost.trans heq⟩

/-- The node is no tour below the record, and Prim's algorithm does not start with an edge to `0` at the
node or a new one that has a tour below the record. -/
structure Sound (data : InitialData) (node : Node) (r : ValueType) : Prop where
  noTour : node.data.value < r → buildTour node.data.relaxation = some []
  first : ∀ m ∈ node :: newNodes data node,
    (∃ p ∈ m.tours data.rank, cost data.rank data.matrix p < r) →
      minElement (nodeMatrix data m Prim.startPoint) data.rank ≠ 0

/-- A sound call of `branch` keeps the tours below the record. -/
theorem Sound.cover (hs : Sound data node r) (h : Solved data node) (hn : 3 ≤ data.rank)
    (hc : Costs data) (hsymm : SymmetricOn data.rank data.matrix) {b : Branched Node}
    (hproc : Expands data node r sol b) (hp : p ∈ node.tours data.rank)
    (hlt : cost data.rank data.matrix p < b.record) : ∃ m ∈ b.nodes, p ∈ m.tours data.rank := by
  have hlt' := hlt.trans_le hproc.le
  have hfirst := hs.first node List.mem_cons_self ⟨p, hp, hlt'⟩
  have hmin := h.isMin hn hc hsymm hp hfirst
  have hopen := hs.noTour ((h.value_le hn hc hsymm hp hfirst).trans_lt hlt')
  obtain ⟨e, he, hpass⟩ := Relaxed.selectMoves_keeps ⟨hmin.oneTree, hmin.length, hmin.nodup⟩ hn hopen hp.1
  have hnew : newNode node [] [e] ∈ newNodes data node := List.mem_map_of_mem he
  have hfit : p ∈ (newNode node [] [e]).tours data.rank :=
    newNode_tours hp (fun _ h => absurd h List.not_mem_nil) (by simpa using hpass)
  obtain ⟨r', _, _, _, m, hrun, hm⟩ := hproc.covered _ hnew
  obtain rfl := Option.some.inj hrun
  have hfit' : p ∈ (transformNode data (newNode node [] [e])).tours data.rank :=
    (Node.tours_solved _ _).symm ▸ hfit
  refine ⟨_, hm.resolve_right fun hle => ?_, hfit'⟩
  have hval := (transformNode_solved (newNode node [] [e])).value_le hn hc hsymm hfit' (by
    rw [transformNode, nodeMatrix_solved]
    exact hs.first _ (List.mem_cons_of_mem _ hnew) ⟨p, hfit, hlt'⟩)
  rw [add_zero] at hle
  exact absurd (hle.trans hval) (not_le.mpr hlt)

/-! ### Runs -/

/-- What `init`, `get_initial_node` and `get_initial_solution` set up. -/
structure Started (data : InitialData) (fuel : ℕ) (S : Solver Node) : Prop where
  rank : S.rank = data.rank
  greedy : getGreedySolution fuel data.matrix data.rank = some S.initialSolution
  sol : Proper data.rank data.matrix S.initialSolution
  root : S.initialNode = transformNode data (.root {})
  branch : ∀ node r sol, S.branch node r sol = (branch data node r sol).getD
    { record := r, sol, nodes := [node], released := [] }

theorem classicalSolver_spec (hn : 2 ≤ data.rank) (hc : Costs data)
    (hf : (data.rank + 1).factorial < fuel) :
    ∃ S, classicalSolver data fuel = some S ∧ Started data fuel S := by
  obtain ⟨sol, hsol, hproper⟩ := getGreedySolution_spec hc hn hf
  exact ⟨_, by simp only [classicalSolver, hsol]; rfl, rfl, hsol, hproper, rfl, fun _ _ _ => rfl⟩

theorem started (hn : 3 ≤ data.rank) (hc : Costs data) (hf : (data.rank + 1).factorial < fuel)
    (hS : classicalSolver data fuel = some S) : Started data fuel S := by
  obtain ⟨S', hS', h⟩ := classicalSolver_spec (Nat.le_of_succ_le hn) hc hf
  exact Option.some.inj (hS'.symm.trans hS) ▸ h

namespace Started

variable (h : Started data fuel S) (hn : 3 ≤ data.rank) (hc : Costs data)

include h

theorem branch_root (hb : (ClassicalSolver.branch data (transformNode data (.root {})) r {}).map
    (fun b => (b.record, b.nodes.length)) = some (v, 0)) :
    (S.branch S.initialNode r {}).record = v ∧ (S.branch S.initialNode r {}).nodes = [] := by
  obtain ⟨b, hb, heq⟩ := Option.map_eq_some_iff.mp hb
  rw [h.branch, h.root, hb]
  exact ⟨congrArg Prod.fst heq, List.eq_nil_of_length_eq_zero (congrArg Prod.snd heq)⟩

theorem tours_root : S.initialNode.tours data.rank = {p | IsTour data.rank p} := by
  rw [h.root, transformNode, Node.tours_solved]
  exact Set.ext fun p => Node.mem_tours_root

theorem optimal_iff : S.Optimal (cost data.rank data.matrix) (Node.tours data.rank)
    S.initialSolution.value v ↔ IsOptimum data.rank data.matrix v := by
  obtain ⟨p, hp, heq⟩ := h.sol.exists_tour
  have hmem : S.initialSolution.value ∈ cost data.rank data.matrix '' {p | IsTour data.rank p} :=
    ⟨p, hp, heq⟩
  rw [Solver.Optimal, h.tours_root, Set.insert_eq_of_mem hmem, IsOptimum]

include hn hc

theorem start_eq : serialStart S mVal = .search (.init S S.initialSolution.value) :=
  serialStart_eq (h.rank ▸ hn) (h.sol.lt hc (Nat.le_of_succ_le hn))

theorem branch_spec (hnode : Solved data node) (r : ValueType) (sol : Solution) :
    Expands data node r sol (S.branch node r sol) := by
  obtain ⟨b, hb, hproc⟩ := hnode.branch hn hc r sol
  rwa [h.branch, hb]

/-- A call of `branch` that is sound, with a record up to the initial one. -/
def Good (data : InitialData) (S : Solver Node) (node : Node) (r : ValueType) : Prop :=
  r ≤ S.initialSolution.value ∧ Sound data node r

theorem guarded_contract (hsymm : SymmetricOn data.rank data.matrix)
    (hv : IsOptimum data.rank data.matrix v) :
    (S.guarded (Good data S) v).Contract (cost data.rank data.matrix) (Node.tours data.rank) := by
  have hinit := h.sol.lt hc (Nat.le_of_succ_le hn)
  have hgood : ∀ {node r}, Good data S node r → ∀ sol,
      (S.guarded (Good data S) v).branch node r sol = S.branch node r sol := fun hg sol => if_pos hg
  have hbad : ∀ {node r}, ¬ Good data S node r → ∀ sol, (S.guarded (Good data S) v).branch node r sol =
      { record := min r v, sol, nodes := [], released := [] } := fun hg sol => if_neg hg
  have hchild : ∀ {node m : Node} {r sol}, Reached data node →
      m ∈ ((S.guarded (Good data S) v).branch node r sol).nodes →
      Reached data m ∧ (freePairs data m).card < (freePairs data node).card := by
    intro node m r sol hnode hm
    by_cases hg : Good data S node r
    · rw [hgood hg] at hm
      exact hnode.child hn hc (hg.1.trans hinit.le) (h.branch_spec hn hc hnode.solved r sol) hm
    · rw [hbad hg] at hm
      exact absurd hm List.not_mem_nil
  have hreached : ∀ {node}, (S.guarded (Good data S) v).Explored node → Reached data node := by
    intro node hx
    induction hx with
    | root =>
      have hroot : Reached data S.initialNode :=
        h.root ▸ ⟨transformNode_solved _, .inl (Node.excludedEdges_solved _ _)⟩
      exact hroot
    | child _ hm ih => exact (hchild ih hm).1
  obtain ⟨⟨q, hq, hqv⟩, hleast⟩ := hv
  refine ⟨fun {node} hx r sol => ?_, fun {node} hx r sol p hp hlt => ?_, ?_⟩
  · by_cases hg : Good data S node r
    · rw [hgood hg]
      refine (record_spec hn hc hsymm (hg.1.trans hinit.le)
        (h.branch_spec hn hc (hreached hx).solved r sol)).imp_right fun ⟨hlt, p, hp, heq⟩ =>
        ⟨hlt, p, ?_, heq⟩
      exact h.tours_root.symm ▸ hp
    · rw [hbad hg]
      rcases le_or_gt r v with hrv | hrv
      · exact .inl (min_eq_left hrv)
      · refine .inr ⟨(min_eq_right hrv.le).trans_lt hrv, q, ?_, hqv.trans (min_eq_right hrv.le).symm⟩
        exact h.tours_root.symm ▸ hq
  · by_cases hg : Good data S node r
    · rw [hgood hg] at hlt ⊢
      exact hg.2.cover (hreached hx).solved hn hc hsymm
        (h.branch_spec hn hc (hreached hx).solved r sol) hp hlt
    · rw [hbad hg] at hlt
      exact absurd (hlt.trans_le (min_le_right r v)) (not_lt.mpr (hleast ⟨p, hp.1, rfl⟩))
  · refine Subrelation.wf (r := InvImage (· < ·) fun node : Node => (freePairs data node).card) ?_
      (InvImage.wf _ wellFounded_lt)
    rintro m node ⟨hx, r, sol, hm⟩
    exact (hchild (hreached hx) hm).2

/-- The nodes that a search takes are solved, and no record is above the initial one. -/
theorem taken (htake : Search.Takes S c (.search (.init S S.initialSolution.value)) node r) :
    Solved data node ∧ r ≤ S.initialSolution.value := by
  let inv : BnbState Node → Prop
    | .search s => s.record ≤ S.initialSolution.value ∧ ∀ x ∈ s.nodes.map Prod.fst, Solved data x
    | _ => True
  have hpres : Preserved (Search.Step S c) inv := by
    intro st st' hinv hstep
    cases hstep with
    | @body s n i rest _ hp =>
      obtain ⟨hle, hnodes⟩ := hinv
      have hrest : ∀ x ∈ n :: rest.map Prod.fst, Solved data x := fun x hx =>
        hnodes x ((hp.perm.map Prod.fst).mem_iff.mpr hx)
      have hproc := h.branch_spec hn hc (hrest n List.mem_cons_self) s.record s.sol
      refine ⟨hproc.le.trans hle, fun x hx => ?_⟩
      rcases List.mem_append.mp ((Search.pushAll_nodes S s n i rest).mem_iff.mp hx) with hx | hx
      · obtain ⟨new, _, _, _, _, hrun, _⟩ := (hproc.nodes x hx).resolve_left List.not_mem_nil
        exact Option.some.inj hrun ▸ transformNode_solved new
      · exact hrest x (List.mem_cons_of_mem _ hx)
    | leave _ | drop _ | ret _ => exact trivial
  obtain ⟨s, i, rest, hr, _, rfl, hp⟩ := htake
  have hinit : inv (.search (.init S S.initialSolution.value)) := by
    refine ⟨le_rfl, fun x hx => ?_⟩
    obtain rfl : x = S.initialNode := List.mem_singleton.mp hx
    exact h.root ▸ transformNode_solved _
  obtain ⟨hle, hnodes⟩ := hpres.reaches hinit hr
  exact ⟨hnodes node ((hp.perm.map Prod.fst).mem_iff.mpr List.mem_cons_self), hle⟩

end Started

/-- The search returns the least cost of a tour in runs whose calls of `branch` are all sound. -/
theorem serial_classical_optimal (data : InitialData) (hn : 3 ≤ data.rank)
    (hsymm : SymmetricOn data.rank data.matrix) (hc : Costs data) :
    ∃ fuel₀, ∀ fuel > fuel₀, ∃ S, classicalSolver data fuel = some S ∧
      ∃ v, IsOptimum data.rank data.matrix v ∧ ∀ c,
        (∀ node r, Search.Takes S c (serialStart S mVal) node r → Sound data node r) →
          TotallyCorrect (Search.Step S c) (serialStart S mVal) (Search.Returns v) := by
  refine ⟨(data.rank + 1).factorial, fun fuel hf => ?_⟩
  obtain ⟨S, hS, h⟩ := classicalSolver_spec (Nat.le_of_succ_le hn) hc hf
  obtain ⟨v, hv⟩ := exists_optimum data.rank data.matrix
  refine ⟨S, hS, v, hv, fun c hsound => ?_⟩
  rw [h.start_eq hn hc] at hsound ⊢
  refine (Search.guarded_correct (h.guarded_contract hn hc hsymm hv) Search.init_inv
    fun node r htake hr => ⟨hr, hsound node r htake⟩).mono fun st ⟨w, hw, hret⟩ => ?_
  exact hv.unique (h.optimal_iff.mp hw) ▸ hret

/-- Five vertices whose root is no tour and has a child that is the optimal one. -/
def nearTourData : InitialData where
  matrix i j := if i = j then mVal else
    (([[0, 1, 0, 0, 0],
       [1, 0, 0, 0, 2],
       [0, 0, 0, 1, 1],
       [0, 0, 1, 0, 2],
       [0, 2, 1, 2, 0]] : List (List ValueType)).getD i []).getD j 0
  rank := 5
  size_lt := size_lt_five

/-- What the search meets on `nearTourData`. -/
theorem nearTourData_facts : SymmetricOn 5 nearTourData.matrix ∧
    (∀ i < 5, ∀ j < 5, i ≠ j → 0 ≤ nearTourData.matrix i j ∧ nearTourData.matrix i j ≤ 2) ∧
    (getGreedySolution 30 nearTourData.matrix 5).map Solution.value = some 2 ∧
    buildTour (transformNode nearTourData (.root {})).data.relaxation = some [] ∧
    (∀ m ∈ transformNode nearTourData (.root {}) ::
        newNodes nearTourData (transformNode nearTourData (.root {})),
      minElement (nodeMatrix nearTourData m Prim.startPoint) 5 ≠ 0) ∧
    (branch nearTourData (transformNode nearTourData (.root {})) 2 {}).map
      (fun b => (b.record, b.nodes.length)) = some (1, 0) := by
  decide +kernel

theorem nearTourData_costs : Costs nearTourData :=
  .of_le (fun _ _ => if_pos rfl) nearTourData_facts.2.1 (by norm_num [nearTourData, mVal])

theorem serial_classical_optimal_near : ∃ fuel₀, ∀ fuel > fuel₀, ∃ S,
    classicalSolver nearTourData fuel = some S ∧ ∃ v, IsOptimum 5 nearTourData.matrix v ∧
      ∀ c, TotallyCorrect (Search.Step S c) (serialStart S mVal) (Search.Returns v) := by
  have hn : 3 ≤ nearTourData.rank := by decide
  have hc := nearTourData_costs
  obtain ⟨hsymm, _, hgreedy, hopen, hfirst, hbranch⟩ := nearTourData_facts
  obtain ⟨fuel₀, h⟩ := serial_classical_optimal nearTourData hn hsymm hc
  refine ⟨max fuel₀ (6).factorial, fun fuel hf => ?_⟩
  obtain ⟨S, hS, v, hv, hsearch⟩ := h fuel (by omega)
  have hstart := started hn hc (show (6).factorial < fuel by omega) hS
  refine ⟨S, hS, v, hv, fun c => hsearch c fun node r htake => ?_⟩
  have hinit : S.initialSolution.value = 2 :=
    getGreedySolution_value hstart.greedy hgreedy ((show 30 ≤ (6).factorial by decide).trans (by omega))
  rw [hstart.start_eq hn hc, hinit] at htake
  obtain ⟨rfl, rfl⟩ := htake.eq_root (hstart.branch_root hbranch)
  rw [hstart.root]
  exact ⟨fun _ => hopen, fun m hm _ => hfirst m hm⟩

/-! ### A root that is lost -/

/-- Eight vertices whose minimum 1-tree is a tour of cost `2`, which the greedy tours miss. -/
def lostTourData : InitialData where
  matrix i j := if i = j then mVal else
    (([[0, 2, 1, 2, 2, 2, 2, 1],
       [2, 0, 1, 1, 0, 0, 1, 1],
       [1, 1, 0, 1, 1, 1, 0, 0],
       [2, 1, 1, 0, 1, 0, 0, 0],
       [2, 0, 1, 1, 0, 0, 0, 1],
       [2, 0, 1, 0, 0, 0, 0, 0],
       [2, 1, 0, 0, 0, 0, 0, 0],
       [1, 1, 0, 0, 1, 0, 0, 0]] : List (List ValueType)).getD i []).getD j 0
  rank := 8
  size_lt := by decide

/-- What the search meets on `lostTourData`. -/
theorem lostTourData_facts : SymmetricOn 8 lostTourData.matrix ∧
    (∀ i < 8, ∀ j < 8, i ≠ j → 0 ≤ lostTourData.matrix i j ∧ lostTourData.matrix i j ≤ 2) ∧
    (getGreedySolution 30 lostTourData.matrix 8).map Solution.value = some 3 ∧
    (transformNode lostTourData (.root {})).data.value = 2 ∧
    buildTour (transformNode lostTourData (.root {})).data.relaxation =
      some [0, 2, 6, 4, 1, 5, 3, 7, 0] ∧
    (branch lostTourData (transformNode lostTourData (.root {})) 3 {}).map
      (fun b => (b.record, b.nodes.length)) = some (3, 0) := by
  decide +kernel

theorem lostTourData_costs : Costs lostTourData :=
  .of_le (fun _ _ => if_pos rfl) lostTourData_facts.2.1 (by norm_num [lostTourData, mVal])

theorem lostTourData_tour : ∃ p, IsTour 8 p ∧ cost 8 lostTourData.matrix p = 2 := by
  obtain ⟨hsymm, _, _, hvalue, hroute, _⟩ := lostTourData_facts
  obtain ⟨p, hp, hcost⟩ := (transformNode_solved (.root {})).tour (show 3 ≤ lostTourData.rank by decide)
    lostTourData_costs hsymm (hvalue.trans_lt (by norm_num [mVal])) hroute (by decide)
  exact ⟨p, hp, hcost.trans hvalue⟩

/-- The search returns `3` where there is a tour of cost `2`. -/
theorem classical_loses_root : 3 ≤ lostTourData.rank ∧
    SymmetricOn lostTourData.rank lostTourData.matrix ∧ Costs lostTourData ∧
    ¬ ∃ fuel₀, ∀ fuel > fuel₀, ∃ S, classicalSolver lostTourData fuel = some S ∧
      ∃ v, IsOptimum lostTourData.rank lostTourData.matrix v ∧
        ∀ c, TotallyCorrect (Search.Step S c) (serialStart S mVal) (Search.Returns v) := by
  have hn : 3 ≤ lostTourData.rank := by decide
  have hc := lostTourData_costs
  obtain ⟨hsymm, _, hgreedy, _, _, hbranch⟩ := lostTourData_facts
  refine ⟨hn, hsymm, hc, ?_⟩
  rintro ⟨fuel₀, h⟩
  obtain ⟨S, hS, v, hv, hends⟩ := h (max fuel₀ (9).factorial + 1) (by omega)
  have hf : (9).factorial < max fuel₀ (9).factorial + 1 := by omega
  generalize max fuel₀ (9).factorial + 1 = fuel at hS hf
  have hstart := started hn hc hf hS
  have hinit : S.initialSolution.value = 3 :=
    getGreedySolution_value hstart.greedy hgreedy (le_trans (by decide) hf.le)
  obtain ⟨st, hr, _, sol, s, rfl, hval, _⟩ := (hends .lifo).exists_end
  rw [hstart.start_eq hn hc, hinit] at hr
  have hthree : sol.value = 3 := 
    (Search.single_preserved (hstart.branch_root hbranch)).reaches .start hr
  obtain ⟨p, hp, hcost⟩ := lostTourData_tour
  have hle : (3 : ValueType) ≤ 2 := hthree ▸ hval ▸ hcost ▸ hv.2 ⟨p, hp, rfl⟩
  exact absurd hle (by decide)

end Optimer.Stsp.ClassicalSolver
