import Mathlib.Data.Fintype.Prod
import Mathlib.Tactic.IntervalCases
import Optimer.Bnb.Guarded
import Optimer.Tsp.EdgeChoice
import Optimer.Tsp.Exclusion

/-! All branching rules of `TspSolver` find the least cost of a tour, as long as rule 2 does not branch
on a tour and no check of rule 4 fails. -/

namespace Optimer.Tsp
open Finset Transition

variable {data : InitialData} {node : Node} {rule : BranchingRule} {fuel : ℕ} {S : Solver Node}
  {v : ValueType}

namespace BranchingRule

/-- The nodes a rule can branch on: rule 2 only makes nodes without the assignment of their parent, and
rule 4 checks that every vertex of the subtour has an unmarked edge to another one. -/
def Safe (fuel : ℕ) (data : InitialData) (node : Node) : BranchingRule → Prop
  | rule2 => hasSolution node.primal data.rank = false
  | rule4 => ∀ vs, subtourVertices fuel data node = some vs →
      ∀ i ∈ vs, ∃ j ∈ vs, j ≠ i ∧ node.edgeMap (i, j) = false
  | _ => True

/-- What holds of the nodes of a search with the rule. -/
def Valid (data : InitialData) (node : Node) : BranchingRule → Prop
  | rule1 | rule3 => node.Valid data
  | rule2 | rule4 | rule5 => node.Excludes data

theorem Valid.valid (h : rule.Valid data node) : node.Valid data := by
  cases rule
  exacts [h, h.valid, h, h.valid, h.valid]

theorem Valid.root (h : node.Valid data) (hinc : node.includedPoints = []) : rule.Valid data node := by
  cases rule
  exacts [h, ⟨h, hinc⟩, h, ⟨h, hinc⟩, ⟨h, hinc⟩]

end BranchingRule

/-- Every rule is exact on the nodes it can branch on. -/
theorem Started.exact_safe (h : Started fuel data rule S) (hn : 3 ≤ data.rank) (hc : Costs data)
    (hf : rounds data.rank < fuel) (hnode : rule.Valid data node) (hval : node.data.value < mVal)
    (hsafe : rule.Safe fuel data node) (r : ValueType) (sol : Solution) :
    Exact data (fun m => rule.Valid data m) node r (S.branch node r sol) := by
  have hn2 : 2 ≤ data.rank := Nat.le_of_succ_le hn
  have hf' : data.rank < fuel := by
    unfold rounds at hf
    omega
  cases rule with
  | rule1 =>
    have hnode : node.Valid data := hnode
    rcases branchingRule1_cases fuel data node with ⟨hnodes, hnone⟩ | ⟨e, h1, h2, hopen, hnodes⟩
    · refine h.exact hn2 hc hf hnodes ⟨?_, ?_, ?_⟩ ?_ (fun q hq => ?_) r sol
      · exact fun new hnew => absurd hnew List.not_mem_nil
      · exact fun new hnew => absurd hnew List.not_mem_nil
      · exact fun new hnew => absurd hnew List.not_mem_nil
      · exact fun new hnew => absurd hnew List.not_mem_nil
      · obtain ⟨i, hi, j, hj, hopen, hlow⟩ := exists_low hc hn hnode hq
        exact absurd hnone (minEdge_ne_none hi hj hopen hlow)
    · exact h.exact hn2 hc hf hnodes ((rule1_places hnode.solved.formed h1 h2 hopen).splits hnode.solved)
        (fun _ _ _ _ hm => hm)
        (fun q hq => rule1_keeps hq e) r sol
  | rule2 =>
    have hnode : node.Excludes data := hnode
    obtain ⟨vs, hs, hnodes⟩ := branchingRule2_spec hc hn2 hnode.valid hf'
    have hopen : ¬ IsTour data.rank node.primal := fun htour => by
      have htrue := (hnode.valid.solved.perm.hasSolution_iff (by omega)).mpr htour
      exact Bool.false_ne_true (hsafe.symm.trans htrue)
    refine h.exact hn2 hc hf hnodes
      ((hs.moves.places2 hnode.valid.solved.formed).splits hnode.valid.solved) (fun new hnew m hm hv => ?_)
      (fun q hq => hs.keeps2 hopen hn2 hq) r sol
    obtain ⟨x, _, rfl⟩ := List.mem_map.mp hnew
    exact hnode.child hm hv
  | rule3 =>
    have hnode : node.Valid data := hnode
    obtain ⟨vs, hs, hnodes⟩ := branchingRule3_spec hc hn2 hnode hf'
    exact h.exact hn2 hc hf hnodes ((hs.moves.places3 hnode.solved.formed).splits hnode.solved) (fun _ _ _ _ hm => hm)
      (fun q hq => rule3_keeps hn2 hnode hs hq) r sol
  | rule4 =>
    have hnode : node.Excludes data := hnode
    obtain ⟨v, hv, hvs⟩ := subtourVertices_spec hc hn2 hnode.valid hf' hval
    have hsafe := hsafe _ hvs
    refine h.exact hn2 hc hf (branchingRule4_spec hvs hsafe) (rule4_splits hnode hv hsafe)
      (fun new hnew m hm hvm => ?_) (fun q hq => rule4_keeps hnode hc hn2 hv hq) r sol
    obtain ⟨x, _, rfl⟩ := List.mem_map.mp hnew
    exact hnode.child hm hvm
  | rule5 =>
    have hnode : node.Excludes data := hnode
    obtain ⟨v, hv, hvs⟩ := subtourVertices_spec hc hn2 hnode.valid hf' hval
    obtain ⟨released, hnodes⟩ := branchingRule5_spec hvs
    refine h.exact hn2 hc hf hnodes ((rule5_places hnode.bare hv).splits hnode.valid.solved)
      (fun new hnew m hm hvm => ?_)
      (fun q hq => rule5_keeps hnode hc hn2 hv hq) r sol
    obtain ⟨_, x, _, _, rfl⟩ := exists_rule5Nodes (List.mem_of_mem_filter hnew)
    exact hnode.child hm hvm

/-! ### Runs -/

/-- All nodes that a search branches on are safe for its rule. -/
def SafeRuns (fuel : ℕ) (data : InitialData) (rule : BranchingRule) (S : Solver Node) (c : Container)
    (start : BnbState Node) : Prop :=
  ∀ node r, Search.Takes S c start node r → node.data.value < r → rule.Safe fuel data node

/-- A call of `branch` is good if it drops the node or the node is safe. -/
def Good (fuel : ℕ) (data : InitialData) (rule : BranchingRule) (node : Node) (r : ValueType) : Prop :=
  r ≤ node.data.value ∨ node.data.value < mVal ∧ rule.Safe fuel data node

namespace Started

variable (h : Started fuel data rule S) (hn : 3 ≤ data.rank) (hc : Costs data)
  (hf : rounds data.rank < fuel) (hv : IsOptimum data.rank data.matrix v)

include h hn hc hf hv

theorem guarded_contract : (S.guarded (Good fuel data rule) v).Contract (cost data.rank data.matrix)
    (Node.tours data) := by
  refine exact_contract hc h.root (fun m => rule.Valid data m)
    (fun _ hm => hm.valid) (.root (root_valid h.root) h.root.includedPoints) fun node hnode r sol => ?_
  by_cases hgood : Good fuel data rule node r
  · rw [show (S.guarded (Good fuel data rule) v).branch node r sol = S.branch node r sol from if_pos hgood]
    rcases hgood with hle | ⟨hval, hsafe⟩
    · rw [h.branch_of_le r sol hle]
      exact .drop hle rfl rfl
    · exact h.exact_safe hn hc hf hnode hval hsafe r sol
  · rw [show (S.guarded (Good fuel data rule) v).branch node r sol =
      { record := min r v, sol, nodes := [], released := [] } from if_neg hgood]
    obtain ⟨⟨p, hp, hpv⟩, hleast⟩ := hv
    refine .done ?_ (fun q hq => (min_le_right r v).trans (hleast ⟨q, hq, rfl⟩)) rfl
    rcases le_or_gt r v with hrv | hrv
    · exact .inl (min_eq_left hrv)
    · exact .inr ⟨(min_eq_right hrv.le).trans_lt hrv, p, hp, hpv.trans (min_eq_right hrv.le).symm⟩

/-- A search that only branches on safe nodes returns the least cost of a tour. -/
theorem safe_correct {c : Container}
    (hsafe : SafeRuns fuel data rule S c (.search (.init S S.initialSolution.value))) :
    TotallyCorrect (Search.Step S c) (.search (.init S S.initialSolution.value))
      (Search.Returns v) := by
  have hlt := h.sol.lt hc (Nat.le_of_succ_le hn)
  refine (Search.guarded_correct (h.guarded_contract hn hc hf hv) Search.init_inv
    fun node r htake hr => ?_).mono fun st ⟨w, hw, hret⟩ => ?_
  · rcases le_or_gt r node.data.value with hle | hval
    · exact .inl hle
    · exact .inr ⟨(hval.trans_le hr).trans hlt, hsafe node r htake hval⟩
  · exact hv.unique (h.optimal_iff.mp hw) ▸ hret

end Started

/-- Where a check of rule 4 fails the search does not end. -/
theorem Started.rule4_safe (h : Started fuel data .rule4 S) {c : Container} {start : BnbState Node}
    (hend : Terminates (Search.Step S c) start) : SafeRuns fuel data .rule4 S c start := by
  intro node r htake hlt vs hvs i hi
  by_contra hno
  push Not at hno
  refine htake.not_terminates (fun sol => ?_) hend
  have hnil : rule4Edges node vs i = [] := by
    refine List.eq_nil_iff_forall_not_mem.mpr fun e he => ?_
    obtain ⟨rfl, he2, hne, hmark⟩ := mem_rule4Edges.mp he
    exact hno e.2 he2 hne hmark
  have hnodes : BranchingRule.rule4.nodes fuel data node = none := by
    simp only [BranchingRule.nodes, branchingRule4, hvs, Option.bind_eq_bind, Option.bind_some,
      Option.map_eq_none_iff]
    exact mapM_none hi (if_pos hnil)
  rw [h.branch, Tsp.branch, if_neg (not_le.mpr hlt), hnodes]
  rfl

/-! ### New nodes that are dropped -/

theorem branchChild_of_le {new m : Node} {data : InitialData} {fuel : ℕ} {b : Branched Node}
    (hrun : transformNode data new fuel = some m)
    (hle : b.record ≤ m.data.value) :
    branchChild fuel data b new = some { b with released := b.released ++ [m] } := by
  simp [branchChild, hrun, not_lt.mpr hle]

/-- New nodes that are not below the record are released. -/
theorem branchChildren_of_le {news : List Node} {data : InitialData} {fuel : ℕ} {b : Branched Node}
    (h : ∀ new ∈ news, ∃ m, transformNode data new fuel = some m ∧ b.record ≤ m.data.value) :
    ∃ released, news.foldlM (branchChild fuel data) b = some { b with released } := by
  induction news generalizing b with
  | nil => exact ⟨b.released, rfl⟩
  | cons new news ih =>
    obtain ⟨⟨m, hrun, hle⟩, hnews⟩ := List.forall_mem_cons.mp h
    obtain ⟨released, hrest⟩ := ih (b := { b with released := b.released ++ [m] }) hnews
    exact ⟨released, by simp [List.foldlM_cons, branchChild_of_le hrun hle, hrest]⟩

/-- Where one assignment is the only one below the record, rule 2 drops all children of the root. -/
theorem Started.rule2_drops (h : Started fuel data .rule2 S) (hn : 2 ≤ data.rank) (hc : Costs data)
    (hf : rounds data.rank < fuel) {p q : ℕ → ℕ} {r : ValueType} (hq : IsTour data.rank q) (hp : IsPerm data.rank p)
    (hlow : cost data.rank data.matrix p < r) (hne : ∀ i < data.rank, q i ≠ p i)
    (honly : ∀ p', IsPerm data.rank p' → cost data.rank data.matrix p' < r → ∀ i < data.rank, p' i = p i)
    (sol : Solution) : (S.branch S.initialNode r sol).record = r ∧ (S.branch S.initialNode r sol).nodes = [] := by
  have hfuel : 2 * data.rank + 1 < fuel := by
    unfold rounds at hf
    omega
  have hinc : S.initialNode.includedPoints = [] := h.root.includedPoints
  have hexc : S.initialNode.excludedPoints = [] := h.root.excludedPoints
  have hroot : S.initialNode.Excludes data := ⟨root_valid h.root, hinc⟩
  have hvalue : S.initialNode.data.value < r :=
    (hroot.valid.solved.value_le hc hp (root_fits h.root p)).trans_lt hlow
  have hprimal : ∀ i < data.rank, S.initialNode.primal i = p i := by
    refine honly _ hroot.valid.solved.perm ?_
    exact hroot.valid.solved.value.symm.trans_lt hvalue
  obtain ⟨vs, hs, hnodes⟩ := branchingRule2_spec hc hn hroot.valid (show data.rank < fuel by omega)
  have hlarge : ∀ new ∈ rule2Nodes S.initialNode vs, ∃ m,
      transformNode data new fuel = some m ∧ r ≤ m.data.value := by
    intro new hnew
    have hready := ((hs.moves.places2 hroot.valid.solved.formed).splits hroot.valid.solved).ready new hnew
    obtain ⟨x, hx, rfl⟩ := List.mem_map.mp hnew
    obtain ⟨value, ap, hrun, hsolved⟩ := hready.transformNode hc hfuel
    refine ⟨_, hrun, ?_⟩
    by_contra hlt
    rw [hsolved.value, not_le] at hlt
    have hxn := hs.lt x hx
    have heq := honly _ hsolved.perm hlt x hxn
    have hfits : (Node.solved (newNode S.initialNode [] [S.initialNode.edge x]) value ap).Fits q := by
      refine ⟨fun e he => ?_, fun e he => ?_⟩
      · rw [Node.includedPoints_solved, hroot.bare.newNode_included] at he
        exact absurd he List.not_mem_nil
      · rw [Node.excludedPoints_solved, newNode_excludedPoints, hexc, List.append_nil] at he
        cases List.mem_singleton.mp he
        show q x ≠ S.initialNode.primal x
        rw [hprimal x hxn]
        exact hne x hxn
    refine (hsolved.clean hc hq.perm hfits (hc.cost_lt hq.perm fun i hi => hq.ne hn hi) hxn).2 ?_
    rw [heq, Node.excludedPoints_solved, newNode_excludedPoints, ← hprimal x hxn]
    exact List.mem_append_left _ (List.mem_singleton_self _)
  obtain ⟨released, hrun⟩ := branchChildren_of_le (b := ⟨r, sol, [], []⟩) hlarge
  rw [h.branch, Tsp.branch, if_neg (not_le.mpr hvalue), hnodes]
  simp [hrun]

/-! ### The comparison -/

/-- The two loops, with the containers they can have. -/
inductive Entry
  | serial (c : Container)
  | simple

namespace Entry

def container : Entry → Container
  | serial c => c
  | simple => .lifo

/-- The start of `solve`, with the default record. -/
def start (S : Solver Node) : Entry → BnbState Node
  | serial _ => serialStart S mVal
  | simple => simpleStart S mVal

/-- All runs end, with the value `v`. -/
def Finds (S : Solver Node) (v : ValueType) (e : Entry) : Prop :=
  TotallyCorrect (Search.Step S e.container) (e.start S) (Search.Returns v)

/-- Both searches end, with the same value. -/
def Agree (S T : Solver Node) (e : Entry) : Prop := ∃ v, e.Finds S v ∧ e.Finds T v

/-- The runs only branch on nodes that the rule can branch on. -/
def Safe (fuel : ℕ) (data : InitialData) (rule : BranchingRule) (S : Solver Node) (e : Entry) : Prop :=
  SafeRuns fuel data rule S e.container (e.start S)

theorem start_eq (hn : 3 ≤ S.rank) (hlt : S.initialSolution.value < mVal) (e : Entry) :
    e.start S = .search (.init S S.initialSolution.value) := by
  have hrank : S.rank > minRankValue := hn
  cases e with
  | serial c => exact serialStart_eq hrank hlt
  | simple => rw [start, simpleStart, if_pos hrank]

end Entry

theorem Started.finds (h : Started fuel data rule S) (hn : 3 ≤ data.rank) (hc : Costs data)
    (hf : rounds data.rank < fuel) (hv : IsOptimum data.rank data.matrix v) {e : Entry}
    (hsafe : e.Safe fuel data rule S) : e.Finds S v := by
  have hstart := Entry.start_eq (h.rank ▸ hn) (h.sol.lt hc (Nat.le_of_succ_le hn)) e
  rw [Entry.Safe, hstart] at hsafe
  rw [Entry.Finds, hstart]
  exact h.safe_correct hn hc hf hv hsafe

theorem Started.safe_of_finds (h : Started fuel data rule S) (hrule : rule ≠ .rule2) {e : Entry}
    (hend : e.Finds S v) : e.Safe fuel data rule S := by
  cases rule with
  | rule2 => exact absurd rfl hrule
  | rule4 => exact h.rule4_safe hend.terminates
  | rule1 | rule3 | rule5 => exact fun _ _ _ _ => trivial

/-- Any two rules find the same value in runs that only branch on safe nodes; for all rules but rule 2
that is also necessary for the runs to end. -/
theorem rules_agree (data : InitialData) (hn : 3 ≤ data.rank) (hc : Costs data) (r₁ r₂ : BranchingRule) :
    ∃ fuel₀, ∀ fuel > fuel₀, ∃ S₁ S₂, tspSolver fuel data r₁ = some S₁ ∧
      tspSolver fuel data r₂ = some S₂ ∧ ∀ e : Entry,
        (e.Safe fuel data r₁ S₁ → e.Safe fuel data r₂ S₂ → e.Agree S₁ S₂) ∧
        (e.Agree S₁ S₂ → (r₁ ≠ .rule2 → e.Safe fuel data r₁ S₁) ∧
          (r₂ ≠ .rule2 → e.Safe fuel data r₂ S₂)) := by
  refine ⟨rounds data.rank, fun fuel hf => ?_⟩
  have hn2 : 2 ≤ data.rank := Nat.le_of_succ_le hn
  obtain ⟨_, _, v, hv, _⟩ := rule3_exact hc hn hf
  obtain ⟨S₁, hS₁, h₁⟩ := tspSolver_spec hn2 hc hf r₁
  obtain ⟨S₂, hS₂, h₂⟩ := tspSolver_spec hn2 hc hf r₂
  refine ⟨S₁, S₂, hS₁, hS₂, fun e => ⟨fun hs₁ hs₂ => ?_, fun ⟨w, hw₁, hw₂⟩ => ?_⟩⟩
  · exact ⟨v, h₁.finds hn hc hf hv hs₁, h₂.finds hn hc hf hv hs₂⟩
  · exact ⟨fun hr => h₁.safe_of_finds hr hw₁, fun hr => h₂.safe_of_finds hr hw₂⟩

/-! ### Two pairs of vertices -/

/-- The initial solution is the one that the greedy construction and `two_opt` find. -/
theorem tspSolver_initial {sol : Solution} {k : ℕ} (hS : tspSolver fuel data rule = some S)
    (hsol : getGreedySolution k data.matrix data.rank = some sol) (hk : k ≤ fuel) : S.initialSolution = sol := by
  simp only [tspSolver, Option.bind_eq_bind, Option.bind_eq_some_iff] at hS
  obtain ⟨sol', hsol', node, _, heq⟩ := hS
  cases heq
  exact Option.some.inj (hsol'.symm.trans (getGreedySolution_mono hsol hk))

theorem isTour_four {p : ℕ → ℕ} (hlt : ∀ i < 4, p i < 4) (hinj : ∀ i < 4, ∀ j < 4, p i = p j → i = j)
    (hreach : ∀ i < 4, ∃ k < 4, p^[k] 0 = i) : IsTour 4 p :=
  ⟨.of_injective hlt hinj, fun i hi => (hreach i hi).imp fun _ h => h.2⟩

/-- No assignment of four rows but `q` costs less than `v`. -/
abbrev OnlyBelow (matrix : ℕ → ℕ → ValueType) (v : ValueType) (q : ℕ → ℕ) : Prop :=
  ∀ x : (Fin 4 × Fin 4) × Fin 4 × Fin 4, [x.1.1, x.1.2, x.2.1, x.2.2].Nodup →
    matrix 0 x.1.1 + matrix 1 x.1.2 + matrix 2 x.2.1 + matrix 3 x.2.2 < v →
      (x.1.1 : ℕ) = q 0 ∧ (x.1.2 : ℕ) = q 1 ∧ (x.2.1 : ℕ) = q 2 ∧ (x.2.2 : ℕ) = q 3

theorem IsPerm.eq_of_cost {matrix : ℕ → ℕ → ValueType} {p q : ℕ → ℕ} (hp : IsPerm 4 p)
    (hall : OnlyBelow matrix v q) (h : cost 4 matrix p < v) : ∀ i < 4, p i = q i := by
  have hlt : ∀ i < 4, p i < 4 := fun i hi => hp.lt hi
  have hne : ∀ i < 4, ∀ j < 4, i ≠ j → p i ≠ p j := fun i hi j hj hij heq => hij (hp.inj hi hj heq)
  obtain ⟨h0, h1, h2, h3⟩ := hall ((⟨p 0, hlt 0 (by decide)⟩, ⟨p 1, hlt 1 (by decide)⟩), ⟨p 2, hlt 2 (by decide)⟩,
    ⟨p 3, hlt 3 (by decide)⟩) (by simp [hne]) (by simpa [cost, sum_range_succ] using h)
  intro i hi
  interval_cases i
  exacts [h0, h1, h2, h3]

/-- Two pairs of vertices with free arcs between the two of a pair. -/
def pairsData : InitialData where
  matrix i j :=
    if i = j then mVal else if (i, j) ∈ [(0, 1), (1, 0), (2, 3), (3, 2)] then 0 else 1
  rank := 4
  size_lt := size_lt_four

theorem pairsData_costs : Costs pairsData :=
  .of_le (x := 1) (fun _ _ => if_pos rfl)
    (fun _ _ _ _ hij => by simp only [pairsData, if_neg hij]; split <;> decide) (by norm_num [pairsData, mVal])

/-- The two pairs. -/
def pairs : ℕ → ℕ
  | 0 => 1
  | 1 => 0
  | 2 => 3
  | _ => 2

/-- A tour that shares no edge with them. -/
def otherTour : ℕ → ℕ
  | 0 => 2
  | 1 => 3
  | 2 => 1
  | _ => 0

theorem otherTour_isTour : IsTour 4 otherTour := isTour_four (by decide) (by decide) (by decide)

theorem pairs_perm : IsPerm 4 pairs := .of_injective (by decide) (by decide)

/-- The route of the greedy solution, and the only cheaper assignment. -/
theorem pairsData_facts : getGreedySolution 30 pairsData.matrix 4 = some ⟨2, [0,1,2,3,0]⟩ ∧
    cost 4 pairsData.matrix pairs < 2 ∧ OnlyBelow pairsData.matrix 2 pairs := by
  decide +kernel

/-- Rule 2 branches on the two pairs only, which are no tour. -/
theorem Started.pairs_safe (h : Started fuel pairsData .rule2 S) (hf : rounds 4 < fuel)
    (hsol : S.initialSolution.value = 2) :
    S.initialNode.data.value < 2 ∧ ∀ e : Entry, e.Safe fuel pairsData .rule2 S := by
  have hroot := root_valid h.root
  have hvalue : S.initialNode.data.value < 2 :=
    (hroot.solved.value_le pairsData_costs pairs_perm (root_fits h.root pairs)).trans_lt pairsData_facts.2.1
  have hprimal : ∀ i < 4, S.initialNode.primal i = pairs i :=
    hroot.solved.perm.eq_of_cost pairsData_facts.2.2 (hroot.solved.value.symm.trans_lt hvalue)
  refine ⟨hvalue, fun e => ?_⟩
  rw [Entry.Safe, Entry.start_eq (h.rank ▸ (by decide : 3 ≤ 4)) (hsol ▸ by decide), hsol]
  intro node r htake _
  obtain ⟨rfl, rfl⟩ := htake.eq_root (h.rule2_drops (by decide) pairsData_costs hf otherTour_isTour pairs_perm
    pairsData_facts.2.1 (by decide) (fun _ hp hlt => hp.eq_of_cost pairsData_facts.2.2 hlt) {})
  -- the walk from `0` stays in the first pair
  rw [BranchingRule.Safe, ← Bool.not_eq_true, hroot.solved.perm.hasSolution_iff (by decide)]
  intro htour
  have hstay (k : ℕ) : S.initialNode.primal^[k] 0 < 2 := by
    induction k with
    | zero => exact Nat.two_pos
    | succ k ih =>
      have hpairs : ∀ i < 2, pairs i < 2 := by decide
      rw [Function.iterate_succ_apply', hprimal _ (by omega)]
      exact hpairs _ ih
  obtain ⟨k, hk⟩ := htour.reach 2 (by decide)
  exact absurd (hstay k) (hk ▸ Nat.lt_irrefl 2)

theorem rules_agree_pairs : ∃ fuel₀, ∀ fuel > fuel₀, ∃ S₂ S₃, tspSolver fuel pairsData .rule2 = some S₂ ∧
    tspSolver fuel pairsData .rule3 = some S₃ ∧ S₂.initialNode.data.value < S₂.initialSolution.value ∧
      ∀ e : Entry, e.Agree S₂ S₃ := by
  obtain ⟨fuel₀, h⟩ := rules_agree pairsData (by decide) pairsData_costs .rule2 .rule3
  refine ⟨max fuel₀ (rounds 4), fun fuel hf => ?_⟩
  obtain ⟨hf₀, hf⟩ := max_lt_iff.mp hf
  obtain ⟨S₂, S₃, hS₂, hS₃, hagree⟩ := h fuel hf₀
  have hn : 2 ≤ pairsData.rank := by decide
  obtain ⟨S, hS, hstart⟩ := tspSolver_spec hn pairsData_costs hf .rule2
  obtain rfl := Option.some.inj (hS.symm.trans hS₂)
  have hsol := tspSolver_initial hS pairsData_facts.1 (le_trans (by decide) hf.le : 30 ≤ fuel)
  obtain ⟨hvalue, hsafe⟩ := hstart.pairs_safe hf (congrArg Solution.value hsol)
  exact ⟨S, S₃, hS, hS₃, hvalue.trans_eq (congrArg Solution.value hsol).symm, fun e =>
    (hagree e).1 (hsafe e) fun _ _ _ _ => trivial⟩

/-! ### A root that rule 2 loses -/

/-- Four vertices whose assignment problem is solved by a tour of cost `0`, which the greedy tours miss. -/
def rootTourData : InitialData where
  matrix i j :=
    if i = j then mVal else if (i, j) ∈ [(0, 2), (1, 3), (2, 1), (3, 0), (3, 2)] then 1 else 0
  rank := 4
  size_lt := size_lt_four

theorem rootTourData_costs : Costs rootTourData :=
  .of_le (x := 1) (fun _ _ => if_pos rfl)
    (fun _ _ _ _ hij => by simp only [rootTourData, if_neg hij]; split <;> decide) (by norm_num [rootTourData, mVal])

/-- The tour of cost `0`. -/
def zeroTour : ℕ → ℕ
  | 0 => 3
  | 1 => 2
  | 2 => 0
  | _ => 1

theorem zeroTour_isTour : IsTour 4 zeroTour := isTour_four (by decide) (by decide) (by decide)

/-- The greedy solution costs `1`, and only the tour of cost `0` is cheaper. -/
theorem rootTourData_facts : getGreedySolution 30 rootTourData.matrix 4 = some ⟨1, [0,1,2,3,0]⟩ ∧
    cost 4 rootTourData.matrix zeroTour = 0 ∧ OnlyBelow rootTourData.matrix 1 zeroTour := by
  decide +kernel

/-- The children that rule 2 makes of the root are dropped, and the tour of the root is lost. -/
theorem rule2_branch {fuel : ℕ} {S : Solver Node} (h : Started fuel rootTourData .rule2 S)
    (hf : rounds 4 < fuel) (sol : Solution) : (S.branch S.initialNode 1 sol).record = 1 ∧
      (S.branch S.initialNode 1 sol).nodes = [] :=
  h.rule2_drops (by decide) rootTourData_costs hf otherTour_isTour zeroTour_isTour.perm
    (by rw [show cost rootTourData.rank _ _ = 0 from rootTourData_facts.2.1]; exact one_pos) (by decide)
    (fun _ hp hlt => hp.eq_of_cost rootTourData_facts.2.2 hlt) sol

/-- In the search with rule 2 the record stays at the initial `1`. -/
def Stays (S : Solver Node) : BnbState Node → Prop
  | .search s => s.record = 1 ∧ ∀ x ∈ s.nodes, x.1 = S.initialNode
  | .clean s => s.record = 1
  | .returned sol _ => sol.value = 1

theorem rule2_stays {fuel : ℕ} {S : Solver Node} {c : Container}
    (h : Started fuel rootTourData .rule2 S) (hf : rounds 4 < fuel) :
    Preserved (Search.Step S c) (Stays S) := by
  intro st st' hst hstep
  cases hstep with
  | @body s n i rest _ hp =>
    obtain ⟨hrec, hnodes⟩ := hst
    have hperm := hp.perm
    have hn : n = S.initialNode := hnodes _ (hperm.mem_iff.mpr List.mem_cons_self)
    obtain ⟨hrec', hnil⟩ := rule2_branch h hf s.sol
    simp only [Stays, Search.body, hn, hrec, hnil, hrec']
    exact ⟨trivial, fun x hx => hnodes x (hperm.mem_iff.mpr (List.mem_cons_of_mem _ hx))⟩
  | leave _ => exact hst.1
  | drop _ => exact hst
  | ret _ => exact hst

/-- Rule 2 returns `1` where rule 3 returns the optimum `0`. -/
theorem rule2_loses_root : ¬ ∃ fuel₀, ∀ fuel > fuel₀, ∃ S₂ S₃,
    tspSolver fuel rootTourData .rule2 = some S₂ ∧ tspSolver fuel rootTourData .rule3 = some S₃ ∧
      ∀ e : Entry, e.Agree S₂ S₃ := by
  rintro ⟨fuel₀, h⟩
  obtain ⟨S₂, S₃, hS₂, hS₃, hagree⟩ := h (max fuel₀ (rounds 4) + 1) (by omega)
  have hf : rounds 4 < max fuel₀ (rounds 4) + 1 := by omega
  generalize max fuel₀ (rounds 4) + 1 = fuel at hS₂ hS₃ hf
  have hc := rootTourData_costs
  obtain ⟨v, hv₂, hv₃⟩ := hagree .simple
  obtain ⟨S, hS, w, hw, _, hsimple⟩ := rule3_exact hc (by decide) hf
  cases hS₃.symm.trans hS
  obtain ⟨S', hS', hstart⟩ := tspSolver_spec (by decide) hc hf .rule2
  cases hS₂.symm.trans hS'
  -- rule 3 returns the optimum
  have hvw : v = w := by
    obtain ⟨st, hr, hend, sol, s, rfl, hval, _⟩ := hv₃.exists_end
    obtain ⟨sol', s', heq, hval', _⟩ := hsimple.ends hr hend
    cases heq
    exact hval.symm.trans hval'
  have hw0 : w ≤ 0 := hw.2 ⟨zeroTour, zeroTour_isTour, rootTourData_facts.2.1⟩
  -- rule 2 returns the initial record
  have hone : S₂.initialSolution.value = 1 :=
    congrArg Solution.value (tspSolver_initial hS₂ rootTourData_facts.1 (le_trans (by decide) hf.le : 30 ≤ fuel))
  obtain ⟨st, hr, _, sol, s, rfl, hval, _⟩ := hv₂.exists_end
  rw [Entry.start_eq (hstart.rank ▸ (by decide : 3 ≤ 4)) (hone ▸ by decide), hone] at hr
  have hsol : sol.value = 1 := (rule2_stays hstart hf).reaches
    (show Stays S₂ (.search (.init S₂ 1)) from ⟨rfl, fun x hx => by cases List.mem_singleton.mp hx; rfl⟩) hr
  have hle : (1 : ValueType) ≤ 0 := hsol ▸ hval ▸ hvw ▸ hw0
  exact absurd hle (by decide)

end Optimer.Tsp
