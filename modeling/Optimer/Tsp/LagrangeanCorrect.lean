import Optimer.Bnb.Near
import Optimer.Tsp.ClassicalCorrect
import Optimer.Tsp.LagrangeanRounds

/-! `LagrangeanSolver` returns the least cost of a tour up to `epsilon` in runs that branch on no tour below
the record with the rules 1 and 3 and hand no other matrix to `MSOneTree::solve` than it can solve. -/

namespace Optimer.Stsp
open Optimer.Tsp Transition

variable {data : InitialData} {params : Parameters} {rule : BranchingRule} {node new node' : Node}
  {p : ℕ → ℕ} {r : ValueType} {sol : Solution} {fuel : ℕ} {S : Solver Node} {c : Container}

/-- The edges of a node are edges between vertices. -/
structure InRange (n : ℕ) (node : Node) : Prop where
  included : Within n node.includedEdges
  relaxation : Within n node.data.relaxation

/-- A tour of a node that the relaxation of the node bounds. -/
structure Holds (data : InitialData) (node : Node) (p : ℕ → ℕ) : Prop where
  mem : p ∈ node.tours data.rank
  distinct : Distinct node.includedEdges
  relaxed : Relaxed data.rank node.data.relaxation
  value_le : node.data.value ≤ cost data.rank data.matrix p

namespace Transformed

variable (T : Transformed data params new r node')

include T

theorem inRange (hin : Within data.rank new.includedEdges) : InRange data.rank node' := by
  refine ⟨?_, T.within⟩
  obtain ⟨sol, rfl⟩ := T.solved
  rwa [Node.includedEdges_solved]

theorem holds (hp : p ∈ new.tours data.rank) (hdist : Distinct new.includedEdges)
    (hlt : cost data.rank data.matrix p + params.epsilon < r) : Holds data node' p := by
  obtain ⟨hrelaxed, hle⟩ := T.bound p hp hlt hdist
  refine ⟨?_, ?_, hrelaxed, hle⟩ <;> obtain ⟨sol, rfl⟩ := T.solved
  · rwa [Node.tours_solved]
  · rwa [Node.includedEdges_solved]

end Transformed

/-- The calls that a loop of `branch` makes. -/
abbrev TransformCalls (data : InitialData) (params : Parameters) (r : ValueType) (sol : Solution) :
    List Node → Node → ValueType → Prop :=
  Calls (transformNode MSOneTree.solve data.rank data.matrix params) params.epsilon
    { record := r, sol, nodes := [], released := [] }

/-- A node that is branched on is no tour, unless rule 2 is used, and all its calls of `transform_node` are
usable. -/
structure Sound (data : InitialData) (params : Parameters) (rule : BranchingRule) (node : Node)
    (r : ValueType) : Prop where
  noTour : node.data.value + params.epsilon < r → rule ≠ .rule2 →
    buildTour node.data.relaxation = some []
  usable : node.data.value + params.epsilon < r →
    ∀ news, rule.nodes data.rank data.matrix node = some news →
      ∀ sol new r', TransformCalls data params r sol news new r' → Usable data params new r'

/-! ### Searches -/

/-- What `init`, `get_initial_node` and `get_initial_solution` set up. -/
structure Started (data : InitialData) (params : Parameters) (rule : BranchingRule) (fuel : ℕ)
    (S : Solver Node) : Prop where
  rank : S.rank = data.rank
  greedy : getGreedySolution fuel data.matrix data.rank = some S.initialSolution
  sol : Proper data.rank data.matrix S.initialSolution
  root : transformNode MSOneTree.solve data.rank data.matrix params (.root {}) S.initialSolution.value =
    some S.initialNode
  branch : ∀ node r sol, S.branch node r sol =
    (branch MSOneTree.solve data params rule node r sol).getD
      { record := r, sol, nodes := [node], released := [] }

theorem Started.start_eq (h : Started data params rule fuel S) (hn : 3 ≤ data.rank) (hc : Costs data) :
    serialStart S mVal = .search (.init S S.initialSolution.value) :=
  serialStart_eq (h.rank ▸ hn) (h.sol.lt hc (Nat.le_of_succ_le hn))

section Search

variable (hn : 3 ≤ data.rank) (hsymm : SymmetricOn data.rank data.matrix) (hc : Costs data)
  (hiter : 1 ≤ params.gradientMaxIters) (heps : 0 ≤ params.epsilon)

include hn hsymm

include hiter in
theorem transformNode_root (r : ValueType) :
    ∃ m, transformNode MSOneTree.solve data.rank data.matrix params (.root {}) r = some m := by
  have hroot : ∃ m, nodeMatrix data.rank data.matrix (.root {}) = some m ∧ _ :=
    nodeMatrix_spec .nil (fun _ _ => Nat.zero_le 2) (Nat.le_of_succ_le hn) hsymm
  obtain ⟨m, hm, _⟩ := hroot
  obtain ⟨s, k, _, _, hsol, _⟩ := LagrangeanRelaxation.solve_rounds hiter
  exact ⟨_, Option.bind_eq_some_iff.mpr ⟨_, hm, Option.bind_eq_some_iff.mpr ⟨_, hsol, rfl⟩⟩⟩

include hc hiter

theorem lagrangeanSolver_spec (hf : (data.rank + 1).factorial < fuel) (rule : BranchingRule) :
    ∃ S, lagrangeanSolver MSOneTree.solve data params fuel rule = some S ∧
      Started data params rule fuel S := by
  obtain ⟨sol, hsol, hproper⟩ := getGreedySolution_spec hc (Nat.le_of_succ_le hn) hf
  obtain ⟨m, hm⟩ := transformNode_root hn hsymm hiter sol.value
  exact ⟨_, Option.bind_eq_some_iff.mpr ⟨sol, hsol, Option.bind_eq_some_iff.mpr ⟨m, hm, rfl⟩⟩,
    rfl, hsol, hproper, hm, fun _ _ _ => rfl⟩

theorem started (hf : (data.rank + 1).factorial < fuel)
    (hS : lagrangeanSolver MSOneTree.solve data params fuel rule = some S) :
    Started data params rule fuel S := by
  obtain ⟨S', hS', h⟩ := lagrangeanSolver_spec hn hsymm hc hiter hf rule
  exact Option.some.inj (hS'.symm.trans hS) ▸ h

include heps

omit hiter in
/-- A sound call of `branch` keeps the tours that are below the record by more than `epsilon`. -/
theorem Started.keeps (h : Started data params rule fuel S) (hnode : InRange data.rank node)
    (hs : Sound data params rule node r) (sol : Solution) :
    S.Keeps (cost data.rank data.matrix) {p | IsTour data.rank p} (Holds data) (InRange data.rank)
      params.epsilon node r sol := by
  by_cases hle : node.data.value + params.epsilon ≥ r
  · have hb : S.branch node r sol = { record := r, sol, nodes := [], released := [] } := by
      rw [h.branch, Stsp.branch, if_pos hle]
      rfl
    refine ⟨by rw [hb], .inl (by rw [hb]), fun p _ hp hlt => ?_, fun m hm => ?_⟩
    · rw [hb] at hlt
      exact absurd (add_le_add_left hp.value_le _) (not_le.mpr (hlt.trans_le hle))
    · rw [hb] at hm
      exact absurd hm List.not_mem_nil
  have hlt := not_le.mp hle
  cases hrun : Stsp.branch MSOneTree.solve data params rule node r sol with
  | none =>
    have hb : S.branch node r sol = { record := r, sol, nodes := [node], released := [] } := by
      rw [h.branch, hrun]
      rfl
    refine ⟨by rw [hb], .inl (by rw [hb]), fun p _ hp _ => ⟨node, ?_, hp⟩, fun m hm => ?_⟩
    · rw [hb]
      exact List.mem_singleton_self node
    · rw [hb] at hm
      exact List.mem_singleton.mp hm ▸ hnode
  | some b =>
    have hb : S.branch node r sol = b := by
      rw [h.branch, hrun]
      rfl
    rw [Stsp.branch, if_neg hle] at hrun
    obtain ⟨news, hnews, hrun⟩ := Option.bind_eq_some_iff.mp hrun
    have hproc := branchChildren_processed heps hrun
    have hnew : ∀ new ∈ news, Within data.rank new.includedEdges := by
      intro new hnew
      obtain ⟨included, _, rfl, hcut⟩ := BranchingRule.nodes_cut hnews hnew
      exact fun e he => (List.mem_append.mp he).elim (fun he => hnode.relaxation e (hcut.mem he))
        (hnode.included e)
    have hspec : ∀ {new r' m}, new ∈ news → TransformCalls data params r sol news new r' →
        transformNode MSOneTree.solve data.rank data.matrix params new r' = some m →
          Transformed data params new r' m := fun hmem hcall hm =>
      transformNode_spec hn hsymm hc heps (hnew _ hmem) (hs.usable hlt news hnews sol _ _ hcall) hm
    rw [← hb] at hproc
    refine ⟨hproc.le, ?_, fun p hp hhold hlow => ?_, fun m hm => ?_⟩
    · refine hproc.record.imp_right fun ⟨new, hmem, r', _, hcall, m, hm, _, heq, route, hroute, hne⟩ => ?_
      obtain ⟨q, hq, hle⟩ := (hspec hmem hcall hm).tour route hroute hne
      exact ⟨q, hq, hle.trans_eq heq⟩
    · obtain ⟨new, hmem, hfit, hdist⟩ := BranchingRule.keeps hhold.relaxed hn hhold.mem hhold.distinct
        (hs.noTour hlt) (fun e he => lt_of_lt_of_le (by norm_num)
          (hc.nonneg' (hnode.relaxation e he).1 (hnode.relaxation e he).2)) hnews
      obtain ⟨r', _, hle, hcall, m, hm, hopen⟩ := hproc.covered new hmem
      have hholds := (hspec hmem hcall hm).holds hfit hdist (hlow.trans_le hle)
      refine ⟨m, hopen.resolve_right fun hle => ?_, hholds⟩
      exact absurd (hle.trans (add_le_add_left hholds.value_le _)) (not_le.mpr hlow)
    · obtain ⟨new, hmem, r', _, hcall, hrun, _⟩ := (hproc.nodes m hm).resolve_left List.not_mem_nil
      exact (hspec hmem hcall hrun).inRange (hnew new hmem)

/-- The calls of `transform_node` for the root and in the loops of `branch` are usable, and no node that is
branched on is a tour, unless rule 2 is used. -/
def SoundRuns (data : InitialData) (params : Parameters) (rule : BranchingRule) (S : Solver Node)
    (c : Container) : Prop :=
  Usable data params (.root {}) S.initialSolution.value ∧
    ∀ node r, Search.Takes S c (serialStart S mVal) node r → Sound data params rule node r

omit hiter in
theorem Started.near (h : Started data params rule fuel S) (hs : SoundRuns data params rule S c)
    {s : Search Node} (hr : Reaches (Search.Step S c) (serialStart S mVal) (.returned sol s)) :
    (∃ p, IsTour data.rank p ∧ cost data.rank data.matrix p ≤ sol.value) ∧
      ∀ p, IsTour data.rank p → sol.value ≤ cost data.rank data.matrix p + params.epsilon := by
  obtain ⟨hroot, htakes⟩ := hs
  have hnil : Within data.rank (Node.root {}).includedEdges := fun _ h => absurd h List.not_mem_nil
  have T := transformNode_spec hn hsymm hc heps hnil hroot h.root
  refine Search.near_correct (P := InRange data.rank) ?_ (fun node r htake hnode sol =>
    h.keeps hn hsymm hc heps hnode (htakes node r htake) sol) hr
  rw [h.start_eq hn hc]
  obtain ⟨q, hq, hqv⟩ := h.sol.exists_tour
  refine ⟨rfl, ⟨q, hq, hqv.le⟩, fun p hp hlt => ?_, fun m hm => ?_⟩
  · exact ⟨_, List.mem_singleton_self _, T.holds (Node.mem_tours_root.mpr hp) .nil hlt⟩
  · exact List.mem_singleton.mp hm ▸ T.inRange hnil

end Search

/-- A run of the search that ends returns the least cost of a tour up to `epsilon`, if its calls are
sound. -/
theorem serial_lagrangean_near (data : InitialData) (params : Parameters) (rule : BranchingRule)
    (hn : 3 ≤ data.rank) (hsymm : SymmetricOn data.rank data.matrix) (hc : Costs data)
    (heps : 0 ≤ params.epsilon) (hiter : 1 ≤ params.gradientMaxIters) :
    ∃ fuel₀, ∀ fuel > fuel₀, ∃ S, lagrangeanSolver MSOneTree.solve data params fuel rule = some S ∧
      ∃ v, IsOptimum data.rank data.matrix v ∧ ∀ c, SoundRuns data params rule S c →
        ∀ sol s, Reaches (Search.Step S c) (serialStart S mVal) (.returned sol s) →
          v ≤ sol.value ∧ sol.value ≤ v + params.epsilon := by
  refine ⟨(data.rank + 1).factorial, fun fuel hf => ?_⟩
  obtain ⟨S, hS, h⟩ := lagrangeanSolver_spec hn hsymm hc hiter hf rule
  obtain ⟨v, hv⟩ := exists_optimum data.rank data.matrix
  refine ⟨S, hS, v, hv, fun c hs sol s hr => ?_⟩
  obtain ⟨⟨p, hp, hle⟩, hnear⟩ := h.near hn hsymm hc heps hs hr
  obtain ⟨⟨q, hq, rfl⟩, hleast⟩ := hv
  exact ⟨(hleast ⟨p, hp, rfl⟩).trans hle, hnear q hq⟩

theorem Calls.mem {transform : Node → ValueType → Option Node} {eps : ValueType} {b : Branched Node}
    {news : List Node} (h : Calls transform eps b news new r) : new ∈ news := by
  induction h with
  | head => exact List.mem_cons_self
  | tail _ _ ih => exact List.mem_cons_of_mem _ ih

/-- With one round only the matrix of the node is handed over. -/
theorem usable_of_one (hone : params.gradientMaxIters = 1)
    (hm : ∀ m, nodeMatrix data.rank data.matrix new = some m →
      (∀ i < data.rank, ∀ j < data.rank, m i j < MSOneTree.maxVal) ∧ Solvable data.rank m)
    (r : ValueType) : Usable data params new r := by
  have hstart : ∀ s, Handed data params new r s →
      ∃ m, nodeMatrix data.rank data.matrix new = some m ∧ s.matrix = m := by
    rintro s ⟨m, hm, hlt, hs⟩
    cases hs with
    | start => exact ⟨m, hm, rfl⟩
    | next _ _ hb =>
      rcases LagrangeanRelaxation.body_cases with ⟨_, hb', _⟩ | ⟨_, _, hb'⟩ <;> rw [hb'] at hb
      · exact nomatch hb
      · obtain rfl := Sum.inl.inj hb
        rw [hone] at hlt
        exact absurd hlt (by simp [LagrangeanRelaxation.nextState])
  refine ⟨fun s hs => ?_, fun _ s hs => ?_⟩ <;> obtain ⟨m, hnode, rfl⟩ := hstart s hs
  exacts [(hm _ hnode).1, (hm _ hnode).2]

/-- The checks of `usable_of_one`, for a list of nodes. -/
def checkNodes (data : InitialData) (news : List Node) : Bool :=
  news.all fun new => match nodeMatrix data.rank data.matrix new with
    | none => true
    | some m => decide (∀ i < data.rank, ∀ j < data.rank, m i j < MSOneTree.maxVal) &&
        decide (Solvable data.rank m)

theorem usable_of_check (hone : params.gradientMaxIters = 1) {news : List Node}
    (h : checkNodes data news = true) (hnew : new ∈ news) (r : ValueType) : Usable data params new r := by
  refine usable_of_one hone (fun m hm => ?_) r
  have hcheck := List.all_eq_true.mp h new hnew
  simpa only [hm, Bool.and_eq_true, decide_eq_true_eq] using hcheck

/-- One round for each node, and no tolerance. -/
def oneRound : Parameters := { gradientMaxIters := 1 }

/-- The root of a search with one round. -/
def rootOf (data : InitialData) (r : ValueType) : Option Node :=
  transformNode MSOneTree.solve data.rank data.matrix oneRound (.root {}) r

theorem Started.branch_root {v : ValueType} (h : Started data oneRound rule fuel S)
    (hinit : S.initialSolution.value = r)
    (hb : ((rootOf data r).bind fun node => (Stsp.branch MSOneTree.solve data oneRound rule node r {}).map
      fun b => (b.record, b.nodes.length)) = some (v, 0)) :
    (S.branch S.initialNode r {}).record = v ∧ (S.branch S.initialNode r {}).nodes = [] := by
  obtain ⟨node, hnode, hb⟩ := Option.bind_eq_some_iff.mp hb
  have hroot := h.root
  rw [hinit] at hroot
  obtain rfl := Option.some.inj (hnode.symm.trans hroot)
  obtain ⟨b, hb, heq⟩ := Option.map_eq_some_iff.mp hb
  rw [h.branch, hb]
  exact ⟨congrArg Prod.fst heq, List.eq_nil_of_length_eq_zero (congrArg Prod.snd heq)⟩

theorem near_facts : ((rootOf ClassicalSolver.nearTourData 2).bind fun node =>
      (branch MSOneTree.solve ClassicalSolver.nearTourData oneRound .rule1 node 2 {}).map
        fun b => (b.record, b.nodes.length)) = some (1, 0) ∧
    checkNodes ClassicalSolver.nearTourData [.root {}] = true ∧
    (rootOf ClassicalSolver.nearTourData 2).all (fun node =>
      decide (buildTour node.data.relaxation = some []) &&
      checkNodes ClassicalSolver.nearTourData (branchingRule1 5 node)) = true := by
  decide +kernel

theorem serial_lagrangean_near_five : ∃ fuel₀, ∀ fuel > fuel₀, ∃ S,
    lagrangeanSolver MSOneTree.solve ClassicalSolver.nearTourData oneRound fuel .rule1 = some S ∧
      ∃ v, IsOptimum 5 ClassicalSolver.nearTourData.matrix v ∧ ∀ c sol s,
        Reaches (Search.Step S c) (serialStart S mVal) (.returned sol s) →
          v ≤ sol.value ∧ sol.value ≤ v + 0 := by
  have hn : 3 ≤ ClassicalSolver.nearTourData.rank := by decide
  have hc := ClassicalSolver.nearTourData_costs
  obtain ⟨hsymm, _, hgreedy, _⟩ := ClassicalSolver.nearTourData_facts
  obtain ⟨hbranch, hroot, hnode⟩ := near_facts
  obtain ⟨fuel₀, h⟩ := serial_lagrangean_near ClassicalSolver.nearTourData oneRound .rule1 hn hsymm hc
    le_rfl le_rfl
  refine ⟨max fuel₀ (6).factorial, fun fuel hf => ?_⟩
  obtain ⟨S, hS, v, hv, hsearch⟩ := h fuel (by omega)
  have hstart := started hn hsymm hc le_rfl (show (6).factorial < fuel by omega) hS
  have hinit : S.initialSolution.value = 2 := getGreedySolution_value hstart.greedy
    hgreedy ((show 30 ≤ (6).factorial by decide).trans (by omega))
  have hrootOf : rootOf ClassicalSolver.nearTourData 2 = some S.initialNode := hinit ▸ hstart.root
  rw [hrootOf, Option.all_some, Bool.and_eq_true, decide_eq_true_eq] at hnode
  refine ⟨S, hS, v, hv, fun c sol s => hsearch c ⟨?_, fun node r htake => ?_⟩ sol s⟩
  · exact usable_of_check rfl hroot (List.mem_singleton_self _) _
  · rw [hstart.start_eq hn hc, hinit] at htake
    obtain ⟨rfl, rfl⟩ := htake.eq_root (hstart.branch_root hinit hbranch)
    refine ⟨fun _ _ => hnode.1, fun _ news hnews sol new r' hcall => ?_⟩
    obtain rfl := Option.some.inj hnews
    exact usable_of_check rfl hnode.2 hcall.mem r'

theorem lost_root : ∀ rule ∈ [BranchingRule.rule1, .rule3],
    ((rootOf ClassicalSolver.lostTourData 3).bind fun node =>
      (branch MSOneTree.solve ClassicalSolver.lostTourData oneRound rule node 3 {}).map
        fun b => (b.record, b.nodes.length)) = some (3, 0) := by
  decide +kernel

/-- With the rules 1 and 3 the search returns `3` where there is a tour of cost `2`. -/
theorem lagrangean_loses_root : 3 ≤ ClassicalSolver.lostTourData.rank ∧
    SymmetricOn ClassicalSolver.lostTourData.rank ClassicalSolver.lostTourData.matrix ∧
    Costs ClassicalSolver.lostTourData ∧ ∀ rule ∈ [BranchingRule.rule1, .rule3],
      ¬ ∃ fuel₀, ∀ fuel > fuel₀, ∃ S,
        lagrangeanSolver MSOneTree.solve ClassicalSolver.lostTourData oneRound fuel rule = some S ∧
          ∃ v, IsOptimum ClassicalSolver.lostTourData.rank ClassicalSolver.lostTourData.matrix v ∧
            ∀ c sol s, Reaches (Search.Step S c) (serialStart S mVal) (.returned sol s) →
              v ≤ sol.value ∧ sol.value ≤ v + oneRound.epsilon := by
  have hn : 3 ≤ ClassicalSolver.lostTourData.rank := by decide
  have hc := ClassicalSolver.lostTourData_costs
  obtain ⟨hsymm, _, hgreedy, _⟩ := ClassicalSolver.lostTourData_facts
  refine ⟨hn, hsymm, hc, fun rule hrule => ?_⟩
  rintro ⟨fuel₀, h⟩
  obtain ⟨S, hS, v, hv, hends⟩ := h (max fuel₀ (9).factorial + 1) (by omega)
  have hf : (9).factorial < max fuel₀ (9).factorial + 1 := by omega
  generalize max fuel₀ (9).factorial + 1 = fuel at hS hf
  have hstart := started hn hsymm hc le_rfl hf hS
  have hinit : S.initialSolution.value = 3 := getGreedySolution_value hstart.greedy
    hgreedy (le_trans (by decide) hf.le)
  obtain ⟨sol, s, hr, hthree⟩ := Search.single_returns
    (hstart.branch_root hinit (lost_root rule hrule)) .lifo
  rw [← hinit, ← hstart.start_eq hn hc] at hr
  have hle := (hends .lifo sol s hr).2
  obtain ⟨p, hp, hcost⟩ := ClassicalSolver.lostTourData_tour
  have htwo : v ≤ 2 := hcost ▸ hv.2 ⟨p, hp, rfl⟩
  have hle : (3 : ValueType) ≤ 2 + 0 := hthree ▸ hle.trans (add_le_add_left htwo _)
  exact absurd hle (by norm_num)

end Optimer.Stsp
