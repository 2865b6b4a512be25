import Optimer.Bnb.NearMemory
import Optimer.Tsp.LagrangeanCorrect

/-! `LagrangeanSolver` under `SerialBNB` and `ParallelBNB`, on the nodes of their reference counted trees. -/

namespace Optimer.Stsp
open Optimer.Tsp Transition

variable {data : InitialData} {params : Parameters} {rule : BranchingRule} {node : Node} {fuel : ℕ} {S : Solver Node}
  {r v : ValueType}

/-- `Set::clear` keeps the value. -/
instance : SetData TspSet where
  default := {}
  clear set := { value := set.value }

/-- The data of a node and of its ancestors, as they lie in the tree. -/
def Node.path : Node → List TspSet
  | .root data => [data]
  | .child parent data => data :: parent.path

namespace Node

theorem path_ne_nil (node : Node) : node.path ≠ [] := by
  cases node <;> exact List.cons_ne_nil _ _

theorem path_injective : Function.Injective path := by
  intro m n h
  induction m generalizing n with
  | root d =>
    cases n with
    | root e =>
      obtain rfl := List.singleton_inj.mp h
      rfl
    | child parent e => exact absurd (List.cons.inj h).2.symm parent.path_ne_nil
  | child parent d ih =>
    cases n with
    | root e => exact absurd (List.cons.inj h).2 parent.path_ne_nil
    | child parent' e =>
      obtain ⟨rfl, hpath⟩ := List.cons.inj h
      rw [ih hpath]

end Node

/-- All calls of `transform_node` that `SerialBNB` makes are usable, and no node that it branches on is a tour, unless
rule 2 is used. -/
structure SerialSound (data : InitialData) (params : Parameters) (rule : BranchingRule) (S : Solver Node)
    (record : ValueType) (c : Container) : Prop where
  root : Usable data params (.root {}) S.initialSolution.value
  calls : ∀ st node r, Reaches (MemSearch.Interruptible S Node.path c)
    (MemSearch.start S S.initialNode.data record) st →
    MemSearch.Calls S Node.path c st node r → Sound data params rule node r

/-- The same for `ParallelBNB`, in any interleaving. -/
structure ParallelSound (data : InitialData) (params : Parameters) (rule : BranchingRule) (S : Solver Node)
    (record : ValueType) (c : Container) (sch : Scheduler) : Prop where
  root : Usable data params (.root {}) S.initialSolution.value
  calls : ∀ st node r, Reaches (Parallel.MemUninterrupted S Node.path sch c)
      (Parallel.memStart S sch S.initialNode.data record) st →
    Parallel.Calls S Node.path sch c st node r → Sound data params rule node r

section Search

variable (hn : 3 ≤ data.rank) (hsymm : SymmetricOn data.rank data.matrix) (hc : Costs data)
  (heps : 0 ≤ params.epsilon) (h : Started data params rule fuel S)
  (hroot : Usable data params (.root {}) S.initialSolution.value)

include hn hsymm hc heps h hroot

theorem Started.transformed : Transformed data params (.root {}) S.initialSolution.value S.initialNode :=
  transformNode_spec hn hsymm hc heps (fun _ he => absurd he List.not_mem_nil) hroot h.root

theorem Started.path_root : S.initialNode.path = [S.initialNode.data] := by
  obtain ⟨sol, heq⟩ := (h.transformed hn hsymm hc heps hroot).solved
  rw [heq]
  rfl

theorem Started.inRange_root : InRange data.rank S.initialNode :=
  (h.transformed hn hsymm hc heps hroot).inRange fun _ he => absurd he List.not_mem_nil

/-- The root holds the tours that are below the record by more than the tolerance. -/
theorem Started.holds_root {record : ValueType} {p : ℕ → ℕ} (hp : IsTour data.rank p)
    (hlt : cost data.rank data.matrix p + params.epsilon < min record S.initialSolution.value) :
    Holds data S.initialNode p :=
  (h.transformed hn hsymm hc heps hroot).holds (Node.mem_tours_root.mpr hp) .nil (hlt.trans_le (min_le_right ..))

end Search

/-- A value that such a search reports is not below the least cost or the record at the start. -/
theorem Started.min_le (h : Started data params rule fuel S) {record w : ValueType}
    (hv : IsOptimum data.rank data.matrix v)
    (hw : NearAttained (cost data.rank data.matrix) {p | IsTour data.rank p} (min record S.initialSolution.value) w) :
    min record v ≤ w ∧ w ≤ record := by
  refine ⟨?_, hw.2.trans (min_le_left ..)⟩
  rcases hw.1 with heq | ⟨p, hp, hle⟩
  · obtain ⟨q, hq, hqv⟩ := h.sol.exists_tour
    rw [heq]
    exact min_le_min_left record ((hv.2 ⟨q, hq, rfl⟩).trans hqv.le)
  · exact (min_le_right record v).trans ((hv.2 ⟨p, hp, rfl⟩).trans hle)

/-- `optimer-stsp`: what `SerialBNB` with either container and `ParallelBNB` with either scheduler, in any
interleaving, return is between the least cost of a tour and `epsilon` above it, or the record they are given where
that is less, and they leave no node behind, in runs whose calls are sound. `SerialBNB` may also be stopped by a
signal; what it returns then is no less. -/
theorem memory_lagrangean_near (data : InitialData) (params : Parameters) (rule : BranchingRule) (hn : 3 ≤ data.rank)
    (hsymm : SymmetricOn data.rank data.matrix) (hc : Costs data) (heps : 0 ≤ params.epsilon)
    (hiter : 1 ≤ params.gradientMaxIters) :
    ∃ v, IsOptimum data.rank data.matrix v ∧ ∃ fuel₀, ∀ fuel > fuel₀, ∃ S,
      lagrangeanSolver MSOneTree.solve data params fuel rule = some S ∧ ∀ record c,
        (SerialSound data params rule S record c → ∀ sol s,
          Reaches (MemSearch.Interruptible S Node.path c) (MemSearch.start S S.initialNode.data record)
              (.returned sol s) →
            min record v ≤ sol.value ∧ sol.value ≤ record ∧
              (s.interrupted = false → sol.value ≤ v + params.epsilon) ∧ s.run.live = ∅ ∧
              s.run.tree.numUnfreedNodes = 0) ∧
        ∀ sch : Scheduler, 1 ≤ sch.numMinimumNodes.toNat → ParallelSound data params rule S record c sch →
          ∀ st sol, Reaches (Parallel.MemUninterrupted S Node.path sch c)
              (Parallel.memStart S sch S.initialNode.data record) st → st.state.main = .returned sol →
            min record v ≤ sol.value ∧ sol.value ≤ record ∧ sol.value ≤ v + params.epsilon ∧
              st.tree.live = ∅ ∧ st.tree.tree.numUnfreedNodes = 0 := by
  obtain ⟨v, hv⟩ := exists_optimum data.rank data.matrix
  refine ⟨v, hv, (data.rank + 1).factorial, fun fuel hf => ?_⟩
  obtain ⟨S, hS, h⟩ := lagrangeanSolver_spec hn hsymm hc hiter hf rule
  have hrank : S.rank > minRankValue := h.rank ▸ hn
  obtain ⟨p, hp, hpv⟩ := hv.1
  refine ⟨S, hS, fun record c => ⟨fun hsound sol s hr => ?_, fun sch hmin hsound st sol hr hm => ?_⟩⟩
  · obtain ⟨hattained, hnear, hlive, hunfreed⟩ := MemSearch.memory_near Node.path_injective hrank
      (h.path_root hn hsymm hc heps hsound.root) record (h.inRange_root hn hsymm hc heps hsound.root)
      (fun p hp hlt => h.holds_root hn hsymm hc heps hsound.root hp hlt)
      (fun st node r hr hcall hnode => h.keeps hn hsymm hc heps hnode (hsound.calls st node r hr hcall)) hr
    obtain ⟨hle, hrecord⟩ := h.min_le hv hattained
    exact ⟨hle, hrecord, fun hi => hpv ▸ hnear hi p hp, hlive, hunfreed⟩
  · obtain ⟨hattained, hnear, _, hlive, hunfreed⟩ := Parallel.memory_near Node.path_injective hrank hmin
      (h.path_root hn hsymm hc heps hsound.root) record (h.inRange_root hn hsymm hc heps hsound.root)
      (fun p hp hlt => h.holds_root hn hsymm hc heps hsound.root hp hlt)
      (fun st node r hr hcall hnode => h.keeps hn hsymm hc heps hnode (hsound.calls st node r hr hcall)) hr hm
    obtain ⟨hle, hrecord⟩ := h.min_le hv hattained
    exact ⟨hle, hrecord, hpv ▸ hnear p hp, hlive, hunfreed⟩

/-- Five vertices, two threads: the one call on the root finds the tour. -/
theorem memory_lagrangean_near_five : ∃ v, IsOptimum 5 ClassicalSolver.nearTourData.matrix v ∧ ∃ fuel S,
    lagrangeanSolver MSOneTree.solve ClassicalSolver.nearTourData oneRound fuel .rule1 = some S ∧
      ∀ st sol, Reaches (Parallel.MemUninterrupted S Node.path (.giving ⟨2, 1, 3⟩) .lifo)
          (Parallel.memStart S (.giving ⟨2, 1, 3⟩) S.initialNode.data mVal) st → st.state.main = .returned sol →
        min mVal v ≤ sol.value ∧ sol.value ≤ v + 0 ∧ st.tree.live = ∅ := by
  have hn : 3 ≤ ClassicalSolver.nearTourData.rank := by decide
  have hc := ClassicalSolver.nearTourData_costs
  obtain ⟨hsymm, _, hgreedy, _⟩ := ClassicalSolver.nearTourData_facts
  obtain ⟨hbranch, hroot, hnode⟩ := near_facts
  obtain ⟨v, hv, fuel₀, h⟩ :=
    memory_lagrangean_near ClassicalSolver.nearTourData oneRound .rule1 hn hsymm hc le_rfl le_rfl
  have hf : (6).factorial < max fuel₀ (6).factorial + 1 := by omega
  obtain ⟨S, hS, hruns⟩ := h (max fuel₀ (6).factorial + 1) (by omega)
  have hstart := started hn hsymm hc le_rfl hf hS
  have hinit : S.initialSolution.value = 2 := getGreedySolution_value hstart.greedy
    hgreedy ((show 30 ≤ (6).factorial by decide).trans hf.le)
  have hrootOf : rootOf ClassicalSolver.nearTourData 2 = some S.initialNode := hinit ▸ hstart.root
  rw [hrootOf, Option.all_some, Bool.and_eq_true, decide_eq_true_eq] at hnode
  have husable : Usable ClassicalSolver.nearTourData oneRound (.root {}) S.initialSolution.value :=
    usable_of_check rfl hroot (List.mem_singleton_self _) _
  have hlt : mVal > 2 := by decide +kernel
  have hfirst : (Parallel.firstStart S mVal).record = 2 := by
    simp only [Parallel.firstStart, hinit, if_pos hlt]
  refine ⟨v, hv, _, S, hS, fun st sol hr hm => ?_⟩
  have hsound : ParallelSound ClassicalSolver.nearTourData oneRound .rule1 S mVal .lifo (.giving ⟨2, 1, 3⟩) := by
    refine ⟨husable, fun ms node r hr hcall => ?_⟩
    obtain ⟨rfl, rfl⟩ := Parallel.calls_of_single Node.path_injective (hstart.rank ▸ hn) (by decide)
      (hstart.path_root hn hsymm hc le_rfl husable) (by decide) (hfirst.symm ▸ (hstart.branch_root hinit hbranch).2)
      hr hcall
    rw [hfirst]
    refine ⟨fun _ _ => hnode.1, fun _ news hnews sol new r' hcall => ?_⟩
    obtain rfl := Option.some.inj hnews
    exact usable_of_check rfl hnode.2 hcall.mem r'
  obtain ⟨hle, _, hnear, hlive, _⟩ := (hruns mVal .lifo).2 (.giving ⟨2, 1, 3⟩) (by decide) hsound st sol hr hm
  exact ⟨hle, hnear, hlive⟩

end Optimer.Stsp
