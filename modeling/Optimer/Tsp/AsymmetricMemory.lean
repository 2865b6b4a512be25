import Optimer.Bnb.GuardedMemory
import Optimer.Tsp.RuleAgreement

/-! `TspSolver` under `SerialBNB` and `ParallelBNB`, on the nodes of their reference counted trees. -/

namespace Optimer.Tsp
open Transition

variable {data : InitialData} {node m : Node} {news : List Node} {rule : BranchingRule} {fuel : ℕ} {S : Solver Node}
  {r v w : ValueType} {sol : Solution}

/-- `Set::clear` keeps the value. -/
instance : SetData TspSet where
  default := {}
  clear set := { value := set.value }

/-- The data of a node and of its ancestors, as they lie in the tree. -/
def Node.path : Node → List TspSet
  | .root data => [data]
  | .child parent data => data :: parent.path

namespace Node

theorem path_ne_nil (node : Node) : node.path ≠ [] := by
  cases node <;> exact List.cons_ne_nil _ _

theorem path_injective : Function.Injective path := by
  intro m n h
  induction m generalizing n with
  | root d =>
    cases n with
    | root e =>
      obtain rfl := List.singleton_inj.mp h
      rfl
    | child parent e => exact absurd (List.cons.inj h).2.symm parent.path_ne_nil
  | child parent d ih =>
    cases n with
    | root e => exact absurd (List.cons.inj h).2 parent.path_ne_nil
    | child parent' e =>
      obtain ⟨rfl, hpath⟩ := List.cons.inj h
      rw [ih hpath]

theorem path_root {m : Node} (h : m.parent? = none) : m.path = [m.data] := by
  cases m with
  | root d => rfl
  | child parent d => cases h

theorem path_child {m : Node} (h : m.parent? = some node) : m.path = m.data :: node.path := by
  cases m with
  | root d => cases h
  | child parent d =>
    obtain rfl := Option.some.inj h
    rfl

end Node

/-- The nodes that an exact call of `branch` returns lie below its own. -/
theorem Exact.child {P : Node → Prop} {b : Branched Node} (h : Exact data P node r b) (hm : m ∈ b.nodes) :
    P m ∧ m.parent? = some node := by
  cases h with
  | drop _ _ hnil => exact absurd hm (hnil ▸ List.not_mem_nil)
  | done _ _ hnil => exact absurd hm (hnil ▸ List.not_mem_nil)
  | split hsplit hchild _ hproc =>
    obtain ⟨new, hnew, hcomp, hopen⟩ := (hproc.nodes m hm).resolve_left List.not_mem_nil
    exact ⟨hchild new hnew m hcomp ⟨hcomp.solved, fun _ _ => hopen⟩, hcomp.parent?.trans (hsplit.parent new hnew)⟩

/-- The rules that can branch on every node. -/
def BranchingRule.Free : BranchingRule → Prop
  | .rule1 | .rule3 | .rule5 => True
  | .rule2 | .rule4 => False

theorem BranchingRule.Free.safe (h : rule.Free) (fuel : ℕ) (data : InitialData) (node : Node) :
    rule.Safe fuel data node := by
  cases rule with
  | rule1 | rule3 | rule5 => trivial
  | rule2 | rule4 => exact h.elim

namespace Started

variable (h : Started fuel data rule S) (hn : 3 ≤ data.rank) (hc : Costs data) (hf : rounds data.rank < fuel)

include h hn hc hf

/-- The nodes that a guarded call returns are children of its own. -/
theorem guarded_child (hnode : rule.Valid data node)
    (hm : m ∈ ((S.guarded (Good fuel data rule) v).branch node r sol).nodes) :
    rule.Valid data m ∧ m.parent? = some node := by
  by_cases hgood : Good fuel data rule node r
  · rw [Solver.guarded_branch hgood] at hm
    rcases hgood with hle | ⟨hval, hsafe⟩
    · rw [h.branch_of_le r sol hle] at hm
      exact absurd hm List.not_mem_nil
    · exact (h.exact_safe hn hc hf hnode hval hsafe r sol).child hm
  · rw [show (S.guarded (Good fuel data rule) v).branch node r sol =
      { record := min r v, sol, nodes := [], released := [] } from if_neg hgood] at hm
    exact absurd hm List.not_mem_nil

theorem guarded_valid (hm : (S.guarded (Good fuel data rule) v).Explored m) : rule.Valid data m := by
  induction hm with
  | root => exact .root (root_valid h.root) h.root.includedPoints
  | child _ hm ih => exact (h.guarded_child hn hc hf ih hm).1

theorem guarded_stored : (S.guarded (Good fuel data rule) v).Stored Node.path where
  injective := Node.path_injective
  child hx _ _ m hm := ⟨m.data, Node.path_child (h.guarded_child hn hc hf (h.guarded_valid hn hc hf hx) hm).2⟩

omit hf in
/-- A call on a safe node is good. -/
theorem good_of_safe (hr : r ≤ min w S.initialSolution.value)
    (hsafe : node.data.value < r → rule.Safe fuel data node) : Good fuel data rule node r := by
  have hlt := h.sol.lt hc (Nat.le_of_succ_le hn)
  rcases le_or_gt r node.data.value with hle | hval
  · exact .inl hle
  · exact .inr ⟨(hval.trans_le (hr.trans (min_le_right ..))).trans hlt, hsafe hval⟩

end Started

/-- A search that starts from the record `r` has to return the least cost of a tour, or `r`. -/
theorem Started.optimal_min (h : Started fuel data rule S) (hv : IsOptimum data.rank data.matrix v) :
    S.Optimal (cost data.rank data.matrix) (Node.tours data) (min r S.initialSolution.value) (min r v) := by
  have hopt := h.optimal_iff.mpr hv
  have hle : v ≤ S.initialSolution.value := hopt.2 (.inl rfl)
  constructor
  · rcases le_total r v with hrv | hvr
    · rw [min_eq_left hrv, min_eq_left (hrv.trans hle)]
      exact .inl rfl
    · rw [min_eq_right hvr]
      obtain ⟨⟨p, hp, heq⟩, _⟩ := hv
      exact .inr ⟨p, h.mem_root_tours.mpr hp, heq⟩
  · intro w hw
    rcases hw with rfl | ⟨p, hp, rfl⟩
    · exact min_le_min_left r hle
    · exact (min_le_right r v).trans (hopt.2 (.inr ⟨p, hp, rfl⟩))

/-! ### The two engines -/

/-- What `SerialBNB::solve` over its tree has done at its return. -/
def SerialReturns (r v : ValueType) (st : MemState TspSet) : Prop :=
  ∃ sol s, st = .returned sol s ∧ sol.route = [] ∧ s.run.live = ∅ ∧ s.run.tree.numUnfreedNodes = 0 ∧
    min r v ≤ sol.value ∧ sol.value ≤ r ∧ (s.interrupted = false → sol.value = min r v)

/-- The nodes that `SerialBNB` branches on are safe for the rule. -/
def SerialSafe (fuel : ℕ) (data : InitialData) (rule : BranchingRule) (S : Solver Node) (record : ValueType)
    (c : Container) : Prop :=
  ∀ st node r, Reaches (MemSearch.Interruptible S Node.path c) (MemSearch.start S S.initialNode.data record) st →
    MemSearch.Calls S Node.path c st node r → node.data.value < r → rule.Safe fuel data node

/-- The nodes that `ParallelBNB` branches on, in any interleaving, are safe for the rule. -/
def ParallelSafe (fuel : ℕ) (data : InitialData) (rule : BranchingRule) (S : Solver Node) (record : ValueType)
    (c : Container) (sch : Scheduler) : Prop :=
  ∀ st node r, Reaches (Parallel.MemUninterrupted S Node.path sch c)
      (Parallel.memStart S sch S.initialNode.data record) st →
    Parallel.Calls S Node.path sch c st node r → node.data.value < r → rule.Safe fuel data node

/-- What the two engines do with a solver whose tours cost at least `v`, where they only branch on safe nodes. -/
structure Finds (fuel : ℕ) (data : InitialData) (rule : BranchingRule) (S : Solver Node) (v record : ValueType)
    (c : Container) : Prop where
  serial : SerialSafe fuel data rule S record c →
    TotallyCorrect (MemSearch.Interruptible S Node.path c) (MemSearch.start S S.initialNode.data record)
      (SerialReturns record v)
  parallel : ∀ sch : Scheduler, 1 ≤ sch.numThreads.toNat → 1 ≤ sch.numMinimumNodes.toNat →
    sch.numThreads.toNat * sch.numMinimumNodes.toNat < 2 ^ 32 → ParallelSafe fuel data rule S record c sch →
    ∀ st, Reaches (Parallel.MemUninterrupted S Node.path sch c)
        (Parallel.memStart S sch S.initialNode.data record) st →
      TotallyCorrect (Parallel.Coarse S Node.path sch c) st (Parallel.MemReturns (min record v))

theorem memory_optimal (rule : BranchingRule) (hn : 3 ≤ data.rank) (hc : Costs data)
    (hv : IsOptimum data.rank data.matrix v) (hf : rounds data.rank < fuel) :
    ∃ S, tspSolver fuel data rule = some S ∧ ∀ record c, Finds fuel data rule S v record c := by
  obtain ⟨S, hS, h⟩ := tspSolver_spec (Nat.le_of_succ_le hn) hc hf rule
  have C := h.guarded_contract hn hc hf hv
  have P : (S.guarded (Good fuel data rule) v).Stored Node.path := h.guarded_stored hn hc hf
  have hrank : S.rank > minRankValue := h.rank ▸ hn
  have hroot : S.initialNode.path = [S.initialNode.data] := Node.path_root h.root.parent?
  refine ⟨S, hS, fun record c => ⟨fun hsafe => ?_, fun sch hT hmin hprod hsafe st hr => ?_⟩⟩
  · have hopt := h.optimal_min (r := record) hv
    refine (MemSearch.guarded_correct C P hrank hroot record fun st node r hr hcall hle => ?_).mono fun st hst => ?_
    · exact h.good_of_safe hn hc hle (hsafe st node r hr hcall)
    · obtain ⟨sol, s, rfl, hroute, hlive, hunfreed, hsalvaged⟩ := hst
      refine ⟨sol, s, rfl, hroute, hlive, hunfreed, hsalvaged.optimal_le hopt, ?_, fun hs => ?_⟩
      · exact hsalvaged.le_init.trans (min_le_left ..)
      · exact (hsalvaged.optimal hs).unique hopt
  · refine Parallel.guarded_correct C P hrank hmin hprod hroot record (fun st node r hr hcall hle => ?_) hT
      (h.optimal_min hv) hr
    exact h.good_of_safe hn hc hle (hsafe st node r hr hcall)

/-- `optimer-atsp`: `SerialBNB` with either container, stopped by a signal or not, and `ParallelBNB` with either
scheduler, any interleaving of its threads and of their calls of `branch`, return the least cost of a tour, or the
record they are given where that is less, and leave no node behind. With the rules 2 and 4 that is so as long as
the nodes that are branched on are safe. -/
theorem memory_tsp_optimal (data : InitialData) (rule : BranchingRule) (hn : 3 ≤ data.rank) (hc : Costs data) :
    ∃ v, IsOptimum data.rank data.matrix v ∧ ∃ fuel₀, ∀ fuel > fuel₀, ∃ S, tspSolver fuel data rule = some S ∧
      ∀ record c, Finds fuel data rule S v record c ∧
        (rule.Free → SerialSafe fuel data rule S record c ∧ ∀ sch, ParallelSafe fuel data rule S record c sch) := by
  obtain ⟨v, hv⟩ := exists_optimum data.rank data.matrix
  refine ⟨v, hv, rounds data.rank, fun fuel hf => ?_⟩
  obtain ⟨S, hS, hfinds⟩ := memory_optimal rule hn hc hv hf
  refine ⟨S, hS, fun record c => ⟨hfinds record c, fun hfree => ⟨?_, ?_⟩⟩⟩
  · exact fun _ node _ _ _ _ => hfree.safe fuel data node
  · exact fun _ _ node _ _ _ _ => hfree.safe fuel data node

/-- Three vertices, two threads, rule 5. -/
theorem memory_tsp_optimal_unit : ∃ v, IsOptimum 3 unitData.matrix v ∧ ∃ fuel S,
    tspSolver fuel unitData .rule5 = some S ∧
    TotallyCorrect (MemSearch.Interruptible S Node.path .priority) (MemSearch.start S S.initialNode.data mVal)
      (SerialReturns mVal v) ∧
    ∀ st, Reaches (Parallel.MemUninterrupted S Node.path (.giving ⟨2, 1, 3⟩) .priority)
        (Parallel.memStart S (.giving ⟨2, 1, 3⟩) S.initialNode.data mVal) st →
      TotallyCorrect (Parallel.Coarse S Node.path (.giving ⟨2, 1, 3⟩) .priority) st
        (Parallel.MemReturns (min mVal v)) := by
  obtain ⟨v, hv, fuel₀, h⟩ := memory_tsp_optimal unitData .rule5 (by decide) unitData_costs
  obtain ⟨S, hS, hruns⟩ := h _ (Nat.lt_succ_self fuel₀)
  obtain ⟨hfinds, hsafe⟩ := hruns mVal .priority
  obtain ⟨hserial, hparallel⟩ := hsafe trivial
  refine ⟨v, hv, _, S, hS, hfinds.serial hserial, ?_⟩
  exact hfinds.parallel _ (by decide) (by decide) (by decide) (hparallel _)

end Optimer.Tsp
