import Optimer.Bnb.Serial
import Optimer.Tsp.RuleShape
import Optimer.Tsp.Greedy

/-! `TspSolver::branch` for any rule: what a rule has to guarantee for the search to be exact. -/

namespace Optimer.Tsp
open Finset Transition

variable {data : InitialData} {node new child m : Node} {news : List Node} {rule : BranchingRule}
  {fuel : ℕ} {record : ValueType} {sol : Solution} {p q : ℕ → ℕ}

namespace Node

/-- What holds of the nodes of the search tree: they are solved, and only the root may be a tour. -/
structure Valid (data : InitialData) (node : Node) : Prop where
  solved : node.Solved data
  open_ : ∀ parent ∈ node.parent?, ¬ IsTour data.rank node.primal

/-- `child` is what `transform_node` makes of `new`. -/
structure Completes (data : InitialData) (new child : Node) : Prop where
  run : ∃ fuel > 2 * data.rank + 1, transformNode data new fuel = some child
  solved : child.Solved data

namespace Completes

theorem eq (h : new.Completes data child) : ∃ value sol, child = new.solved value sol := by
  obtain ⟨fuel, _, hrun⟩ := h.run
  simp only [transformNode, Option.bind_eq_bind, Option.bind_eq_some_iff, Option.pure_def,
    Option.some.injEq] at hrun
  obtain ⟨_, _, _, _, rfl⟩ := hrun
  exact ⟨_, _, rfl⟩

theorem includedPoints (h : new.Completes data child) : child.includedPoints = new.includedPoints := by
  obtain ⟨value, sol, rfl⟩ := h.eq
  exact includedPoints_solved ..

theorem excludedPoints (h : new.Completes data child) : child.excludedPoints = new.excludedPoints := by
  obtain ⟨value, sol, rfl⟩ := h.eq
  exact excludedPoints_solved ..

theorem parent? (h : new.Completes data child) : child.parent? = new.parent? := by
  obtain ⟨value, sol, rfl⟩ := h.eq
  exact parent?_solved ..

theorem fits (h : new.Completes data child) (hfit : new.Fits p) : child.Fits p :=
  ⟨h.includedPoints ▸ hfit.included, h.excludedPoints ▸ hfit.excluded⟩

end Completes

end Node

/-! ### The loop over the new nodes -/

/-- What the loop of `branch` has done with some new nodes. -/
structure Processed (data : InitialData) (news : List Node) (b b' : Branched Node) : Prop where
  record : b'.record = b.record ∨
    b'.record < b.record ∧ ∃ p, IsTour data.rank p ∧ cost data.rank data.matrix p = b'.record
  nodes : ∀ m ∈ b'.nodes, m ∈ b.nodes ∨
    ∃ new ∈ news, new.Completes data m ∧ ¬ IsTour data.rank m.primal
  kept : ∀ m ∈ b.nodes, m ∈ b'.nodes
  covered : ∀ new ∈ news, ∃ m, new.Completes data m ∧ (b'.record ≤ m.data.value ∨ m ∈ b'.nodes) ∧
    (IsTour data.rank m.primal → b'.record ≤ m.data.value)

namespace Processed

variable {b b' b'' : Branched Node}

theorem record_le (h : Processed data news b b') : b'.record ≤ b.record := by
  rcases h.record with heq | ⟨hlt, _⟩
  exacts [heq.le, hlt.le]

theorem nil (b : Branched Node) : Processed data [] b b :=
  ⟨.inl rfl, fun _ hm => .inl hm, fun _ hm => hm, fun _ hm => absurd hm List.not_mem_nil⟩

theorem cons (h : Processed data [new] b b') (h' : Processed data news b' b'') :
    Processed data (new :: news) b b'' := by
  refine ⟨?_, fun m hm => ?_, fun m hm => h'.kept m (h.kept m hm), ?_⟩
  · rcases h'.record with heq | ⟨hlt, hp⟩
    · rw [heq]
      exact h.record
    · exact .inr ⟨hlt.trans_le h.record_le, hp⟩
  · rcases h'.nodes m hm with hm | ⟨new', hnew, hc⟩
    · exact (h.nodes m hm).imp id fun ⟨new', hnew, hc⟩ =>
        ⟨new', List.mem_cons.mpr (.inl (List.mem_singleton.mp hnew)), hc⟩
    · exact .inr ⟨new', List.mem_cons_of_mem _ hnew, hc⟩
  · refine List.forall_mem_cons.mpr ⟨?_, h'.covered⟩
    obtain ⟨m, hc, hm, htour⟩ := h.covered new (List.mem_singleton_self new)
    have hle := h'.record_le
    exact ⟨m, hc, hm.imp hle.trans (h'.kept m), fun ht => hle.trans (htour ht)⟩

end Processed

section Loop

variable (hn : 2 ≤ data.rank) (hc : Costs data) (hf : 2 * data.rank + 1 < fuel)

include hn hc hf

/-- One new node. -/
theorem branchChild_spec (hready : new.Ready data) (b : Branched Node) :
    ∃ b', branchChild fuel data b new = some b' ∧ Processed data [new] b b' := by
  obtain ⟨value, sol, hrun, hsolved⟩ := hready.transformNode hc hf
  set child := new.solved value sol with hchild
  have hcomp : new.Completes data child := ⟨⟨fuel, hf, hrun⟩, hsolved⟩
  have hpos : 0 < data.rank := by omega
  have htour := hsolved.perm.hasSolution_iff hpos
  by_cases hsol : IsTour data.rank child.primal
  · by_cases hlt : child.data.value < b.record
    · refine ⟨{ b with
          record := child.data.value
          sol := { value := child.data.value, route := createTour child.primal data.rank }
          released := b.released ++ [child] }, ?_, .inr ⟨hlt, child.primal, hsol, hsolved.value.symm⟩,
        fun m hm => .inl hm, fun m hm => hm, ?_⟩
      · simp [branchChild, hrun, htour.mpr hsol, hlt, hsol.createTour_ne hpos]
      · exact List.forall_mem_singleton.mpr ⟨child, hcomp, .inl le_rfl, fun _ => le_rfl⟩
    · refine ⟨{ b with released := b.released ++ [child] }, ?_, .inl rfl, fun m hm => .inl hm,
        fun m hm => hm, ?_⟩
      · simp [branchChild, hrun, htour.mpr hsol, hlt]
      · have hle := not_lt.mp hlt
        exact List.forall_mem_singleton.mpr ⟨child, hcomp, .inl hle, fun _ => hle⟩
  · have hsol' : hasSolution child.primal data.rank = false := by
      rw [← Bool.not_eq_true, htour]
      exact hsol
    by_cases hlt : child.data.value < b.record
    · refine ⟨{ b with nodes := b.nodes ++ [child] }, ?_, .inl rfl, fun m hm => ?_,
        fun m hm => List.mem_append_left _ hm, ?_⟩
      · simp [branchChild, hrun, hsol', hlt]
      · refine (List.mem_append.mp hm).imp id fun hm => ?_
        cases List.mem_singleton.mp hm
        exact ⟨new, List.mem_singleton_self new, hcomp, hsol⟩
      · exact List.forall_mem_singleton.mpr ⟨child, hcomp,
          .inr (List.mem_append_right _ (List.mem_singleton_self child)), fun ht => absurd ht hsol⟩
    · refine ⟨{ b with released := b.released ++ [child] }, ?_, .inl rfl, fun m hm => .inl hm,
        fun m hm => hm, ?_⟩
      · simp [branchChild, hrun, hsol', hlt]
      · have hle := not_lt.mp hlt
        exact List.forall_mem_singleton.mpr ⟨child, hcomp, .inl hle, fun _ => hle⟩

/-- All new nodes. -/
theorem branchChildren_spec (hready : ∀ new ∈ news, new.Ready data) (b : Branched Node) :
    ∃ b', news.foldlM (branchChild fuel data) b = some b' ∧ Processed data news b b' := by
  induction news generalizing b with
  | nil => exact ⟨b, rfl, .nil b⟩
  | cons new news ih =>
    obtain ⟨hnew, hnews⟩ := List.forall_mem_cons.mp hready
    obtain ⟨b', hrun, hproc⟩ := branchChild_spec hn hc hf hnew b
    obtain ⟨b'', hrun', hproc'⟩ := ih hnews b'
    exact ⟨b'', by simp [List.foldlM_cons, hrun, hrun'], hproc.cons hproc'⟩

end Loop

/-! ### Rules -/

/-- What a rule guarantees of the nodes it makes of a node: they can be transformed, and each has a
mark of its own. -/
structure Splits (data : InitialData) (node : Node) (news : List Node) : Prop where
  ready : ∀ new ∈ news, new.Ready data
  parent : ∀ new ∈ news, new.parent? = some node
  fresh : ∀ new ∈ news, ∃ e, e.1 < data.rank ∧ e.2 < data.rank ∧ node.edgeMap e = false ∧
    new.edgeMap e = true

/-- The tour is still allowed by a new node, or one of them is solved by a tour that is no dearer. -/
def Keeps (data : InitialData) (news : List Node) (q : ℕ → ℕ) : Prop :=
  (∃ new ∈ news, new.Fits q) ∨ ∃ new ∈ news, ∀ m, new.Completes data m →
    IsTour data.rank m.primal ∧ m.data.value ≤ cost data.rank data.matrix q

theorem Places.splits (h : Places data node news) (hnode : node.Solved data) : Splits data node news where
  ready new hnew := (h.placed new hnew).ready fun parent hp => by
    rw [h.parent new hnew] at hp
    cases hp
    exact hnode
  parent := h.parent
  fresh := h.fresh

theorem Splits.places (h : Splits data node news) : Places data node news where
  placed new hnew := (h.ready new hnew).placed
  parent := h.parent
  fresh := h.fresh

/-- A child has fewer places without a mark. -/
theorem Splits.unmarked_lt (h : Splits data node news) (hnew : new ∈ news) (hm : new.Completes data m) :
    (m.unmarked data).card < (node.unmarked data).card :=
  h.places.unmarked_lt hnew hm.includedPoints hm.excludedPoints

end Optimer.Tsp
