import Optimer.Bnb.Guarded
import Optimer.Bnb.ParallelMemoryCorrect

/-! Searches over reference counted trees whose `branch` is only known to be good on the nodes they take:
`SerialBNB` and `ParallelBNB` do what they do with the guarded solver. -/

namespace Optimer
open Transition

variable {D N X : Type*} {S : Solver N} {good : N → ValueType → Prop} {v w r : ValueType} {n : N}

theorem Solver.guarded_branch (h : good n r) (sol : Solution) :
    (S.guarded good v).branch n r sol = S.branch n r sol := if_pos h

namespace Solver

variable {cost : X → ValueType} {sols : N → Set X} {init : ValueType}

/-- The guard does not change what a search has to return. -/
theorem Salvaged.of_guarded {interrupted : Bool} (h : (S.guarded good v).Salvaged cost sols init interrupted w) :
    S.Salvaged cost sols init interrupted w where
  attained := h.attained
  le_init := h.le_init
  optimal := h.optimal

end Solver

variable [SetData D] {path : N → List D} {c : Container} {cost : X → ValueType} {sols : N → Set X} {init : ValueType}

/-! ### `SerialBNB` -/

namespace MemSearch

variable {st st' : MemState D} {s : MemSearch D} {node : ℕ → N} {a : ℕ} {rest : List ℕ}

/-- `branch` is about to be called on the node `n`, with the record `r`. -/
inductive Calls (S : Solver N) (path : N → List D) (c : Container) : MemState D → N → ValueType → Prop
  | call {s : MemSearch D} {node : ℕ → N} {a : ℕ} {rest : List ℕ} (hi : s.interrupted = false)
      (hnode : Stands path s.run s.nodes node) (hp : c.Pop S node s.nodes a rest) :
      Calls S path c (.search s) (node a) s.record

/-- Where all calls are good the guard changes nothing. -/
theorem step_guarded (hgood : ∀ n r, Calls S path c st n r → good n r) :
    Step S path c st st' ↔ Step (S.guarded good v) path c st st' := by
  constructor
  · intro hstep
    cases hstep with
    | @body s node a rest new w run hi hnode hp hwork hperm hnew hreleased hr =>
      have heq := Solver.guarded_branch (S := S) (v := v) (hgood _ _ (.call hi hnode hp)) s.sol
      have hstep : Step (S.guarded good v) path c (.search s) _ :=
        .body hi hnode hp hwork hperm (heq.symm ▸ hnew) (heq.symm ▸ hreleased) hr
      rw [heq] at hstep
      exact hstep
    | leave h => exact .leave h
    | drop hnode hp hr => exact .drop hnode hp hr
    | ret h => exact .ret h
  · intro hstep
    cases hstep with
    | @body s node a rest new w run hi hnode hp hwork hperm hnew hreleased hr =>
      have heq := Solver.guarded_branch (S := S) (v := v) (hgood _ _ (.call hi hnode hp)) s.sol
      rw [heq] at hnew hreleased ⊢
      exact .body hi hnode hp hwork hperm hnew hreleased hr
    | leave h => exact .leave h
    | drop hnode hp hr => exact .drop hnode hp hr
    | ret h => exact .ret h

omit [SetData D] in
/-- The record of a call is not above the one that the search has started from. -/
theorem Refines.call_le {T : Solver N} {s' : BnbState N} (h : Refines T path st s')
    (hs' : Search.Kept T cost sols init s') (hcall : Calls S path c st n r) : r ≤ init := by
  cases hcall with
  | call hi hnode hp =>
    cases h with
    | search h =>
      rw [h.record]
      exact hs'.2.le_init

/-- What runs may take: calls that are good, as long as the record is not above the first one. -/
def GoodRuns (S : Solver N) (path : N → List D) (c : Container) (good : N → ValueType → Prop) (init : ValueType)
    (start : MemState D) : Prop :=
  ∀ st n r, Reaches (Interruptible S path c) start st → Calls S path c st n r → r ≤ init → good n r

/-- `SerialBNB::solve` over the tree is totally correct if its calls are good and the guarded solver meets the
contract. -/
theorem guarded_correct (C : (S.guarded good v).Contract cost sols) (P : (S.guarded good v).Stored path)
    (hrank : S.rank > minRankValue) {d : D} (hroot : path S.initialNode = [d]) (record : ValueType)
    (hgood : GoodRuns S path c good (min record S.initialSolution.value) (start S d record)) :
    TotallyCorrect (Interruptible S path c) (start S d record) fun st => ∃ sol s, st = .returned sol s ∧
      sol.route = [] ∧ s.run.live = ∅ ∧ s.run.tree.numUnfreedNodes = 0 ∧
      S.Salvaged cost sols (min record S.initialSolution.value) s.interrupted sol.value := by
  let inv (st : MemState D) := ∃ s', Refines (S.guarded good v) path st s' ∧
    Search.Kept (S.guarded good v) cost sols (min record S.initialSolution.value) s'
  have hpres : Preserved (Interruptible (S.guarded good v) path c) inv := by
    rintro st t ⟨s', hR, hs'⟩ hstep
    obtain ⟨t', hstep', hR'⟩ := refines_simulates P.injective hR hstep
    exact ⟨t', hR', Search.kept_preserved C hs' hstep'⟩
  have hstart : inv (start S d record) := by
    have hR : Refines (S.guarded good v) path (start S d record) (serialStart S record) :=
      start_refines (S := S.guarded good v) hrank hroot record
    refine ⟨_, hR, ?_⟩
    rw [serialStart_search hrank]
    exact ⟨.refl _, .start⟩
  have hcorrect := serial_memory_correct C P hrank hroot c record
  refine (TotallyCorrect.of_agree hpres hstart (fun t hr hinv u => ?_) hcorrect).mono fun st hst => ?_
  · obtain ⟨s', hR, hs'⟩ := hinv
    have hstep : Step S path c t u ↔ Step (S.guarded good v) path c t u :=
      step_guarded fun n r hcall => hgood t n r hr hcall (hR.call_le hs' hcall)
    exact or_congr hstep Iff.rfl
  · obtain ⟨sol, s, heq, hroute, hlive, hunfreed, hsalvaged⟩ := hst
    exact ⟨sol, s, heq, hroute, hlive, hunfreed, hsalvaged.of_guarded⟩

end MemSearch

/-! ### `ParallelBNB` -/

namespace Thread

variable {S' : Solver N} {sch : Scheduler} {t : Thread N} {sh : Shared N}

/-- Outside of `branch` a thread does not ask its solver. -/
theorem step_congr (h : ∀ n, t.pc ≠ .branch n) : t.step S sch sh = t.step S' sch sh := by
  cases hpc : t.pc with
  | branch n => exact absurd hpc (h n)
  | _ => simp only [step, hpc]

end Thread

namespace Parallel

variable {sch : Scheduler} {st st' : MemState D sch.numThreads.toNat}

/-- The two solvers on addresses take the same steps as long as no call of `branch` comes to its end. -/
theorem step_through {S' : Solver N} {node : ℕ → N} {s s' : State ℕ sch.numThreads.toNat}
    (h : Step (S.through node []) sch c s s') (hless : ∀ m n, S.less m n ↔ S'.less m n)
    (hkeep : s'.shared.released = s.shared.released) : Step (S'.through node []) sch c s s' := by
  have hpop : ∀ {l rest : List ℕ} {a : ℕ}, c.Pop (S.through node []) id l a rest →
      c.Pop (S'.through node []) id l a rest := fun {l rest a} hp => by
    cases c with
    | lifo => exact hp
    | priority => exact ⟨hp.1, fun b hb hlt => hp.2 b hb ((hless _ _).mpr hlt)⟩
  cases h with
  | branch hm hi hsize hp =>
    refine absurd hkeep ?_
    simp
  | stop hm h => exact .stop hm h
  | skip hm hi => exact .skip hm hi
  | resize hm hi => exact .resize hm hi
  | hand hm hp hk => exact .hand hm (hpop hp) hk
  | handed hm => exact .handed hm
  | spawn hm => exact .spawn hm
  | spawned hm => exact .spawned hm
  | join hm h => exact .join hm h
  | clean hm hp => exact .clean hm (hpop hp)
  | ret hm => exact .ret hm
  | @thread i o hstep =>
    have hb := (Thread.step_created hstep hkeep).2
    rw [Thread.step_congr hb] at hstep
    exact .thread hstep

/-- `branch` is about to be called on the node `n`, or is under way, with the record `r`. -/
inductive Calls (S : Solver N) (path : N → List D) (sch : Scheduler) (c : Container)
    (st : MemState D sch.numThreads.toNat) : N → ValueType → Prop
  | first {node : ℕ → N} {f : First ℕ} {a : ℕ} {rest : List ℕ} (hnode : Stands path st node)
      (hm : st.state.main = .first f) (hi : st.state.shared.interrupted = false)
      (hsize : f.nodes.length < bound sch) (hp : c.Pop S node f.nodes a rest) :
      Calls S path sch c st (node a) f.record
  | thread {node : ℕ → N} {i : Fin sch.numThreads.toNat} {a : ℕ} (hnode : Stands path st node)
      (hpc : (st.state.threads i).pc = .branch a) : Calls S path sch c st (node a) (st.state.threads i).record

/-- Where all calls are good the guard changes nothing. -/
theorem memStep_guarded (hgood : ∀ n r, Calls S path sch c st n r → good n r) :
    MemStep S path sch c st st' ↔ MemStep (S.guarded good v) path sch c st st' := by
  constructor
  · intro hstep
    cases hstep with
    | quiet hnode h hkeep => exact .quiet hnode (step_through h (fun _ _ => Iff.rfl) hkeep) hkeep
    | @first mid node f a rest new tree hnode hm hi hsize hp hcall hperm hnew hr =>
      have heq := Solver.guarded_branch (S := S) (v := v) (hgood _ _ (.first hnode hm hi hsize hp)) f.sol
      have hstep : MemStep (S.guarded good v) path sch c st _ :=
        .first hnode hm hi hsize hp hcall hperm (heq.symm ▸ hnew) hr
      simp only [round, First.body, Solver.through, heq] at hstep ⊢
      exact hstep
    | @branch node i a new tree hnode hpc hperm hnew hr =>
      have heq := Solver.guarded_branch (S := S) (v := v) (hgood _ _ (.thread hnode hpc)) (st.state.threads i).sol
      have hstep : MemStep (S.guarded good v) path sch c st _ := .branch hnode hpc hperm (heq.symm ▸ hnew) hr
      simp only [Thread.branch, Solver.through, heq] at hstep ⊢
      exact hstep
    | drop hpc hi hn hr => exact .drop hpc hi hn hr
    | clean hnode hm hp hr => exact .clean hnode hm hp hr
  · intro hstep
    cases hstep with
    | quiet hnode h hkeep => exact .quiet hnode (step_through h (fun _ _ => Iff.rfl) hkeep) hkeep
    | @first mid node f a rest new tree hnode hm hi hsize hp hcall hperm hnew hr =>
      have heq := Solver.guarded_branch (S := S) (v := v) (hgood _ _ (.first hnode hm hi hsize hp)) f.sol
      rw [heq] at hnew
      have hstep : MemStep S path sch c st _ := .first hnode hm hi hsize hp hcall hperm hnew hr
      simp only [round, First.body, Solver.through, heq] at hstep ⊢
      exact hstep
    | @branch node i a new tree hnode hpc hperm hnew hr =>
      have heq := Solver.guarded_branch (S := S) (v := v) (hgood _ _ (.thread hnode hpc)) (st.state.threads i).sol
      rw [heq] at hnew
      have hstep : MemStep S path sch c st _ := .branch hnode hpc hperm hnew hr
      simp only [Thread.branch, Solver.through, heq] at hstep ⊢
      exact hstep
    | drop hpc hi hn hr => exact .drop hpc hi hn hr
    | clean hnode hm hp hr => exact .clean hnode hm hp hr

omit [SetData D] in
/-- The record of a call is not above the one that the search has started from. -/
theorem Refines.call_le {S' : Solver N} {s : State N sch.numThreads.toNat}
    (h : Refines S' path sch c cost sols init st s) (hcall : Calls S path sch c st n r) : r ≤ init := by
  obtain ⟨⟨_, node, created, released, _, rfl⟩, hs⟩ := h
  cases hcall with
  | @first _ f a rest _ hm _ _ _ =>
    have hcov := hs.covered
    simp only [MainCovered, State.map, hm, Main.map] at hcov
    exact hcov.le_init
  | @thread _ i a _ hpc =>
    have hpc' : ((st.state.map node created released).threads i).pc = .branch (node a) := by
      simp [State.map, Thread.map, hpc, Pc.map]
    have hmain := hs.running.inv.main
    have hfirst : ∀ f, (st.state.map node created released).main ≠ .first f := fun f hf => by
      simp only [MainOk, hf] at hmain
      simp [(hmain.1 i).1] at hpc'
    exact ((hs.covered_of hfirst).inUse i (by simp [Thread.InUse, hpc'])).2

/-- What runs may take: calls that are good, as long as the record is not above the first one. -/
def GoodRuns (S : Solver N) (path : N → List D) (sch : Scheduler) (c : Container) (good : N → ValueType → Prop)
    (init : ValueType) (start : MemState D sch.numThreads.toNat) : Prop :=
  ∀ st n r, Reaches (MemUninterrupted S path sch c) start st → Calls S path sch c st n r → r ≤ init → good n r

theorem coarse_uninterrupted (h : Reaches (Coarse S path sch c) st st') :
    Reaches (MemUninterrupted S path sch c) st st' := by
  induction h with
  | refl => exact .refl
  | tail _ hstep ih =>
    obtain ⟨mid, hcalls, hstep⟩ := hstep
    exact (ih.trans (reaches_mono (fun _ _ h => .inr (.inl h)) hcalls)).tail (.inl hstep)

section Runs

variable (C : (S.guarded good v).Contract cost sols) (P : (S.guarded good v).Stored path)
  (hrank : S.rank > minRankValue) (hmin : 1 ≤ sch.numMinimumNodes.toNat)
  (hprod : sch.numThreads.toNat * sch.numMinimumNodes.toNat < 2 ^ 32) {d : D} (hroot : path S.initialNode = [d])
  (record : ValueType)
  (hgood : GoodRuns S path sch c good (min record S.initialSolution.value) (memStart S sch d record))

include C P hrank hmin hprod hroot hgood

theorem reaches_guarded (hr : Reaches (MemUninterrupted S path sch c) (memStart S sch d record) st) :
    Reaches (MemUninterrupted (S.guarded good v) path sch c) (memStart (S.guarded good v) sch d record) st := by
  induction hr with
  | refl => exact .refl
  | tail hr hstep ih =>
    obtain ⟨s, hR⟩ := exists_refines C P hrank hmin hprod hroot record ih
    refine ih.tail ?_
    rcases hstep with hstep | hcall | hwake
    · refine .inl ((memStep_guarded fun n r hcall => ?_).mp hstep)
      exact hgood _ n r hr hcall (hR.call_le hcall)
    · exact .inr (.inl hcall)
    · exact .inr (.inr hwake)

/-- `ParallelBNB::solve` over the trees of its threads is totally correct, in every interleaving, if its calls are
good and the guarded solver meets the contract. -/
theorem guarded_correct (hT : 1 ≤ sch.numThreads.toNat)
    (hw : S.Optimal cost sols (min record S.initialSolution.value) w)
    (hr : Reaches (MemUninterrupted S path sch c) (memStart S sch d record) st) :
    TotallyCorrect (Coarse S path sch c) st (MemReturns w) := by
  have hr' := reaches_guarded C P hrank hmin hprod hroot record hgood hr
  obtain ⟨s, hR⟩ := exists_refines C P hrank hmin hprod hroot record hr'
  have hpres : Preserved (Coarse (S.guarded good v) path sch c) fun t =>
      ∃ s, Refines (S.guarded good v) path sch c cost sols (min record S.initialSolution.value) t s := by
    rintro t u ⟨s, hR⟩ hstep
    obtain ⟨s', _, hR'⟩ := refines_coarse C P hmin hR hstep
    exact ⟨s', hR'⟩
  refine .of_agree hpres ⟨s, hR⟩ (fun t ht hinv u => ?_) (hR.correct C P hT hmin hw)
  obtain ⟨s', hR', hs'⟩ := hinv
  have hstep : ∀ {mid}, Reaches CallStep t mid →
      (MemStep S path sch c mid u ↔ MemStep (S.guarded good v) path sch c mid u) := fun {mid} hmid => by
    refine memStep_guarded fun n r hcall => ?_
    have hreach := (hr.trans (coarse_uninterrupted ht)).trans (reaches_mono (fun _ _ h => .inr (.inl h)) hmid)
    exact hgood mid n r hreach hcall (Refines.call_le ⟨hR'.callSteps hmid, hs'⟩ hcall)
  exact exists_congr fun mid => and_congr_right hstep

end Runs

end Parallel

end Optimer
