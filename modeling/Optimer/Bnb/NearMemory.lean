import Optimer.Bnb.GuardedMemory
import Optimer.Bnb.Near
import Optimer.Bnb.ParallelInterrupt

/-! Both engines over their trees, with a solver that gives up solutions by less than a tolerance. The threads of
`ParallelBNB` branch with stale copies of the record, and still no solution that is better by more than the tolerance
is lost. -/

namespace Optimer
open Transition

variable {D N X : Type*} {S : Solver N} {c : Container} {cost : X → ValueType} {sols : Set X} {holds : N → X → Prop}
  {P : N → Prop} {eps init v r : ValueType} {n : N}

/-- A value that such a search may report: the one it started from, or no less than the cost of a solution. -/
def NearAttained (cost : X → ValueType) (sols : Set X) (init v : ValueType) : Prop :=
  (v = init ∨ ∃ x ∈ sols, cost x ≤ v) ∧ v ≤ init

namespace Solver.Keeps

variable {sol : Solution} {opened rest : Multiset N} (hk : S.Keeps cost sols holds P eps n r sol)

include hk

theorem attained (h : NearAttained cost sols init r) : NearAttained cost sols init (S.branch n r sol).record := by
  refine ⟨?_, hk.le.trans h.2⟩
  rcases hk.record with heq | hx
  · rw [heq]
    exact h.1
  · exact .inr hx

/-- A solution that a call keeps is one of the node that is branched on or of another one. -/
theorem cover_rest (hopened : opened = n ::ₘ rest) {x : X} (hx : x ∈ sols) (hold : ∃ m ∈ opened, holds m x)
    (hlt : cost x + eps < (S.branch n r sol).record) :
    ∃ m ∈ ((S.branch n r sol).nodes + rest : Multiset N), holds m x := by
  obtain ⟨m, hm, hmx⟩ := hold
  rw [hopened] at hm
  rcases Multiset.mem_cons.mp hm with rfl | hm
  · obtain ⟨k, hk, hkx⟩ := hk.cover x hx hmx hlt
    exact ⟨k, Multiset.mem_add.mpr (.inl hk), hkx⟩
  · exact ⟨m, Multiset.mem_add.mpr (.inr hm), hmx⟩

theorem nodes_rest (hopened : opened = n ::ₘ rest) (hnodes : ∀ m ∈ opened, P m) :
    ∀ m ∈ ((S.branch n r sol).nodes + rest : Multiset N), P m := by
  intro m hm
  rcases Multiset.mem_add.mp hm with hm | hm
  · exact hk.nodes m hm
  · exact hnodes m (hopened ▸ Multiset.mem_cons_of_mem hm)

end Solver.Keeps

/-! ### `SerialBNB` -/

namespace Search

variable {st st' : BnbState N}

/-- The open nodes. -/
def opened (s : Search N) : Multiset N := (s.nodes.map Prod.fst : List N)

/-- What holds of such a search at every point, interrupted or not. -/
def NearKept (cost : X → ValueType) (sols : Set X) (holds : N → X → Prop) (P : N → Prop) (eps init : ValueType) :
    BnbState N → Prop
  | .search s => (∀ n ∈ s.opened, P n) ∧ NearAttained cost sols init s.record ∧
      ∀ x ∈ sols, cost x + eps < s.record → ∃ n ∈ s.opened, holds n x
  | .clean s => NearAttained cost sols init s.record ∧
      (s.interrupted = false → ∀ x ∈ sols, s.record ≤ cost x + eps)
  | .returned sol s => NearAttained cost sols init sol.value ∧
      (s.interrupted = false → ∀ x ∈ sols, sol.value ≤ cost x + eps)

/-- `branch` is about to be called on the node `n`, with the record `r`. -/
inductive Called (S : Solver N) (c : Container) : BnbState N → N → ValueType → Prop
  | call {s : Search N} {n : N} {i : ℕ} {rest : List (N × ℕ)} (hi : s.interrupted = false)
      (hp : c.Pop S Prod.fst s.nodes (n, i) rest) : Called S c (.search s) n s.record

theorem NearKept.step (h : NearKept cost sols holds P eps init st) (hstep : Interruptible S c st st')
    (hkeeps : ∀ n r sol, Called S c st n r → P n → S.Keeps cost sols holds P eps n r sol) :
    NearKept cost sols holds P eps init st' := by
  rcases hstep with hstep | hsignal
  · cases hstep with
    | @body s n i rest hi hp =>
      obtain ⟨hnodes, hattained, hcovered⟩ := h
      have hopened : s.opened = n ::ₘ ((rest.map Prod.fst : List N) : Multiset N) :=
        Multiset.coe_eq_coe.mpr (hp.perm.map Prod.fst)
      have hnext : (s.body S n i rest).opened =
          ((S.branch n s.record s.sol).nodes + (rest.map Prod.fst : List N) : Multiset N) :=
        Multiset.coe_eq_coe.mpr (pushAll_nodes ..)
      have hk := hkeeps n s.record s.sol (.call hi hp) (hnodes n (hopened ▸ Multiset.mem_cons_self ..))
      refine ⟨?_, hk.attained hattained, fun x hx hlt => ?_⟩
      · rw [hnext]
        exact hk.nodes_rest hopened hnodes
      · rw [hnext]
        exact hk.cover_rest hopened hx (hcovered x hx (lt_of_lt_of_le hlt hk.le)) hlt
    | leave hl =>
      obtain ⟨_, hattained, hcovered⟩ := h
      refine ⟨hattained, fun hi x hx => ?_⟩
      by_contra hlt
      obtain ⟨n, hn, _⟩ := hcovered x hx (not_le.mp hlt)
      rw [opened, hl.resolve_right (by simp [hi])] at hn
      exact absurd hn (Multiset.notMem_zero n)
    | drop _ => exact h
    | ret _ => exact h
  · cases hsignal with
    | signal _ => exact h

end Search

namespace MemSearch

variable [SetData D] {path : N → List D} {st : MemState D} {s' : BnbState N}

omit [SetData D] in
/-- What is about to be branched on is so on the tree. -/
theorem Refines.calls (hinj : Function.Injective path) (h : Refines S path st s')
    (hcalled : Search.Called S c s' n r) :
    Calls S path c st n r := by
  cases hcalled with
  | call hi hp' =>
    cases h with
    | search h =>
      obtain ⟨node, hnode⟩ := h.exists_node
      obtain ⟨a, rest, hp, ⟨_, hn⟩, _⟩ := hp'.matched (h.node_eq hinj hnode).flip fun _ _ h => h.2.symm
      have hcall := Calls.call (h.interrupted.trans hi) hnode hp
      rw [hn, h.record] at hcall
      exact hcall

/-- `SerialBNB::solve` over its tree with calls of `branch` that keep the solutions: what it returns is no less than
the least cost or the record at the start, without a signal it is no more than the tolerance above the least cost,
and no node is left. -/
theorem memory_near (hinj : Function.Injective path) (hrank : S.rank > minRankValue) {d : D}
    (hpath : path S.initialNode = [d]) (record : ValueType) (hroot : P S.initialNode)
    (hcover : ∀ x ∈ sols, cost x + eps < min record S.initialSolution.value → holds S.initialNode x)
    (hkeeps : ∀ st n r, Reaches (Interruptible S path c) (start S d record) st → Calls S path c st n r → P n →
      ∀ sol, S.Keeps cost sols holds P eps n r sol) {sol : Solution} {s : MemSearch D}
    (hr : Reaches (Interruptible S path c) (start S d record) (.returned sol s)) :
    NearAttained cost sols (min record S.initialSolution.value) sol.value ∧
      (s.interrupted = false → ∀ x ∈ sols, sol.value ≤ cost x + eps) ∧ s.run.live = ∅ ∧
      s.run.tree.numUnfreedNodes = 0 := by
  have hinv : ∀ {st}, Reaches (Interruptible S path c) (start S d record) st → ∃ s', Refines S path st s' ∧
      Search.NearKept cost sols holds P eps (min record S.initialSolution.value) s' := by
    intro st hst
    induction hst with
    | refl =>
      refine ⟨_, start_refines hrank hpath record, ?_⟩
      rw [serialStart_search hrank]
      refine ⟨fun n hn => ?_, ⟨.inl rfl, le_rfl⟩, fun x hx hlt => ?_⟩
      · exact List.mem_singleton.mp hn ▸ hroot
      · exact ⟨_, List.mem_singleton_self _, hcover x hx hlt⟩
    | tail hr hstep ih =>
      obtain ⟨s', hR, hs'⟩ := ih
      obtain ⟨t', hstep', hR'⟩ := refines_simulates hinj hR hstep
      exact ⟨t', hR', hs'.step hstep' fun n r sol hcalled hn => hkeeps _ n r hr (hR.calls hinj hcalled) hn sol⟩
  obtain ⟨s', hR, hs'⟩ := hinv hr
  cases hR with
  | returned h hnil =>
    obtain ⟨hattained, hnear⟩ := hs'
    obtain ⟨hlive, hunfreed⟩ := h.inv.unfreed hnil
    exact ⟨hattained, fun hi => hnear (h.interrupted ▸ hi), hlive, hunfreed⟩

end MemSearch

/-! ### `ParallelBNB` -/

namespace Parallel

variable {sch : Scheduler} {Q : ℕ → Prop} {st st' : State N sch.numThreads.toNat} {i : Fin sch.numThreads.toNat}
  {o : Outcome N}

/-- `branch` is about to be called on the node `n`, with the record `r`. -/
inductive Called (S : Solver N) (sch : Scheduler) (c : Container) (st : State N sch.numThreads.toNat) :
    N → ValueType → Prop
  | first {f : First N} {n : N} {rest : List N} (hm : st.main = .first f) (hi : st.shared.interrupted = false)
      (hsize : f.nodes.length < bound sch) (hp : c.Pop S id f.nodes n rest) : Called S sch c st n f.record
  | thread {i : Fin sch.numThreads.toNat} {n : N} (hpc : (st.threads i).pc = .branch n) :
      Called S sch c st n (st.threads i).record

/-- The records and the open nodes during such a search. -/
structure NearCovered {T : ℕ} (cost : X → ValueType) (sols : Set X) (holds : N → X → Prop) (P : N → Prop)
    (eps init : ValueType) (st : State N T) : Prop where
  nodes : ∀ n ∈ st.pending, P n
  attained : NearAttained cost sols init st.record
  inUse : ∀ i, (st.threads i).InUse → NearAttained cost sols init (st.threads i).record
  covered : ∀ x ∈ sols, cost x + eps < st.record →
    (∀ i, (st.threads i).Unpublished → cost x + eps < (st.threads i).record) → ∃ n ∈ st.pending, holds n x

namespace NearCovered

/-- A step of a thread whose call of `branch`, if it is one, keeps the solutions. -/
theorem apply (hinv : Inv sch st) (hi : st.shared.interrupted = false) (h : NearCovered cost sols holds P eps init st)
    (hmove : (st.threads i).Move S sch st.shared o)
    (hkeeps : ∀ n sol, (st.threads i).pc = .branch n → P n →
      S.Keeps cost sols holds P eps n (st.threads i).record sol) :
    NearCovered cost sols holds P eps init (st.apply i o) := by
  obtain ⟨hfirst, _⟩ := hinv.main_of_move hmove
  have hrec : st.record = st.shared.record := record_of_ne_first hfirst
  have hrec' : (st.apply i o).record = o.shared.record := record_of_ne_first hfirst
  have hkept : ∀ {n}, (st.threads i).pc = .branch n →
      S.Keeps cost sols holds P eps n (st.threads i).record (st.threads i).sol := fun {n} hpc => by
    have hn : n ∈ st.pending := Multiset.mem_of_le (st.thread_pending_le i) (Thread.mem_pending hpc)
    exact hkeeps n _ hpc (h.nodes n hn)
  refine ⟨?_, ?_, ?_, ?_⟩
  · rcases hmove.ledger hi with ⟨hc, hr, _⟩ | ⟨m, hpc, rfl⟩
    · rw [pending_keep (hinv.ok i) hmove hc hr]
      exact h.nodes
    · obtain ⟨rest, hrest, hpend⟩ := pending_branch (S := S) hpc
      rw [hpend]
      exact (hkept hpc).nodes_rest hrest h.nodes
  · rw [hrec']
    rcases hmove.record with heq | ⟨hpc, heq⟩
    · rw [heq, ← hrec]
      exact h.attained
    · rw [heq]
      exact h.inUse i (by simp [Thread.InUse, hpc])
  · let R (t : Thread N) := t.InUse → NearAttained cost sols init t.record
    refine State.forall_apply (P := R) (fun t ht hu => ?_) h.inUse fun hu => ?_
    · rw [Thread.notified_record]
      exact ht (Thread.notified_inUse hu)
    · rcases hmove.inUse hu with heq | ⟨hold, heq⟩ | ⟨n, hpc, heq⟩
      · rw [heq, ← hrec]
        exact h.attained
      · exact heq.symm ▸ h.inUse i hold
      · rw [heq]
        exact (hkept hpc).attained (h.inUse i (by simp [Thread.InUse, hpc]))
  · intro x hx hlt hun
    rw [hrec'] at hlt
    let R (t : Thread N) := t.Unpublished → cost x + eps < t.record
    have hR t : R t.notified → R t := fun ht hu => by simpa using ht hu.notified
    have hself : R o.thread := by
      rcases State.of_apply hR (hun i) with ⟨_, hj⟩ | ⟨hne, _⟩
      exacts [hj, absurd rfl hne]
    have hold : ∃ n ∈ st.pending, holds n x := by
      refine h.covered x hx (hrec ▸ hlt.trans_le hmove.record_le) fun j hu => ?_
      rcases State.of_apply hR (hun j) with ⟨rfl, hj⟩ | ⟨_, hj⟩
      · rcases hmove.unpublished hu with ⟨hu', heq⟩ | hle
        · exact heq ▸ hj hu'
        · exact hlt.trans_le hle
      · exact hj hu
    rcases hmove.ledger hi with ⟨hc, hr, _⟩ | ⟨m, hpc, rfl⟩
    · rwa [pending_keep (hinv.ok i) hmove hc hr]
    · obtain ⟨rest, hrest, hpend⟩ := pending_branch (S := S) hpc
      rw [hpend]
      exact (hkept hpc).cover_rest hrest hx hold (hself (.inl rfl))

/-- Steps that touch neither the open nodes nor the records. -/
theorem congr {T : ℕ} {st st' : State N T} (h : NearCovered cost sols holds P eps init st)
    (hp : st'.pending = st.pending) (hr : st'.record = st.record)
    (hu : ∀ i, (st'.threads i).InUse → (st.threads i).InUse ∧ (st'.threads i).record = (st.threads i).record)
    (hun : ∀ i, (st.threads i).Unpublished →
      (st'.threads i).Unpublished ∧ (st'.threads i).record = (st.threads i).record) :
    NearCovered cost sols holds P eps init st' where
  nodes := hp ▸ h.nodes
  attained := hr ▸ h.attained
  inUse i hi := (hu i hi).2 ▸ h.inUse i (hu i hi).1
  covered x hx hlt hall := by
    rw [hp]
    exact h.covered x hx (hr ▸ hlt) fun i hi => (hun i hi).2 ▸ hall i (hun i hi).1

theorem thread (hmin : 0 < sch.numMinimumNodes.toNat) (h : Running S sch c Q st)
    (hcov : NearCovered cost sols holds P eps init st) (hstep : (st.threads i).step S sch st.shared = some o)
    (hkeeps : ∀ n sol, (st.threads i).pc = .branch n → P n →
      S.Keeps cost sols holds P eps n (st.threads i).record sol) :
    NearCovered cost sols holds P eps init (st.apply i o) := by
  rcases Thread.step_cases hmin (h.inv.ok i) hstep with hmove | ⟨hpc, hmove⟩
  · exact hcov.apply h.inv h.uninterrupted hmove hkeeps
  · let st₁ := st.apply i ((st.threads i).announce sch st.shared)
    have hself : st₁.threads i = ((st.threads i).announce sch st.shared).thread := State.apply_self rfl
    have hrun : Running S sch c Q st₁ := h.apply (.announce hpc)
    have hcov₁ : NearCovered cost sols holds P eps init st₁ :=
      hcov.apply h.inv h.uninterrupted (.announce (S := S) hpc) fun n sol hb => by simp [hpc] at hb
    have hmove₁ : (st₁.threads i).Move S sch st₁.shared o := hself ▸ hmove
    have hsame : st₁.apply i o = st.apply i o := State.apply_apply rfl
    rw [← hsame]
    refine hcov₁.apply hrun.inv hrun.uninterrupted hmove₁ fun n sol hb => ?_
    simp [hself, Thread.announce] at hb

theorem step (hmin : 0 < sch.numMinimumNodes.toNat) (h : Running S sch c Q st)
    (hcov : NearCovered cost sols holds P eps init st) (hstep : Step S sch c st st')
    (hkeeps : ∀ n r sol, Called S sch c st n r → P n → S.Keeps cost sols holds P eps n r sol) :
    NearCovered cost sols holds P eps init st' := by
  have hnext := h.step hmin hstep
  have hmain := h.inv.main
  cases hstep with
  | @branch f n rest hm hi hsize hp =>
    have hopened : st.pending = n ::ₘ (rest : Multiset N) := by
      rw [h.pending_first hm, Multiset.coe_eq_coe.mpr hp.perm, Multiset.cons_coe]
    have hpend : State.pending _ = ((S.branch n f.record f.sol).nodes + rest : Multiset N) :=
      (hnext.pending_first rfl).trans (Multiset.coe_eq_coe.mpr (Container.pushAll_perm ..))
    have hrec : st.record = f.record := by simp [State.record, hm]
    have hkept := hkeeps n f.record f.sol (.first hm hi hsize hp) (hcov.nodes n (hopened ▸ Multiset.mem_cons_self ..))
    have hidle : ∀ i, (st.threads i).pc = .idle := fun i => by
      simp only [MainOk, hm] at hmain
      exact (hmain.1 i).1
    refine ⟨?_, ?_, hcov.inUse, fun x hx hlt _ => ?_⟩
    · rw [hpend]
      exact hkept.nodes_rest hopened hcov.nodes
    · exact hkept.attained (hrec ▸ hcov.attained)
    · rw [hpend]
      refine hkept.cover_rest hopened hx ?_ hlt
      exact hcov.covered x hx (hrec ▸ lt_of_lt_of_le hlt hkept.le) fun i hu => by
        simp [Thread.Unpublished, hidle i] at hu
  | stop hm | resize hm | handed hm | spawned hm | join hm | ret hm =>
    refine hcov.congr ?_ (by simp [State.record, hm]) (fun _ hu => ⟨hu, rfl⟩) fun _ hu => ⟨hu, rfl⟩
    simp [State.pending, State.sum, hm, Main.nodes]
  | skip hm hi => exact absurd hi (by simp [h.uninterrupted])
  | @hand nodes rest _ n k hm hp hk =>
    simp only [MainOk, hm] at hmain
    have hpend := h.inv.pending_eq hnext.inv 0 0 (add_zero _).symm (add_zero _).symm
    rw [add_zero, add_zero] at hpend
    refine hcov.congr hpend.symm (by simp [State.record, hm]) (fun j hu => ?_) fun j hu => ?_
    · by_cases hjk : j = k
      · subst hjk
        simp [Thread.InUse, hmain j] at hu
      · simpa [hjk] using hu
    · simp [Thread.Unpublished, hmain j] at hu
  | @spawn k hm =>
    simp only [MainOk, hm] at hmain
    have hidle := (hmain.2 k).mpr le_rfl
    have hpend := h.inv.pending_eq hnext.inv 0 0 (add_zero _).symm (add_zero _).symm
    rw [add_zero, add_zero] at hpend
    refine hcov.congr hpend.symm (by simp [State.record, hm]) (fun j hu => ?_) fun j hu => ?_
    · by_cases hjk : j = k
      · subst hjk
        simp [Thread.InUse] at hu
      · simpa [hjk] using hu
    · have hjk : j ≠ k := fun heq => by simp [Thread.Unpublished, heq, hidle] at hu
      simpa [hjk] using hu
  | clean hm hp =>
    have hhand := h.handed
    simp only [MainHanded, hm] at hhand
    exact absurd hhand.1 hp.ne_nil
  | thread hstep => exact hcov.thread hmin h hstep fun n sol hpc => hkeeps n _ sol (.thread hpc)

theorem wake (h : Running S sch c Q st) (hcov : NearCovered cost sols holds P eps init st) (hwake : Wake st st') :
    NearCovered cost sols holds P eps init st' := by
  have hpend := h.inv.pending_eq (h.wake hwake).inv 0 0
  cases hwake with
  | wake i =>
    have hpend := hpend (add_zero _).symm (add_zero _).symm
    rw [add_zero, add_zero] at hpend
    refine hcov.congr hpend.symm rfl (fun j hu => ?_) fun j hu => ?_
    · by_cases hji : j = i
      · subst hji
        simp only [Function.update_self] at hu ⊢
        exact ⟨Thread.notified_inUse hu, Thread.notified_record⟩
      · simpa [hji] using hu
    · by_cases hji : j = i
      · subst hji
        simp only [Function.update_self]
        exact ⟨hu.notified, Thread.notified_record⟩
      · simpa [hji] using hu

/-- The state that `solve` starts from. -/
theorem start (hrank : S.rank > minRankValue) (record : ValueType) (hroot : P S.initialNode)
    (hcover : ∀ x ∈ sols, cost x + eps < min record S.initialSolution.value → holds S.initialNode x) :
    NearCovered cost sols holds P eps (min record S.initialSolution.value)
      (Parallel.start S sch (construct sch) record) := by
  have hrun : Running S sch .lifo (fun _ => True) (Parallel.start S sch (construct sch) record) :=
    .start rfl rfl rfl (fun _ _ _ _ => trivial) fun h => absurd hrank h
  have hm : (Parallel.start S sch (construct sch) record).main = .first (firstStart S record) := by
    rw [Parallel.start, if_pos hrank]
  have hpend := hrun.pending_first hm
  have hrec : (firstStart S record).record = min record S.initialSolution.value := by
    simp only [firstStart]
    split
    · next h => exact (min_eq_right h.le).symm
    · next h => exact (min_eq_left (not_lt.mp h)).symm
  have hrecord : (Parallel.start S sch (construct sch) record).record = min record S.initialSolution.value := by
    rw [State.record, hm]
    exact hrec
  refine ⟨fun n hn => ?_, ?_, fun i hu => ?_, fun x hx hlt _ => ?_⟩
  · rw [hpend] at hn
    exact List.mem_singleton.mp (Multiset.mem_coe.mp hn) ▸ hroot
  · rw [hrecord]
    exact ⟨.inl rfl, le_rfl⟩
  · rw [Parallel.start, if_pos hrank] at hu
    exact hu.elim
  · refine ⟨S.initialNode, ?_, hcover x hx (hrecord ▸ hlt)⟩
    rw [hpend]
    exact Multiset.mem_coe.mpr (List.mem_singleton_self _)

/-- The value returned is between the least cost and the tolerance above it, or the record at the start where that
is less. -/
theorem returned (h : Running S sch c Q st) (hcov : NearCovered cost sols holds P eps init st) {sol : Solution}
    (hm : st.main = .returned sol) :
    NearAttained cost sols init sol.value ∧ ∀ x ∈ sols, sol.value ≤ cost x + eps := by
  have hhand := h.handed
  simp only [MainHanded, hm] at hhand
  obtain ⟨⟨hval, _⟩, hexited, _⟩ := hhand
  have hrec : st.record = sol.value := by rw [record_of_ne_first (by simp [hm]), hval]
  refine ⟨hrec ▸ hcov.attained, fun x hx => ?_⟩
  by_contra hlt
  obtain ⟨n, hn, _⟩ := hcov.covered x hx (hrec ▸ not_le.mp hlt) fun i hu => by
    simp [Thread.Unpublished, hexited i] at hu
  rw [h.pending_returned hm] at hn
  exact Multiset.notMem_zero n hn

end NearCovered

/-! ### Over the trees of the threads -/

variable [SetData D] {path : N → List D} {ms : MemState D sch.numThreads.toNat}

omit [SetData D] in
/-- What is about to be branched on is so on the tree. -/
theorem Decodes.calls (h : Decodes path sch ms st) (hcalled : Called S sch c st n r) : Calls S path sch c ms n r := by
  obtain ⟨node, created, released, hnode, rfl⟩ := h.eq_map
  cases hcalled with
  | first hm hi hsize hp =>
    obtain ⟨f, hf, rfl⟩ := Main.map_eq_first.mp hm
    obtain ⟨a, rest, hp', rfl, _⟩ := hp.of_map
    exact .first hnode hf hi (by simpa [First.map] using hsize) hp'
  | @thread i n hpc =>
    have hpc : (ms.state.threads i).pc.map node = .branch n := hpc
    cases ha : (ms.state.threads i).pc with
    | branch a =>
      rw [ha] at hpc
      obtain rfl : node a = n := by simpa [Pc.map] using hpc
      exact .thread hnode ha
    | _ => simp [ha, Pc.map] at hpc

omit [SetData D] in
theorem Decodes.called (hinj : Function.Injective path) (h : Decodes path sch ms st)
    (hcall : Calls S path sch c ms n r) : Called S sch c st n r := by
  cases hcall with
  | @first node f a rest hnode hm hi hsize hp =>
    obtain ⟨created, released, rfl⟩ := h.exists_eq hinj hnode
    have hcalled : Called S sch c (ms.state.map node created released) (node a) (f.map node).record :=
      .first (Main.map_eq_first.mpr ⟨f, hm, rfl⟩) hi (by simpa [First.map] using hsize) hp.map
    exact hcalled
  | @thread node i a hnode hpc =>
    obtain ⟨created, released, rfl⟩ := h.exists_eq hinj hnode
    refine .thread (i := i) ?_
    simp [State.map, Thread.map, hpc, Pc.map]

section Runs

variable (hinj : Function.Injective path) (hrank : S.rank > minRankValue) (hmin : 1 ≤ sch.numMinimumNodes.toNat)
  {d : D} (hpath : path S.initialNode = [d]) (record : ValueType)

include hinj hrank hmin hpath

/-- What holds of the runs on nodes that the runs on the tree stand for. -/
theorem decodes_invariant {I : State N sch.numThreads.toNat → Prop} (hstart : I (start S sch (construct sch) record))
    (hpres : ∀ ms st st', Reaches (MemUninterrupted S path sch c) (memStart S sch d record) ms →
      Decodes path sch ms st → Running S sch c (fun _ => True) st → I st → Uninterrupted S sch c st st' → I st')
    (hr : Reaches (MemUninterrupted S path sch c) (memStart S sch d record) ms) :
    ∃ st, Decodes path sch ms st ∧ Running S sch c (fun _ => True) st ∧ I st := by
  induction hr with
  | refl =>
    refine ⟨_, memStart_decodes hrank hpath record, ?_, hstart⟩
    exact .start rfl rfl rfl (fun _ _ _ _ => trivial) fun h => absurd hrank h
  | @tail mid last hr hstep ih =>
    obtain ⟨st, h, hrun, hI⟩ := ih
    rcases hstep with hstep | hcall | hwake
    · obtain ⟨st', hstep', h'⟩ := h.simulated hinj hmin hrun.uninterrupted hstep
      exact ⟨st', h', hrun.step hmin hstep', hpres mid st st' hr h hrun hI (.inl hstep')⟩
    · exact ⟨st, h.callStep hcall, hrun, hI⟩
    · obtain ⟨st', hwake', h'⟩ := h.wake hwake
      exact ⟨st', h', hrun.wake hwake', hpres mid st st' hr h hrun hI (.inr hwake')⟩

/-- `ParallelBNB::solve` over the trees of its threads with calls of `branch` that keep the solutions, whatever the
interleaving: what it returns is no more than the tolerance above the least cost, and no less than the least cost
or the record at the start; no node is left. -/
theorem memory_near (hroot : P S.initialNode)
    (hcover : ∀ x ∈ sols, cost x + eps < min record S.initialSolution.value → holds S.initialNode x)
    (hkeeps : ∀ ms n r, Reaches (MemUninterrupted S path sch c) (memStart S sch d record) ms →
      Calls S path sch c ms n r → P n → ∀ sol, S.Keeps cost sols holds P eps n r sol)
    (hr : Reaches (MemUninterrupted S path sch c) (memStart S sch d record) ms) {sol : Solution}
    (hm : ms.state.main = .returned sol) :
    NearAttained cost sols (min record S.initialSolution.value) sol.value ∧
      (∀ x ∈ sols, sol.value ≤ cost x + eps) ∧ sol.route = [] ∧ ms.tree.live = ∅ ∧
      ms.tree.tree.numUnfreedNodes = 0 := by
  have hstart : NearCovered cost sols holds P eps (min record S.initialSolution.value)
      (start S sch (construct sch) record) := .start hrank record hroot hcover
  have hinv : ∃ st, Decodes path sch ms st ∧ Running S sch c (fun _ => True) st ∧
      NearCovered cost sols holds P eps (min record S.initialSolution.value) st := by
    refine decodes_invariant hinj hrank hmin hpath record hstart (fun ms st st' hr h hrun hcov hstep => ?_) hr
    rcases hstep with hstep | hwake
    · exact hcov.step hmin hrun hstep fun n r sol hcalled hn => hkeeps ms n r hr (h.calls hcalled) hn sol
    · exact hcov.wake hrun hwake
  obtain ⟨st, h, hrun, hcov⟩ := hinv
  obtain ⟨node, created, released, _, rfl⟩ := h.eq_map
  have hsol : (ms.state.map node created released).main = .returned sol := Main.map_eq_returned.mpr hm
  obtain ⟨_, hroute, hlive, hunfreed⟩ := h.freed hrun hsol
  obtain ⟨hattained, hnear⟩ := hcov.returned hrun hsol
  exact ⟨hattained, hnear, hroute, hlive, hunfreed⟩

end Runs

/-! ### Searches whose first call leaves no node -/

/-- The first phase is at the root, or no node is open any more. -/
def Single (S : Solver N) (record : ValueType) {T : ℕ} (st : State N T) : Prop :=
  st.main = .first (firstStart S record) ∨ st.pending = 0

/-- No step but the end of a call of `branch` opens nodes. -/
theorem closed_step (hmin : 0 < sch.numMinimumNodes.toNat) (h : Running S sch c Q st) (hzero : st.pending = 0)
    (hstep : Step S sch c st st') : st'.pending = 0 := by
  have hnext := h.step hmin hstep
  cases hstep with
  | @branch f n rest hm hi hsize hp =>
    have hn : n ∈ st.pending := by
      simp [State.pending, hm, Main.nodes, hp.perm.mem_iff.mpr List.mem_cons_self]
    rw [hzero] at hn
    exact absurd hn (Multiset.notMem_zero n)
  | clean hm hp =>
    have hhand := h.handed
    simp only [MainHanded, hm] at hhand
    exact absurd hhand.1 hp.ne_nil
  | thread hstep =>
    let R (st : State N sch.numThreads.toNat) := Running S sch c Q st ∧ st.pending = 0
    refine (of_step (P := R) hmin (fun {st i o} hst hmove => ⟨hst.1.apply hmove, ?_⟩) (h.inv.ok _) ⟨h, hzero⟩ hstep).2
    obtain ⟨hrun, hzero⟩ := hst
    rcases hmove.ledger hrun.uninterrupted with ⟨hc, hr, _⟩ | ⟨m, hpc, rfl⟩
    · rw [pending_keep (hrun.inv.ok i) hmove hc hr, hzero]
    · have hm := Multiset.mem_of_le (st.thread_pending_le i) (Thread.mem_pending hpc)
      rw [hzero] at hm
      exact absurd hm (Multiset.notMem_zero m)
  | _ =>
    have hpend := h.inv.pending_eq hnext.inv 0 0 (add_zero _).symm (add_zero _).symm
    rw [add_zero, add_zero, hzero] at hpend
    exact hpend.symm

theorem Single.step (hmin : 0 < sch.numMinimumNodes.toNat) (hbound : 1 < bound sch) {record : ValueType}
    (hnil : (S.branch S.initialNode (firstStart S record).record {}).nodes = []) (h : Running S sch c Q st)
    (hs : Single S record st) (hstep : Uninterrupted S sch c st st') : Single S record st' := by
  rcases hstep with hstep | hwake
  · rcases hs with hm | hzero
    · have hnext := h.step hmin hstep
      cases hstep with
      | @branch f n rest hm' hi hsize hp =>
        obtain rfl : f = firstStart S record := Main.first.inj (hm'.symm.trans hm)
        have hperm : [S.initialNode].Perm (n :: rest) := hp.perm
        obtain ⟨rfl, rfl⟩ := List.cons.inj (List.singleton_perm.mp hperm)
        refine .inr ((hnext.pending_first rfl).trans ?_)
        show ((Container.pushAll [] (S.branch S.initialNode (firstStart S record).record {}).nodes : List N) :
          Multiset N) = 0
        rw [hnil]
        rfl
      | @stop f hm' hstop =>
        obtain rfl : f = firstStart S record := Main.first.inj (hm'.symm.trans hm)
        rcases hstop with hnil | hle | hi
        · exact absurd hnil (List.cons_ne_nil _ _)
        · exact absurd hle (not_le.mpr hbound)
        · exact absurd hi (by simp [h.uninterrupted])
      | @thread i o hstep =>
        have hmain := h.inv.main
        simp only [MainOk, hm] at hmain
        simp [Thread.step, (hmain.1 i).1] at hstep
      | _ hm' => simp [hm] at hm'
    · exact .inr (closed_step hmin h hzero hstep)
  · rcases hs with hm | hzero
    · cases hwake with
      | wake i => exact .inl hm
    · have hpend := h.inv.pending_eq (h.wake hwake).inv 0 0
      cases hwake with
      | wake i =>
        have hpend := hpend (add_zero _).symm (add_zero _).symm
        rw [add_zero, add_zero, hzero] at hpend
        exact .inr hpend.symm

/-- In such a search `branch` is only called on the root. -/
theorem Single.called {record : ValueType} (h : Running S sch c Q st) (hs : Single S record st)
    (hcalled : Called S sch c st n r) : n = S.initialNode ∧ r = (firstStart S record).record := by
  have hpos : st.pending ≠ 0 := by
    cases hcalled with
    | first hm _ _ hp =>
      intro hzero
      have hn : n ∈ st.pending := by
        simp [State.pending, hm, Main.nodes, hp.perm.mem_iff.mpr List.mem_cons_self]
      rw [hzero] at hn
      exact absurd hn (Multiset.notMem_zero n)
    | thread hpc =>
      intro hzero
      have hn := Multiset.mem_of_le (st.thread_pending_le _) (Thread.mem_pending hpc)
      rw [hzero] at hn
      exact absurd hn (Multiset.notMem_zero n)
  have hm := hs.resolve_right hpos
  cases hcalled with
  | @first f n rest hm' _ _ hp =>
    obtain rfl : f = firstStart S record := Main.first.inj (hm'.symm.trans hm)
    have hperm : [S.initialNode].Perm (n :: rest) := hp.perm
    exact ⟨(List.cons.inj (List.singleton_perm.mp hperm)).1.symm, rfl⟩
  | @thread i n hpc =>
    have hmain := h.inv.main
    simp only [MainOk, hm] at hmain
    simp [(hmain.1 i).1] at hpc

theorem calls_of_single (hinj : Function.Injective path) (hrank : S.rank > minRankValue)
    (hmin : 1 ≤ sch.numMinimumNodes.toNat) {d : D} (hpath : path S.initialNode = [d]) {record : ValueType}
    (hbound : 1 < bound sch) (hnil : (S.branch S.initialNode (firstStart S record).record {}).nodes = [])
    (hr : Reaches (MemUninterrupted S path sch c) (memStart S sch d record) ms) (hcall : Calls S path sch c ms n r) :
    n = S.initialNode ∧ r = (firstStart S record).record := by
  have hstart : Single S record (start S sch (construct sch) record) := by
    rw [start, if_pos hrank]
    exact .inl rfl
  obtain ⟨st, h, hrun, hs⟩ := decodes_invariant hinj hrank hmin hpath record hstart
    (fun _ _ _ _ _ hrun hs hstep => hs.step hmin hbound hnil hrun hstep) hr
  exact hs.called hrun (h.called hinj hcall)

end Parallel

end Optimer
