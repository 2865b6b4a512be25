import Optimer.Bnb.Handing

/-! The record in an uninterrupted run of `ParallelBNB::solve`. Threads branch with stale copies of
`record_` and lower it later; a solution cheaper than the record, and than what threads have still
to publish, lies in the set of a pending node. -/

namespace Optimer
open Transition

namespace Thread

variable {N : Type*} {S : Solver N} {sch : Scheduler} {t : Thread N} {sh : Shared N}
  {o : Outcome N}

/-- The thread's record is in use: what it branches with, or what it found and has not compared
with `record_`. -/
def InUse (t : Thread N) : Prop :=
  match t.pc with
  | .branch _ | .check | .publish => True
  | _ => False

def Unpublished (t : Thread N) : Prop := t.pc = .check ∨ t.pc = .publish

@[simp] theorem notified_record : t.notified.record = t.record := by
  unfold notified; split <;> rfl

theorem notified_inUse (h : t.notified.InUse) : t.InUse := by
  unfold notified at h
  split at h
  exacts [h.elim, h]

theorem Unpublished.notified (h : t.Unpublished) : t.notified.Unpublished := by
  rcases h with h | h <;> simp [Unpublished, Thread.notified, h]

namespace Move

theorem record_le (h : Move S sch t sh o) : o.shared.record ≤ sh.record := by
  cases h with
  | publish hpc =>
    show (if t.record < sh.record then t.record else sh.record) ≤ sh.record
    split
    exacts [le_of_lt ‹_›, le_rfl]
  | _ => exact le_rfl

/-- The record of a thread in use was read from `record_`, or found by `branch`. -/
theorem inUse (h : Move S sch t sh o) (hu : o.thread.InUse) :
    o.thread.record = sh.record ∨ (t.InUse ∧ o.thread.record = t.record) ∨
      ∃ n, t.pc = .branch n ∧ o.thread.record = (S.branch n t.record t.sol).record := by
  cases h with
  | read hpc => exact .inl rfl
  | branch hpc => exact .inr (.inr ⟨_, hpc, rfl⟩)
  | lower hpc h => exact .inr (.inl ⟨by simp [InUse, hpc], rfl⟩)
  | schedule hpc h => rcases h with rfl | rfl <;> exact hu.elim
  | _ => exact hu.elim

theorem record (h : Move S sch t sh o) :
    o.shared.record = sh.record ∨ t.pc = .publish ∧ o.shared.record = t.record := by
  cases h with
  | publish hpc =>
    by_cases hlt : t.record < sh.record
    · exact .inr ⟨hpc, if_pos hlt⟩
    · exact .inl (if_neg hlt)
  | _ => exact .inl rfl

/-- A record is given up only when `record_` is no larger. -/
theorem unpublished (h : Move S sch t sh o) (hu : t.Unpublished) :
    o.thread.Unpublished ∧ o.thread.record = t.record ∨ o.shared.record ≤ t.record := by
  cases h with
  | lower hpc h => exact .inl ⟨.inr rfl, rfl⟩
  | keep hpc h => exact .inr (not_lt.mp h)
  | publish hpc =>
    refine .inr ?_
    show (if t.record < sh.record then t.record else sh.record) ≤ t.record
    split
    exacts [le_rfl, not_lt.mp ‹_›]
  | _ => rcases hu with hu | hu <;> simp_all

end Move

end Thread

namespace Parallel

variable {N X : Type*} {S : Solver N} {sch : Scheduler} {c : Container} {cost : X → ValueType}
  {sols : N → Set X} {init : ValueType} {Q : ℕ → Prop}
  {st st' : State N sch.numThreads.toNat} {i : Fin sch.numThreads.toNat} {o : Outcome N}

/-- A value the search may report. -/
def Attained (S : Solver N) (cost : X → ValueType) (sols : N → Set X) (init v : ValueType) : Prop :=
  (v = init ∨ ∃ x ∈ sols S.initialNode, cost x = v) ∧ v ≤ init

theorem Attained.branch (C : S.Contract cost sols) {n : N} (hn : S.Explored n) {v : ValueType}
    {sol : Solution} (h : Attained S cost sols init v) :
    Attained S cost sols init (S.branch n v sol).record := by
  rcases C.record hn v sol with heq | ⟨hlt, hx⟩
  · rwa [heq]
  · exact ⟨.inr hx, hlt.le.trans h.2⟩

/-- The parallel search frontier. -/
structure Covered {T : ℕ} (S : Solver N) (cost : X → ValueType) (sols : N → Set X)
    (init : ValueType) (st : State N T) : Prop where
  explored : ∀ n ∈ st.pending, S.Explored n
  attained : Attained S cost sols init st.shared.record
  inUse : ∀ i, (st.threads i).InUse → Attained S cost sols init (st.threads i).record
  covered : ∀ x ∈ sols S.initialNode, cost x < st.shared.record →
    (∀ i, (st.threads i).Unpublished → cost x < (st.threads i).record) →
    ∃ n ∈ st.pending, x ∈ sols n

theorem Covered.apply (C : S.Contract cost sols) (hi : st.shared.interrupted = false)
    (hok : (st.threads i).Ok) (h : Covered S cost sols init st)
    (hmove : (st.threads i).Move S sch st.shared o) : Covered S cost sols init (st.apply i o) where
  explored n hn := by
    rcases hmove.ledger hi with ⟨hc, hr, _⟩ | ⟨m, hpc, rfl⟩
    · rw [pending_keep hok hmove hc hr] at hn
      exact h.explored n hn
    · obtain ⟨rest, hrest, hpend⟩ := pending_branch (S := S) hpc
      have hexp := h.explored
      rw [hrest] at hexp
      rw [hpend] at hn
      rcases Multiset.mem_add.mp hn with hn | hn
      · exact .child (hexp m (Multiset.mem_cons_self ..)) (Multiset.mem_coe.mp hn)
      · exact hexp n (Multiset.mem_cons_of_mem hn)
  attained := by
    rcases hmove.record with heq | ⟨hpc, heq⟩
    · exact heq.symm ▸ h.attained
    · exact heq.symm ▸ h.inUse i (by simp [Thread.InUse, hpc])
  inUse := by
    let P (t : Thread N) := t.InUse → Attained S cost sols init t.record
    refine State.forall_apply (P := P) (fun t ht hu => ?_) h.inUse fun hu => ?_
    · rw [Thread.notified_record]
      exact ht (Thread.notified_inUse hu)
    · rcases hmove.inUse hu with heq | ⟨hold, heq⟩ | ⟨n, hpc, heq⟩
      · exact heq.symm ▸ h.attained
      · exact heq.symm ▸ h.inUse i hold
      · have hn := h.explored n
          (Multiset.mem_of_le (st.thread_pending_le i) (Thread.mem_pending hpc))
        exact heq.symm ▸ (h.inUse i (by simp [Thread.InUse, hpc])).branch C hn
  covered x hx hlt hun := by
    let P (t : Thread N) := t.Unpublished → cost x < t.record
    have hP t : P t.notified → P t := fun ht hu => by simpa using ht hu.notified
    have hself : P o.thread := by
      rcases State.of_apply hP (hun i) with ⟨_, hj⟩ | ⟨hne, _⟩
      exacts [hj, absurd rfl hne]
    have hold : ∃ n ∈ st.pending, x ∈ sols n := by
      refine h.covered x hx (hlt.trans_le hmove.record_le) fun j hu => ?_
      rcases State.of_apply hP (hun j) with ⟨rfl, hj⟩ | ⟨_, hj⟩
      · rcases hmove.unpublished hu with ⟨hu', heq⟩ | hle
        · exact heq ▸ hj hu'
        · exact hlt.trans_le hle
      · exact hj hu
    rcases hmove.ledger hi with ⟨hc, hr, _⟩ | ⟨m, hpc, rfl⟩
    · rwa [pending_keep hok hmove hc hr]
    · obtain ⟨rest, hrest, hpend⟩ := pending_branch (S := S) hpc
      obtain ⟨n, hn, hxn⟩ := hold
      have hexp := h.explored m (hrest ▸ Multiset.mem_cons_self ..)
      rw [hpend]
      rw [hrest] at hn
      rcases Multiset.mem_cons.mp hn with rfl | hn
      · obtain ⟨k, hk, hxk⟩ := C.cover hexp _ _ x hxn (hself (.inl rfl))
        exact ⟨k, Multiset.mem_add.mpr (.inl hk), hxk⟩
      · exact ⟨n, Multiset.mem_add.mpr (.inr hn), hxn⟩

/-- Steps that touch neither the pending nodes nor the records. -/
theorem Covered.congr (h : Covered S cost sols init st) (hp : st'.pending = st.pending)
    (hr : st'.shared.record = st.shared.record)
    (hu : ∀ i, (st'.threads i).InUse →
      (st.threads i).InUse ∧ (st'.threads i).record = (st.threads i).record)
    (hun : ∀ i, (st.threads i).Unpublished →
      (st'.threads i).Unpublished ∧ (st'.threads i).record = (st.threads i).record) :
    Covered S cost sols init st' where
  explored := hp ▸ h.explored
  attained := hr ▸ h.attained
  inUse i hi := (hu i hi).2 ▸ h.inUse i (hu i hi).1
  covered x hx hlt hall := by
    rw [hp]
    exact h.covered x hx (hr ▸ hlt) fun i hi => (hun i hi).2 ▸ hall i (hun i hi).1

/-- The same for a thread that is replaced before it runs, or woken. -/
theorem Covered.of_update (h : Covered S cost sols init st) (main : Main N) {t : Thread N}
    (hp : (main.nodes + t.pending : Multiset N) = st.main.nodes + (st.threads i).pending)
    (hr : t.record = (st.threads i).record) (hu : t.InUse → (st.threads i).InUse)
    (hun : (st.threads i).Unpublished → t.Unpublished) :
    Covered S cost sols init
      { st with main := main, threads := Function.update st.threads i t } := by
  refine h.congr (State.pending_update hp) rfl (fun j hj => ?_) fun j hj => ?_
  · by_cases hji : j = i
    · subst hji; simp only [Function.update_self] at hj ⊢; exact ⟨hu hj, hr⟩
    · simp only [Function.update_of_ne hji] at hj ⊢; exact ⟨hj, trivial⟩
  · by_cases hji : j = i
    · subst hji; simp only [Function.update_self]; exact ⟨hun hj, hr⟩
    · simp only [Function.update_of_ne hji]; exact ⟨hj, trivial⟩

def MainCovered {T : ℕ} (S : Solver N) (cost : X → ValueType) (sols : N → Set X)
    (init : ValueType) (st : State N T) : Prop :=
  match st.main with
  | .first f => S.Frontier cost sols init f.nodes f.record
  | _ => Covered S cost sols init st

/-- The invariant of an uninterrupted run with a solver that meets the contract. -/
structure Searching (S : Solver N) (sch : Scheduler) (c : Container) (Q : ℕ → Prop)
    (cost : X → ValueType) (sols : N → Set X) (init : ValueType)
    (st : State N sch.numThreads.toNat) : Prop where
  running : Running S sch c Q st
  covered : MainCovered S cost sols init st

/-- Before the parallel part all pending nodes are with `solve`. -/
theorem Running.pending_first (h : Running S sch c Q st) {f : First N} (hm : st.main = .first f) :
    st.pending = f.nodes := by
  have hmain := h.inv.main
  simp only [MainOk, hm] at hmain
  have hun i : (st.threads i).Unhanded := by
    have hok := h.inv.ok i
    simp only [Thread.Ok, (hmain.1 i).1] at hok
    exact ⟨.inl (hmain.1 i).1, (hmain.1 i).2, hok⟩
  have hsum : st.sum Thread.pending = 0 := Finset.sum_eq_zero fun i _ => (hun i).pending
  simp [State.pending, hm, Main.nodes, hsum, hmain.2]

theorem Searching.covered_of (h : Searching S sch c Q cost sols init st)
    (hm : ∀ f, st.main ≠ .first f) : Covered S cost sols init st := by
  have hcov := h.covered
  unfold MainCovered at hcov
  split at hcov
  · next f hf => exact absurd hf (hm f)
  · exact hcov

theorem Searching.step (C : S.Contract cost sols) (hmin : 0 < sch.numMinimumNodes.toNat)
    (h : Searching S sch c Q cost sols init st) (hstep : Step S sch c st st') :
    Searching S sch c Q cost sols init st' := by
  refine ⟨h.running.step hmin hstep, ?_⟩
  have hmain := h.running.inv.main
  cases hstep with
  | branch hm _ hsize hp =>
    have hcov := h.covered
    simp only [MainCovered, hm] at hcov
    exact ((hcov.perm hp.perm).branch C _).perm (Container.pushAll_perm ..).symm
  | @stop f hm hstop =>
    have hcov := h.covered
    have hpend := h.running.pending_first hm
    simp only [MainCovered, MainOk, hm] at hcov hmain
    have hpend' : State.pending { st with
        main := .decide f.nodes
        shared := { st.shared with record := f.record } } = f.nodes := by
      simpa [State.pending, State.sum, hm, Main.nodes] using hpend
    refine ⟨fun n hn => ?_, ⟨hcov.attained, hcov.le_init⟩, fun i hi => ?_, fun x hx hlt _ => ?_⟩
    · exact hcov.explored n (Multiset.mem_coe.mp (hpend' ▸ hn))
    · exact absurd hi (by simp [Thread.InUse, (hmain.1 i).1])
    · obtain ⟨n, hn, hxn⟩ := hcov.covered x hx hlt
      exact ⟨n, hpend' ▸ Multiset.mem_coe.mpr hn, hxn⟩
  | skip hm hi => exact absurd hi (by simp [h.running.uninterrupted])
  | resize hm | handed hm | spawned hm | join hm | ret hm =>
    refine (h.covered_of (by simp [hm])).congr ?_ rfl (fun _ hi => ⟨hi, rfl⟩) fun _ hi => ⟨hi, rfl⟩
    simp [State.pending, State.sum, hm, Main.nodes]
  | @hand nodes rest _ n k hm hp hk =>
    have hcov := h.covered_of (by simp [hm])
    simp only [MainOk, hm] at hmain
    refine hcov.of_update (.hand rest _) ?_ rfl id id
    rw [hm]
    exact Thread.pending_push hp.perm _
  | @spawn k hm =>
    have hcov := h.covered_of (by simp [hm])
    simp only [MainOk, hm] at hmain
    have hidle := (hmain.2 k).mpr le_rfl
    refine hcov.of_update (.spawn (k + 1)) ?_ rfl (fun hu => hu.elim) fun hu => ?_
    · rw [hm, Thread.pending_start hidle]; rfl
    · simp [Thread.Unpublished, hidle] at hu
  | clean hm hp =>
    have hhand := h.running.handed
    simp only [MainHanded, hm] at hhand
    exact absurd hhand.1 hp.ne_nil
  | @thread i o hstep =>
    let P (st : State N sch.numThreads.toNat) :=
      Running S sch c Q st ∧ Covered S cost sols init st
    have hne (f) : st.main ≠ .first f := fun hm => by
      simp only [MainOk, hm] at hmain
      simp [Thread.step, (hmain.1 i).1] at hstep
    have hP : P (st.apply i o) := of_step (P := P) hmin
      (fun h hmove => ⟨h.1.apply hmove, h.2.apply C h.1.uninterrupted (h.1.inv.ok _) hmove⟩)
      (h.running.inv.ok i) ⟨h.running, h.covered_of hne⟩ hstep
    have hcov := hP.2
    unfold MainCovered
    split
    · next f hf => exact absurd hf (hne f)
    · exact hcov

theorem Searching.wake (h : Searching S sch c Q cost sols init st) (hwake : Wake st st') :
    Searching S sch c Q cost sols init st' := by
  refine ⟨h.running.wake hwake, ?_⟩
  have hcov := h.covered
  obtain ⟨i⟩ := hwake
  by_cases hm : ∃ f, st.main = .first f
  · obtain ⟨f, hf⟩ := hm
    simp only [MainCovered, hf] at hcov ⊢
    exact hcov
  · have hne : ∀ f, st.main ≠ .first f := not_exists.mp hm
    unfold MainCovered
    split
    · next f hf => exact absurd hf (hne f)
    · refine (h.covered_of hne).of_update st.main ?_ Thread.notified_record
        Thread.notified_inUse Thread.Unpublished.notified
      rw [Thread.notified_pending]

theorem Searching.preserved (C : S.Contract cost sols) (hmin : 0 < sch.numMinimumNodes.toNat) :
    Preserved (Uninterrupted S sch c) (Searching S sch c Q cost sols init) := by
  rintro st st' h (hstep | hwake)
  exacts [h.step C hmin hstep, h.wake hwake]

/-- Once `solve` has stored it, `record_` does not grow. -/
theorem Step.record_le (hmin : 0 < sch.numMinimumNodes.toNat) (h : Inv sch st)
    (hm : ∀ f, st.main ≠ .first f) (hstep : Step S sch c st st') :
    st'.shared.record ≤ st.shared.record := by
  cases hstep with
  | branch hf => exact absurd hf (hm _)
  | stop hf => exact absurd hf (hm _)
  | thread hstep =>
    let P (st' : State N sch.numThreads.toNat) := st'.shared.record ≤ st.shared.record
    exact of_step (P := P) hmin (fun hle hmove => hmove.record_le.trans hle) (h.ok _)
      (le_refl st.shared.record) hstep
  | _ => exact le_rfl

end Parallel

end Optimer
