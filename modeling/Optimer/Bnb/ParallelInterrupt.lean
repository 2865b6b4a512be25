import Optimer.Bnb.Interrupt
import Optimer.Bnb.ParallelMemory
import Optimer.Bnb.SerialInterrupt

/-! What `ParallelBNB::solve` returns when a signal stops it at some point: the value of a solution found
before, or the one it started from. No value that a thread has found is lost on the way. -/

namespace Optimer
open Transition

namespace Thread

variable {N : Type*} {S : Solver N} {sch : Scheduler} {t : Thread N} {sh : Shared N} {o : Outcome N}

/-- Only branching creates nodes. -/
theorem Move.grows (h : Move S sch t sh o) :
    (o.shared.created = sh.created ∧ ∃ gone, o.shared.released = sh.released + gone) ∨
      ∃ n, t.pc = .branch n ∧ o = t.branch S sh n := by
  cases h with
  | branch hpc => exact .inr ⟨_, hpc, rfl⟩
  | leave hpc => exact .inl ⟨rfl, _, rfl⟩
  | _ => exact .inl ⟨rfl, 0, (add_zero _).symm⟩

end Thread

/-- The record of `solve`: the local variable of its first phase, then `record_`. -/
def State.record {N : Type*} {T : ℕ} (st : State N T) : ValueType :=
  match st.main with
  | .first f => f.record
  | _ => st.shared.record

namespace Parallel

variable {N X : Type*} {S : Solver N} {sch : Scheduler} {c : Container} {cost : X → ValueType}
  {sols : N → Set X} {init v w : ValueType} {st st' : State N sch.numThreads.toNat}
  {i : Fin sch.numThreads.toNat} {o : Outcome N}

/-- The records of a state: that of `solve`, and what a thread has found and not compared with it yet. -/
inductive Found {T : ℕ} (st : State N T) : ValueType → Prop
  | record : Found st st.record
  | thread {i : Fin T} (hu : (st.threads i).Unpublished) : Found st (st.threads i).record

/-- What holds of the records at every point of a run, interrupted or not. -/
structure Honest {T : ℕ} (S : Solver N) (cost : X → ValueType) (sols : N → Set X) (init : ValueType)
    (st : State N T) : Prop where
  explored : ∀ n ∈ st.pending, S.Explored n
  attained : Attained S cost sols init st.record
  inUse : ∀ i, (st.threads i).InUse → Attained S cost sols init (st.threads i).record
  returned : ∀ sol, st.main = .returned sol → sol = { value := st.shared.record }

theorem Honest.found {T : ℕ} {st : State N T} (h : Honest S cost sols init st) (hw : Found st w) :
    Attained S cost sols init w := by
  cases hw with
  | record => exact h.attained
  | @thread i hu =>
    refine h.inUse i ?_
    rcases hu with hu | hu <;> simp [Thread.InUse, hu]

theorem record_of_ne_first {T : ℕ} {st : State N T} (hm : ∀ f, st.main ≠ .first f) :
    st.record = st.shared.record := by
  unfold State.record
  split
  · next f hf => exact absurd hf (hm f)
  · rfl

/-- A thread only moves in the parallel part. -/
theorem Inv.main_of_move (h : Inv sch st) (hmove : (st.threads i).Move S sch st.shared o) :
    (∀ f, st.main ≠ .first f) ∧ ∀ sol, st.main ≠ .returned sol := by
  obtain ⟨hidle, _, hexited, _⟩ := hmove.pc
  have hmain := h.main
  constructor
  · intro f hf
    simp only [MainOk, hf] at hmain
    exact hidle (hmain.1 i).1
  · intro sol hsol
    simp only [MainOk, hsol] at hmain
    rcases hmain with hun | hall
    · exact hidle (hun.1 i).1
    · exact hexited (hall i)

theorem Honest.apply (C : S.Contract cost sols) (hinv : Inv sch st) (h : Honest S cost sols init st)
    (hmove : (st.threads i).Move S sch st.shared o) : Honest S cost sols init (st.apply i o) := by
  obtain ⟨hfirst, hret⟩ := hinv.main_of_move hmove
  have hatt : Attained S cost sols init st.shared.record := record_of_ne_first hfirst ▸ h.attained
  refine ⟨fun n hn => ?_, ?_, ?_, fun sol hsol => absurd hsol (hret sol)⟩
  · have hinv' := hinv.apply hmove
    rcases hmove.grows with ⟨hc, gone, hr⟩ | ⟨m, hpc, rfl⟩
    · have hpend := hinv.pending_eq hinv' 0 gone (by simpa using hc) hr
      rw [add_zero] at hpend
      exact h.explored n (hpend ▸ Multiset.mem_add.mpr (.inl hn))
    · obtain ⟨rest, hrest, hpend⟩ := pending_branch (S := S) hpc
      rw [hpend] at hn
      rcases Multiset.mem_add.mp hn with hn | hn
      · exact .child (h.explored m (hrest ▸ Multiset.mem_cons_self ..)) (Multiset.mem_coe.mp hn)
      · exact h.explored n (hrest ▸ Multiset.mem_cons_of_mem hn)
  · have hrec : (st.apply i o).record = o.shared.record := record_of_ne_first hfirst
    rw [hrec]
    rcases hmove.record with heq | ⟨hpc, heq⟩
    · exact heq.symm ▸ hatt
    · exact heq.symm ▸ h.inUse i (by simp [Thread.InUse, hpc])
  · let P (t : Thread N) := t.InUse → Attained S cost sols init t.record
    refine State.forall_apply (P := P) (fun t ht hu => ?_) h.inUse fun hu => ?_
    · rw [Thread.notified_record]
      exact ht (Thread.notified_inUse hu)
    · rcases hmove.inUse hu with heq | ⟨hold, heq⟩ | ⟨n, hpc, heq⟩
      · exact heq.symm ▸ hatt
      · exact heq.symm ▸ h.inUse i hold
      · have hn := h.explored n (Multiset.mem_of_le (st.thread_pending_le i) (Thread.mem_pending hpc))
        exact heq.symm ▸ (h.inUse i (by simp [Thread.InUse, hpc])).branch C hn

/-- Steps of `solve` itself between the first phase and the return. -/
theorem Honest.congr {T : ℕ} {st st' : State N T} (h : Honest S cost sols init st) (hp : st'.pending ⊆ st.pending)
    (hr : st'.record = st.record) (hu : ∀ i, (st'.threads i).InUse →
      (st.threads i).InUse ∧ (st'.threads i).record = (st.threads i).record)
    (hret : ∀ sol, st'.main = .returned sol → sol = { value := st'.shared.record }) :
    Honest S cost sols init st' where
  explored n hn := h.explored n (hp hn)
  attained := hr ▸ h.attained
  inUse i hi := (hu i hi).2 ▸ h.inUse i (hu i hi).1
  returned := hret

theorem Honest.step (C : S.Contract cost sols) (hmin : 0 < sch.numMinimumNodes.toNat) (hinv : Inv sch st)
    (h : Honest S cost sols init st) (hstep : Step S sch c st st') : Honest S cost sols init st' := by
  have hinv' := hstep.inv hmin hinv
  have hmain := hinv.main
  cases hstep with
  | @branch f n rest hm hi hsize hp =>
    have hatt : Attained S cost sols init f.record := by
      have hrec := h.attained
      rwa [State.record, hm] at hrec
    have hn : n ∈ st.pending := by
      simp [State.pending, hm, Main.nodes, hp.perm.mem_iff.mpr List.mem_cons_self]
    refine ⟨fun m hmem => ?_, hatt.branch C (h.explored n hn), h.inUse, fun sol hsol => by cases hsol⟩
    have hpend := hinv.pending_eq hinv' _ _ rfl rfl
    rw [← Multiset.singleton_add, ← add_assoc, ← add_assoc] at hpend
    have hmem' : m ∈ st.pending + (S.branch n f.record f.sol).nodes := by
      rw [add_right_cancel hpend]
      exact Multiset.mem_add.mpr (.inl hmem)
    rcases Multiset.mem_add.mp hmem' with hold | hnew
    · exact h.explored m hold
    · exact .child (h.explored n hn) (Multiset.mem_coe.mp hnew)
  | stop hm =>
    refine h.congr ?_ ?_ (fun _ hu => ⟨hu, rfl⟩) fun sol hsol => by cases hsol
    · simp [State.pending, State.sum, hm, Main.nodes]
    · simp [State.record, hm]
  | skip hm | resize hm | handed hm | spawned hm | join hm =>
    refine h.congr ?_ ?_ (fun _ hu => ⟨hu, rfl⟩) fun sol hsol => by cases hsol
    · simp [State.pending, State.sum, hm, Main.nodes]
    · simp [State.record, hm]
  | @hand nodes rest _ n k hm hp hk =>
    simp only [MainOk, hm] at hmain
    have hpend := hinv.pending_eq hinv' 0 0 (add_zero _).symm (add_zero _).symm
    rw [add_zero, add_zero] at hpend
    refine h.congr (Multiset.subset_of_le hpend.symm.le) ?_ (fun j hu => ?_) fun sol hsol => by cases hsol
    · simp [State.record, hm]
    · by_cases hjk : j = k
      · subst hjk
        simp [Thread.InUse, hmain j] at hu
      · simpa [hjk] using hu
  | @spawn k hm =>
    have hpend := hinv.pending_eq hinv' 0 0 (add_zero _).symm (add_zero _).symm
    rw [add_zero, add_zero] at hpend
    refine h.congr (Multiset.subset_of_le hpend.symm.le) ?_ (fun j hu => ?_) fun sol hsol => by cases hsol
    · simp [State.record, hm]
    · by_cases hjk : j = k
      · subst hjk
        simp [Thread.InUse] at hu
      · simpa [hjk] using hu
  | @clean nodes rest n hm hp =>
    have hpend := hinv.pending_eq hinv' 0 {n} (add_zero _).symm rfl
    rw [add_zero] at hpend
    refine h.congr (fun m hmem => ?_) ?_ (fun _ hu => ⟨hu, rfl⟩) fun sol hsol => by cases hsol
    · rw [hpend]
      exact Multiset.mem_add.mpr (.inl hmem)
    · simp [State.record, hm]
  | ret hm =>
    refine h.congr ?_ ?_ (fun _ hu => ⟨hu, rfl⟩) fun sol hsol => ?_
    · simp [State.pending, State.sum, hm, Main.nodes]
    · simp [State.record, hm]
    · cases hsol
      rfl
  | thread hstep =>
    let P (st : State N sch.numThreads.toNat) := Inv sch st ∧ Honest S cost sols init st
    have hP : P (st.apply _ _) := of_step (P := P) hmin (fun h hmove => ⟨h.1.apply hmove, h.2.apply C h.1 hmove⟩)
      (hinv.ok _) ⟨hinv, h⟩ hstep
    exact hP.2

theorem Honest.preserved (C : S.Contract cost sols) (hmin : 0 < sch.numMinimumNodes.toNat) :
    Preserved (Interruptible S sch c) fun st => Inv sch st ∧ Honest S cost sols init st := by
  intro st st' h hstep
  refine ⟨hstep.inv hmin h.1, ?_⟩
  cases hstep with
  | inl hstep => exact h.2.step C hmin h.1 hstep
  | inr hother =>
    cases hother with
    | inl hwake =>
      have hinv' := hwake.inv h.1
      cases hwake with
      | wake i =>
        have hpend := h.1.pending_eq hinv' 0 0 (add_zero _).symm (add_zero _).symm
        rw [add_zero, add_zero] at hpend
        refine h.2.congr (Multiset.subset_of_le hpend.symm.le) rfl (fun j hu => ?_) h.2.returned
        by_cases hji : j = i
        · subst hji
          simp only [Function.update_self] at hu ⊢
          exact ⟨Thread.notified_inUse hu, Thread.notified_record⟩
        · simpa [hji] using hu
    | inr hsignal =>
      cases hsignal with
      | signal => exact h.2.congr (fun _ hn => hn) rfl (fun _ hu => ⟨hu, rfl⟩) h.2.returned

/-! ### What has been found is kept -/

/-- Whatever a move gives up, `record_` is no larger. -/
theorem Found.apply (hinv : Inv sch st) (hmove : (st.threads i).Move S sch st.shared o) (hw : Found st w) :
    ∃ v, v ≤ w ∧ Found (st.apply i o) v := by
  obtain ⟨hfirst, _⟩ := hinv.main_of_move hmove
  have hrec : (st.apply i o).record = o.shared.record := record_of_ne_first hfirst
  cases hw with
  | record =>
    refine ⟨_, ?_, .record⟩
    rw [hrec, record_of_ne_first hfirst]
    exact hmove.record_le
  | @thread j hu =>
    let P (t : Thread N) := t.Unpublished ∧ t.record = (st.threads j).record
    have hfound (k) (hk : P ((st.apply i o).threads k)) : ∃ v, v ≤ (st.threads j).record ∧ Found (st.apply i o) v :=
      ⟨_, hk.2.le, .thread hk.1⟩
    have hnot (t) (ht : P t) : P t.notified := ⟨ht.1.notified, Thread.notified_record.trans ht.2⟩
    by_cases hji : j = i
    · subst hji
      rcases hmove.unpublished hu with hthread | hle
      · exact hfound j (State.apply_of hnot j (fun _ => hthread) fun hne => absurd rfl hne)
      · exact ⟨_, hrec.trans_le hle, .record⟩
    · exact hfound j (State.apply_of hnot j (fun heq => absurd heq hji) fun _ => ⟨hu, rfl⟩)

theorem Found.congr {T : ℕ} {st st' : State N T} (hw : Found st w) (hrec : st'.record ≤ st.record) (hun : ∀ i,
    (st.threads i).Unpublished → (st'.threads i).Unpublished ∧ (st'.threads i).record = (st.threads i).record) :
    ∃ v, v ≤ w ∧ Found st' v := by
  cases hw with
  | record => exact ⟨_, hrec, .record⟩
  | @thread i hu => exact ⟨_, (hun i hu).2.le, .thread (hun i hu).1⟩

theorem Found.step (C : S.Contract cost sols) (hmin : 0 < sch.numMinimumNodes.toNat) (hinv : Inv sch st)
    (h : Honest S cost sols init st) (hstep : Step S sch c st st') (hw : Found st w) :
    ∃ v, v ≤ w ∧ Found st' v := by
  have hmain := hinv.main
  cases hstep with
  | @branch f n rest hm hi hsize hp =>
    refine hw.congr ?_ fun _ hu => ⟨hu, rfl⟩
    have hn : n ∈ st.pending := by
      simp [State.pending, hm, Main.nodes, hp.perm.mem_iff.mpr List.mem_cons_self]
    simp only [State.record, hm]
    exact C.record_le (h.explored n hn) _ _
  | stop hm | skip hm | resize hm | handed hm | spawned hm | join hm | clean hm | ret hm =>
    exact hw.congr (by simp [State.record, hm]) fun _ hu => ⟨hu, rfl⟩
  | @hand nodes rest _ n k hm hp hk =>
    simp only [MainOk, hm] at hmain
    refine hw.congr (by simp [State.record, hm]) fun j hu => ?_
    have hjk : j ≠ k := fun heq => by simp [Thread.Unpublished, heq, hmain k] at hu
    simpa [hjk] using hu
  | @spawn k hm =>
    simp only [MainOk, hm] at hmain
    refine hw.congr (by simp [State.record, hm]) fun j hu => ?_
    have hjk : j ≠ k := fun heq => by simp [Thread.Unpublished, heq, (hmain.2 k).mpr le_rfl] at hu
    simpa [hjk] using hu
  | thread hstep =>
    let P (st' : State N sch.numThreads.toNat) := Inv sch st' ∧ ∃ v, v ≤ w ∧ Found st' v
    refine (of_step (P := P) hmin (fun h hmove => ⟨h.1.apply hmove, ?_⟩) (hinv.ok _) ⟨hinv, w, le_rfl, hw⟩ hstep).2
    obtain ⟨hinv, v, hv, hfound⟩ := h
    obtain ⟨u, hu, hfound⟩ := hfound.apply hinv hmove
    exact ⟨u, hu.trans hv, hfound⟩

theorem Found.kept (C : S.Contract cost sols) (hmin : 0 < sch.numMinimumNodes.toNat) (hinv : Inv sch st)
    (h : Honest S cost sols init st) (hr : Reaches (Interruptible S sch c) st st') (hw : Found st w) :
    ∃ v, v ≤ w ∧ Found st' v := by
  induction hr with
  | refl => exact ⟨w, le_rfl, hw⟩
  | @tail mid last hr hstep ih =>
    obtain ⟨v, hv, hfound⟩ := ih
    obtain ⟨hinv, hmid⟩ := (Honest.preserved C hmin).reaches ⟨hinv, h⟩ hr
    have hnext : ∃ u, u ≤ v ∧ Found last u := by
      cases hstep with
      | inl hstep => exact hfound.step C hmin hinv hmid hstep
      | inr hother =>
        cases hother with
        | inl hwake =>
          cases hwake with
          | wake i =>
            refine hfound.congr le_rfl fun j hu => ?_
            by_cases hji : j = i
            · subst hji
              simp only [Function.update_self]
              exact ⟨hu.notified, Thread.notified_record⟩
            · simpa [hji] using hu
        | inr hsignal =>
          cases hsignal with
          | signal => exact hfound.congr le_rfl fun _ hu => ⟨hu, rfl⟩
    obtain ⟨u, hu, hfound⟩ := hnext
    exact ⟨u, hu.trans hv, hfound⟩

/-- At the return only the value returned is left. -/
theorem Found.le_returned (hinv : Inv sch st) (h : Honest S cost sols init st) {sol : Solution}
    (hm : st.main = .returned sol) (hw : Found st w) : w = sol.value := by
  have hmain := hinv.main
  simp only [MainOk, hm] at hmain
  cases hw with
  | record => rw [h.returned sol hm, record_of_ne_first (by simp [hm])]
  | @thread i hu =>
    exfalso
    rcases hmain with hun | hall
    · simp [Thread.Unpublished, (hun.1 i).1] at hu
    · simp [Thread.Unpublished, hall i] at hu

/-! ### The value returned -/

theorem Interruptible.of_uninterrupted (hmin : 0 < sch.numMinimumNodes.toNat) (hinv : Inv sch st)
    (hstep : Interruptible S sch c st st') (hi : st'.shared.interrupted = false) :
    st.shared.interrupted = false ∧ Uninterrupted S sch c st st' := by
  cases hstep with
  | inl hstep =>
    refine ⟨?_, .inl hstep⟩
    cases hstep with
    | thread hstep =>
      let P (st' : State N sch.numThreads.toNat) := st'.shared.interrupted = false → st.shared.interrupted = false
      exact of_step (P := P) hmin (fun h hmove hi => h (hmove.interrupted ▸ hi)) (hinv.ok _) id hstep hi
    | _ => exact hi
  | inr hother =>
    cases hother with
    | inl hwake =>
      refine ⟨?_, .inr hwake⟩
      cases hwake
      exact hi
    | inr hsignal =>
      cases hsignal
      cases hi

theorem reaches_uninterrupted (hmin : 0 < sch.numMinimumNodes.toNat) (hinv : Inv sch st)
    (hr : Reaches (Interruptible S sch c) st st') (hi : st'.shared.interrupted = false) :
    Reaches (Uninterrupted S sch c) st st' := by
  induction hr with
  | refl => exact .refl
  | @tail mid _ hr hstep ih =>
    have hmid : Inv sch mid := Preserved.reaches (fun _ _ h hstep => hstep.inv hmin h) hinv hr
    obtain ⟨hi', hun⟩ := hstep.of_uninterrupted hmin hmid hi
    exact (ih hi').tail hun

theorem searching_start (hrank : S.rank > minRankValue) (record : ValueType) :
    Searching S sch c (fun _ => True) cost sols (min record S.initialSolution.value)
      (start S sch (construct sch) record) :=
  .start hrank rfl rfl rfl fun _ _ _ => trivial

theorem Honest.start (hrank : S.rank > minRankValue) (record : ValueType) :
    Honest S cost sols (min record S.initialSolution.value) (Parallel.start S sch (construct sch) record) := by
  have hsearch : Searching S sch .lifo (fun _ => True) cost sols (min record S.initialSolution.value) _ :=
    searching_start hrank record
  refine ⟨hsearch.explored, ?_, ?_, ?_⟩
  · have hfront := hsearch.covered
    rw [Parallel.start, if_pos hrank] at hfront ⊢
    exact ⟨hfront.attained, hfront.le_init⟩
  · rw [Parallel.start, if_pos hrank]
    exact fun i hu => hu.elim
  · rw [Parallel.start, if_pos hrank]
    intro sol hsol
    cases hsol

/-- A signal may stop `solve` at any point. What it returns then is the value of a solution of the root or
the one it started from, none of the records of earlier states is smaller, and without a signal it is
optimal. -/
theorem interrupted_record (C : S.Contract cost sols) (hrank : S.rank > minRankValue)
    (hmin : 1 ≤ sch.numMinimumNodes.toNat) (c : Container) (record : ValueType)
    {st st' : State N sch.numThreads.toNat}
    (hr : Reaches (Interruptible S sch c) (start S sch (construct sch) record) st)
    (hr' : Reaches (Interruptible S sch c) st st') {sol : Solution} (hm : st'.main = .returned sol) :
    sol.route = [] ∧
    S.Salvaged cost sols (min record S.initialSolution.value) st'.shared.interrupted sol.value ∧
    ∀ w, Found st w → sol.value ≤ w := by
  have hstart : Inv sch (start S sch (construct sch : Shared N) record) := .start S rfl rfl rfl record
  have hpres : Preserved (Interruptible S sch c) fun st =>
      Inv sch st ∧ Honest S cost sols (min record S.initialSolution.value) st := Honest.preserved C hmin
  obtain ⟨hinv, hst⟩ := hpres.reaches ⟨hstart, .start hrank record⟩ hr
  obtain ⟨hinv', hst'⟩ := hpres.reaches ⟨hinv, hst⟩ hr'
  have hne : ∀ f, st'.main ≠ .first f := by simp [hm]
  have hatt : Attained S cost sols (min record S.initialSolution.value) sol.value := by
    rw [hst'.returned sol hm, ← record_of_ne_first hne]
    exact hst'.attained
  refine ⟨by rw [hst'.returned sol hm], ⟨hatt.1, hatt.2, fun hi => ?_⟩, fun w hw => ?_⟩
  · have hrun := reaches_uninterrupted hmin hstart (hr.trans hr') hi
    exact ((Searching.preserved C hmin).reaches (searching_start hrank record) hrun).optimal hm
  · obtain ⟨v, hv, hfound⟩ := hw.kept C hmin hinv hst hr'
    exact (hfound.le_returned hinv' hst' hm).symm.trans_le hv

/-- `solve` gives up in its first phase. -/
theorem reaches_signalled (S : Solver N) (sch : Scheduler) (st : State N sch.numThreads.toNat) {f : First N} {n : N}
    (hm : st.main = .first f) (hn : f.nodes = [n]) :
    ∃ st' sol, Reaches (Interruptible S sch .lifo) st st' ∧ st'.main = .returned sol := by
  have hsignal : Interruptible S sch .lifo st _ := .inr (.inr .signal)
  have hstop : Step S sch .lifo { st with shared := { st.shared with interrupted := true } } _ :=
    .stop hm (.inr (.inr rfl))
  rw [hn] at hstop
  have hr := ((Relation.ReflTransGen.single hsignal).tail (.inl hstop)).tail (.inl (.skip rfl rfl))
  exact ⟨_, _, (hr.tail (.inl (.clean rfl rfl))).tail (.inl (.ret rfl)), rfl⟩

theorem interrupted_record_pair : ∃ st' sol,
    Reaches (Interruptible pairSolver pairScheduler .lifo)
      (start pairSolver pairScheduler (construct pairScheduler) mVal) st' ∧ st'.main = .returned sol ∧
    pairSolver.Salvaged pairCost pairSols (min mVal pairSolver.initialSolution.value) st'.shared.interrupted
      sol.value := by
  obtain ⟨st', sol, hr, hm⟩ := reaches_signalled pairSolver pairScheduler
    (start pairSolver pairScheduler (construct pairScheduler) mVal) rfl rfl
  exact ⟨st', sol, hr, hm,
    (interrupted_record pairSolver_contract (by decide) (by decide) .lifo mVal .refl hr hm).2.1⟩

end Parallel

end Optimer
