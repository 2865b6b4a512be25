import Optimer.Bnb.Handing

/-! Runs of `ParallelBNB::solve` that a signal may interrupt. A thread that leaves its loop on the
flag does not tell the scheduler. No harm comes of it where all threads leave together. -/

namespace Optimer
open Transition

namespace Thread

variable {N : Type*} {S : Solver N} {sch : Scheduler} {t : Thread N} {sh : Shared N}
  {o : Outcome N}

/-- The next step leaves the loop of `start`. -/
def Leaves (t : Thread N) (sh : Shared N) : Prop :=
  t.pc = .loop ∧ (t.nodes = [] ∨ sh.interrupted = true)

/-- The thread has not been started, is at the test of its loop or at its end: it has nothing to do with
the scheduler any more once the flag is set. -/
def Between (t : Thread N) : Prop :=
  t.pc = .idle ∨ t.pc = .start ∨ t.pc = .loop ∨ t.pc = .exited

instance [DecidableEq N] : Decidable (t.Leaves sh) := inferInstanceAs (Decidable (_ ∧ _))

instance [DecidableEq N] : Decidable t.Between := inferInstanceAs (Decidable (_ ∨ _))

/-- The thread has left its loop without having been told that no work is left. -/
def Untold (t : Thread N) : Prop := t.pc = .exited ∧ t.counted = false

theorem Between.notified (h : t.Between) : t.notified = t := by
  unfold Thread.notified
  split
  · next hpc => simp [Between, hpc] at h
  · rfl

theorem Untold.of_notified (h : t.notified.Untold) : t.Untold := by
  obtain ⟨hpc, hc⟩ := h
  rw [notified_counted] at hc
  rcases t.notified_pc with heq | ⟨_, heq⟩
  · exact ⟨heq.symm.trans hpc, hc⟩
  · exact absurd (heq.symm.trans hpc) (by simp)

theorem wait_ne_exited : (t.wait sch sh).thread.pc ≠ .exited := by
  unfold wait take
  split
  · dsimp only
    split <;> simp
  · simp

/-- A step to the end is the one that leaves the loop. -/
theorem step_exited (h : t.step S sch sh = some o) (he : o.thread.pc = .exited) :
    t.Leaves sh ∧ o = t.leave sh := by
  cases hpc : t.pc with
  | lock =>
    simp only [step, hpc, Option.some.injEq] at h
    exact absurd he (h ▸ wait_ne_exited)
  | enter =>
    simp only [step, hpc, Option.some.injEq] at h
    subst h
    cases sch with
    | giving p => exact absurd he wait_ne_exited
    | requesting p => simp [enter, announce] at he
  | loop =>
    simp only [step, hpc] at h
    split at h <;> obtain rfl := Option.some.inj h
    · simp at he
    · next hne =>
      refine ⟨⟨hpc, ?_⟩, rfl⟩
      by_contra hno
      obtain ⟨hn, hi⟩ := not_or.mp hno
      obtain ⟨n, nodes, hcons⟩ := List.exists_cons_of_ne_nil hn
      exact hne n nodes hcons (Bool.not_eq_true _ ▸ hi)
  | idle | blocked | exited => simp [step, hpc] at h
  | check | schedule | empty =>
    simp only [step, hpc, Option.some.injEq] at h
    subst h
    dsimp only at he
    split at he <;> simp at he
  | _ =>
    simp only [step, hpc, Option.some.injEq] at h
    subst h
    simp [begin, branch, publish, send] at he

/-- The next step of a thread that has no nodes or finds the flag set, between two rounds of its loop. -/
theorem Between.step (hb : t.Between) (hover : sh.interrupted = true ∨ t.pending = 0)
    (h : t.step S sch sh = some o) :
    o.thread.Between ∧ (t.pending = 0 → o.thread.pending = 0) ∧ o.notifyAll = false ∧
      o.shared.queueSets = sh.queueSets ∧ o.shared.interrupted = sh.interrupted := by
  rcases hb with hpc | hpc | hpc | hpc
  · simp [Thread.step, hpc] at h
  · simp only [Thread.step, hpc, Option.some.injEq] at h
    subst h
    refine ⟨.inr (.inr (.inl rfl)), fun hp => ?_, rfl, rfl, rfl⟩
    simp only [pending, hpc, add_zero, add_eq_zero, Multiset.coe_eq_zero] at hp
    simp [begin, pending, hp.1, Container.pushAll]
  · simp only [Thread.step, hpc] at h
    split at h
    · next n nodes hn hi =>
      rcases hover with hflag | hp
      · exact absurd (hflag.symm.trans hi) (by simp)
      · simp [pending, hn] at hp
    · obtain rfl := Option.some.inj h
      refine ⟨.inr (.inr (.inr rfl)), fun hp => ?_, rfl, rfl, rfl⟩
      simp only [pending, hpc, add_zero, add_eq_zero, Multiset.coe_eq_zero] at hp
      simp [leave, pending, hp.1]
  · simp [Thread.step, hpc] at h

end Thread

namespace Parallel

variable {N : Type*} {S : Solver N} {sch : Scheduler} {c : Container}
  {st st' : State N sch.numThreads.toNat} {i : Fin sch.numThreads.toNat} {o : Outcome N}

/-- A step of a run during which the signal may arrive. -/
def Interruptible (S : Solver N) (sch : Scheduler) (c : Container)
    (st st' : State N sch.numThreads.toNat) : Prop :=
  Step S sch c st st' ∨ Wake st st' ∨ Signal st st'

/-- All threads are about to leave their loops: each is between two rounds, the queue is empty, and the
flag is set or no thread has nodes. -/
structure Together {T : ℕ} (st : State N T) : Prop where
  between : ∀ i, (st.threads i).Between
  queue : st.shared.queueSets = []
  ended : st.shared.interrupted = true ∨ ∀ i, (st.threads i).pending = 0

theorem Together.congr {T : ℕ} {st st' : State N T} (h : Together st) (hthreads : st'.threads = st.threads)
    (hqueue : st'.shared.queueSets = st.shared.queueSets)
    (hflag : st.shared.interrupted = true → st'.shared.interrupted = true) : Together st' where
  between := hthreads ▸ h.between
  queue := hqueue.trans h.queue
  ended := h.ended.imp hflag fun hall => hthreads ▸ hall

/-- A thread that leaves its loop has been told that no work is left, or all threads leave together. -/
def Announced (S : Solver N) (sch : Scheduler) (st st' : State N sch.numThreads.toNat) : Prop :=
  ∀ i o, (st.threads i).step S sch st.shared = some o → st' = st.apply i o →
    (st.threads i).Leaves st.shared → (st.threads i).counted = false → Together st

/-- A step of a run in which threads leave announced. -/
def AnnouncedStep (S : Solver N) (sch : Scheduler) (c : Container)
    (st st' : State N sch.numThreads.toNat) : Prop :=
  Interruptible S sch c st st' ∧ Announced S sch st st'

/-- Nobody waits for threads that are gone, and nothing is left behind. -/
structure InterruptSafe (sch : Scheduler) (st : State N sch.numThreads.toNat) : Prop where
  live : ¬ ∃ i, (st.threads i).pc = .blocked ∧ ¬ Thread.Ready sch st.shared ∧
    ∀ j, j ≠ i → (st.threads j).pc = .exited ∨ (st.threads j).pc = .blocked
  left : (∀ i, (st.threads i).pc = .exited) → st.shared.queueSets = [] ∧
    st.shared.created = st.shared.released
  returned : ∀ sol, st.main = .returned sol → st.shared.queueSets = [] ∧
    st.shared.created = st.shared.released

theorem Interruptible.inv (hmin : 0 < sch.numMinimumNodes.toNat) (h : Inv sch st)
    (hstep : Interruptible S sch c st st') : Inv sch st' := by
  rcases hstep with hstep | hwake | hsignal
  exacts [hstep.inv hmin h, hwake.inv h, hsignal.inv h]

namespace Inv

theorem pending_exited (h : Inv sch st) (hall : ∀ i, (st.threads i).pc = .exited) :
    st.sum Thread.pending = 0 := by
  refine Finset.sum_eq_zero fun i _ => ?_
  have hok := h.ok i
  simp only [Thread.Ok, hall i] at hok
  simp [Thread.pending, hall i, hok.1, hok.2]

theorem pending_unstarted (h : Inv sch st) (hun : Unstarted st) :
    st.sum Thread.pending = 0 := by
  refine Finset.sum_eq_zero fun i _ => ?_
  have hok := h.ok i
  simp only [Thread.Ok, (hun.1 i).1] at hok
  simp [Thread.pending, (hun.1 i).1, (hun.1 i).2, hok.1]

theorem main_nodes (h : Inv sch st) (hT : 0 < sch.numThreads.toNat)
    (hall : ∀ i, (st.threads i).pc = .exited) : st.main.nodes = [] := by
  have hmain := h.main
  have hne : (st.threads ⟨0, hT⟩).pc ≠ .idle := by simp [hall]
  cases hm : st.main with
  | first f | decide nodes =>
    simp only [MainOk, hm] at hmain
    exact absurd (hmain.1 _).1 hne
  | hand nodes k =>
    simp only [MainOk, hm] at hmain
    exact absurd (hmain _) hne
  | clean nodes =>
    simp only [MainOk, hm] at hmain
    rcases hmain with hun | ⟨hnil, _⟩
    exacts [absurd (hun.1 _).1 hne, hnil]
  | spawn k | join | returned sol => rfl

/-- Once all threads have left, only the queue can hold nodes. -/
theorem balanced_exited (h : Inv sch st) (hT : 0 < sch.numThreads.toNat)
    (hall : ∀ i, (st.threads i).pc = .exited) (hq : st.shared.queueSets = []) :
    st.shared.created = st.shared.released := by
  rw [h.balance, State.pending, h.pending_exited hall, h.main_nodes hT hall, hq]
  simp

/-- A blocked thread that nobody can wake has its predicate false. -/
theorem not_ready (h : Inv sch st) (hi : (st.threads i).pc = .blocked)
    (hall : ∀ j, (st.threads j).pc = .exited ∨ (st.threads j).pc = .blocked) :
    ¬ Thread.Ready sch st.shared := by
  obtain ⟨hq, hlock⟩ := h.blocked i hi
  rintro (hne | hf)
  · exact hne hq
  · obtain ⟨j, hj⟩ := hlock hf
    rcases hall j with h' | h' <;> simp [hj] at h'

/-- It is enough to look at the threads and the queue. -/
theorem interruptSafe_iff (h : Inv sch st) (hT : 0 < sch.numThreads.toNat) :
    InterruptSafe sch st ↔
      ((∀ i, (st.threads i).pc = .exited ∨ (st.threads i).pc = .blocked) →
        (∀ i, (st.threads i).pc = .exited) ∧ st.shared.queueSets = []) := by
  constructor
  · intro hs hall
    have hex i : (st.threads i).pc = .exited := by
      by_contra hne
      have hi := (hall i).resolve_left hne
      exact hs.live ⟨i, hi, h.not_ready hi hall, fun j _ => hall j⟩
    exact ⟨hex, (hs.left hex).1⟩
  · intro hs
    have hleft (hall : ∀ i, (st.threads i).pc = .exited) : st.shared.queueSets = [] ∧
        st.shared.created = st.shared.released :=
      have hq := (hs fun i => .inl (hall i)).2
      ⟨hq, h.balanced_exited hT hall hq⟩
    refine ⟨?_, hleft, fun sol hm => ?_⟩
    · rintro ⟨i, hi, _, hothers⟩
      have hall j : (st.threads j).pc = .exited ∨ (st.threads j).pc = .blocked := by
        by_cases hji : j = i
        · exact .inr (hji ▸ hi)
        · exact hothers j hji
      exact absurd ((hs hall).1 i) (by simp [hi])
    · have hmain := h.main
      simp only [MainOk, hm] at hmain
      rcases hmain with hun | hall
      · refine ⟨hun.2, ?_⟩
        rw [h.balance, State.pending, h.pending_unstarted hun, hun.2, hm]
        simp [Main.nodes]
      · exact hleft hall

end Inv

/-! ### Runs in which threads leave announced -/

/-- Whoever has left was told so, or all threads are leaving and one has gone already. -/
def Leaving (sch : Scheduler) (st : State N sch.numThreads.toNat) : Prop :=
  (∀ i, ¬ (st.threads i).Untold) ∨ Together st ∧ ∃ i, (st.threads i).pc = .exited

theorem Together.wake (h : Together st) (hwake : Wake st st') : st' = st := by
  obtain ⟨i⟩ := hwake
  rw [(h.between i).notified, Function.update_eq_self]

theorem Together.thread (h : Together st) (hstep : (st.threads i).step S sch st.shared = some o) :
    Together (st.apply i o) := by
  obtain ⟨hb, hp, hn, hq, hi⟩ := (h.between i).step (h.ended.imp_right fun hall => hall i) hstep
  have hself : (st.apply i o).threads i = o.thread := State.apply_self hn
  have hother {j} (hji : j ≠ i) : (st.apply i o).threads j = st.threads j := State.apply_of_ne hji hn
  refine ⟨fun j => ?_, hq.trans h.queue, ?_⟩
  · by_cases hji : j = i
    · subst hji; exact hself ▸ hb
    · exact hother hji ▸ h.between j
  · rcases h.ended with hflag | hall
    · exact .inl (hi.trans hflag)
    · refine .inr fun j => ?_
      by_cases hji : j = i
      · subst hji; exact hself ▸ hp (hall j)
      · exact hother hji ▸ hall j

/-- A thread that is at its end stays there. -/
theorem exited_apply (hstep : (st.threads i).step S sch st.shared = some o) {j : Fin sch.numThreads.toNat}
    (hj : (st.threads j).pc = .exited) : ((st.apply i o).threads j).pc = .exited := by
  refine State.apply_of (P := fun t : Thread N => t.pc = .exited) (fun t ht => ?_) j (fun hji => ?_) fun _ => hj
  · rw [Thread.Between.notified (.inr (.inr (.inr ht)))]
    exact ht
  · subst hji
    simp [Thread.step, hj] at hstep

theorem Leaving.start (h : ∀ i, (st.threads i).pc = .idle) : Leaving sch st :=
  .inl fun i hi => by simp [Thread.Untold, h i] at hi

theorem Leaving.thread (h : Leaving sch st) (hstep : (st.threads i).step S sch st.shared = some o)
    (hann : Announced S sch st (st.apply i o)) : Leaving sch (st.apply i o) := by
  rcases h with htold | ⟨htog, j, hj⟩
  · by_cases hun : ∃ j, ((st.apply i o).threads j).Untold
    · obtain ⟨j, hj⟩ := hun
      rcases State.of_apply (fun _ => Thread.Untold.of_notified) hj with ⟨rfl, hexited, hcounted⟩ | ⟨_, hj'⟩
      · -- the thread that left now: all leave with it
        obtain ⟨hleaves, rfl⟩ := Thread.step_exited hstep hexited
        exact .inr ⟨(hann j _ hstep rfl hleaves hcounted).thread hstep, j, hj.1⟩
      · exact absurd hj' (htold j)
    · exact .inl (not_exists.mp hun)
  · exact .inr ⟨htog.thread hstep, j, exited_apply hstep hj⟩

theorem Leaving.step (hinv : Inv sch st) (h : Leaving sch st) (hrun : Interruptible S sch c st st')
    (hann : Announced S sch st st') : Leaving sch st' := by
  have hmain := hinv.main
  rcases hrun with hstep | hwake | hsignal
  · cases hstep with
    | thread hstep => exact h.thread hstep hann
    | @hand _ _ _ _ k hm hp hk =>
      simp only [MainOk, hm] at hmain
      refine .start fun j => ?_
      by_cases hjk : j = k
      · subst hjk; simpa using hmain j
      · simpa [hjk] using hmain j
    | @spawn k hm =>
      simp only [MainOk, hm] at hmain
      have hidle := (hmain.2 k).mpr le_rfl
      rcases h with htold | ⟨htog, j, hj⟩
      · refine .inl fun j => ?_
        by_cases hjk : j = k
        · subst hjk; simp [Thread.Untold]
        · simpa [hjk] using htold j
      · have hjk : j ≠ k := by
          rintro rfl
          exact absurd (hj.symm.trans hidle) (by simp)
        refine .inr ⟨⟨fun l => ?_, htog.queue, htog.ended.imp_right fun hall l => ?_⟩, j, by simpa [hjk] using hj⟩
        · by_cases hlk : l = k
          · subst hlk; simp [Thread.Between]
          · simpa [hlk] using htog.between l
        · by_cases hlk : l = k
          · subst hlk; simpa [Thread.pending_start hidle] using hall l
          · simpa [hlk] using hall l
    | _ => exact h.imp_right fun hright => ⟨hright.1.congr rfl rfl id, hright.2⟩
  · rcases h with htold | ⟨htog, hleft⟩
    · obtain ⟨i⟩ := hwake
      refine .inl fun j hj => htold j ?_
      change (Function.update st.threads i (st.threads i).notified j).Untold at hj
      by_cases hji : j = i
      · subst hji
        rw [Function.update_self] at hj
        exact hj.of_notified
      · rwa [Function.update_of_ne hji] at hj
    · exact htog.wake hwake ▸ .inr ⟨htog, hleft⟩
  · obtain ⟨⟩ := hsignal
    exact h.imp_right fun hright => ⟨hright.1.congr rfl rfl fun _ => rfl, hright.2⟩

/-- No thread waits for those that are gone, and no node is left. -/
theorem Leaving.safe (hT : 0 < sch.numThreads.toNat) (hinv : Inv sch st) (h : Leaving sch st) :
    InterruptSafe sch st := by
  rw [hinv.interruptSafe_iff hT]
  intro hall
  rcases h with htold | ⟨htog, _⟩
  · -- all threads are counted, so that the scheduler has told each of them
    have hcounted : ∀ i, (st.threads i).counted = true := by
      intro i
      rcases hall i with he | hb
      · by_contra hc
        exact htold i ⟨he, Bool.not_eq_true _ ▸ hc⟩
      · have hok := hinv.ok i
        simp only [Thread.Ok, hb] at hok
        exact hok.2.2
    have hfinished := hinv.finished_iff.mpr hcounted
    have hexited : ∀ i, (st.threads i).pc = .exited := by
      intro i
      refine (hall i).resolve_right fun hb => ?_
      obtain ⟨j, hj⟩ := (hinv.blocked i hb).2 hfinished
      rcases hall j with h' | h' <;> simp [hj] at h'
    refine ⟨hexited, (hinv.done ⟨0, hT⟩ ⟨hcounted _, ?_, ?_⟩).1⟩ <;> simp [hexited]
  · refine ⟨fun i => (hall i).resolve_right fun hb => ?_, htog.queue⟩
    have hbetween := htog.between i
    simp [Thread.Between, hb] at hbetween

/-- In every run of a call on a fresh object, interrupted at any point or not, in which threads leave
announced, every state is safe. -/
theorem interrupt_safe (S : Solver N) (sch : Scheduler) (c : Container) (record : ValueType)
    (hT : 1 ≤ sch.numThreads.toNat) (hmin : 1 ≤ sch.numMinimumNodes.toNat)
    {st : State N sch.numThreads.toNat}
    (hr : Reaches (AnnouncedStep S sch c) (start S sch (construct sch) record) st) : InterruptSafe sch st := by
  have hidle : ∀ i, ((start S sch (construct sch : Shared N) record).threads i).pc = .idle := by
    unfold start
    split <;> exact fun _ => rfl
  have hpres : Preserved (AnnouncedStep S sch c) fun st => Inv sch st ∧ Leaving sch st := by
    rintro st st' ⟨hinv, h⟩ ⟨hstep, hann⟩
    exact ⟨hstep.inv hmin hinv, h.step hinv hstep hann⟩
  obtain ⟨hinv, h⟩ := hpres.reaches ⟨.start S rfl rfl rfl record, .start hidle⟩ hr
  exact h.safe hT hinv

/-! ### Two threads -/

/-- No thread leaves its loop in the next step. -/
theorem Announced.of_stay (h : ∀ i, ¬ (st.threads i).Leaves st.shared) : Announced S sch st st' :=
  fun i _ _ _ hleaves _ => absurd hleaves (h i)

theorem Announced.of_unbegun (h : ∀ i, (st.threads i).pc = .idle ∨ (st.threads i).pc = .start) :
    Announced S sch st st' := by
  refine .of_stay fun i hleaves => ?_
  obtain ⟨hpc, _⟩ := hleaves
  rcases h i with hi | hi <;> cases hpc.symm.trans hi

theorem reaches_announced : Reaches (AnnouncedStep pairSolver pairScheduler .lifo)
    (start pairSolver pairScheduler (construct pairScheduler) mVal) pairLeaves :=
  reaches_pairLeaves (fun _ _ _ _ hidle hstep => ⟨.inl hstep, .of_unbegun fun i => .inl (hidle i)⟩)
    fun _ _ hstep => ⟨.inl hstep.1, .of_unbegun hstep.2.2⟩

/-- Both threads find the flag set at the test of their loops, and leave with a leaf each. -/
theorem interrupt_safe_pair : ∃ st, Reaches (AnnouncedStep pairSolver pairScheduler .lifo)
      (start pairSolver pairScheduler (construct pairScheduler) mVal) st ∧
    (∀ i, (st.threads i).pc = .exited ∧ (st.threads i).counted = false) ∧ InterruptSafe pairScheduler st := by
  let first : Fin pairScheduler.numThreads.toNat := ⟨0, by decide⟩
  let second : Fin pairScheduler.numThreads.toNat := ⟨1, by decide⟩
  let tick (i : Fin pairScheduler.numThreads.toNat) (st : State (Option Bool) pairScheduler.numThreads.toNat) :=
    tick pairSolver pairScheduler i st
  let begun := tick second (tick first pairLeaves)
  let signalled := { begun with shared := { begun.shared with interrupted := true } }
  have hbegun : Reaches (AnnouncedStep pairSolver pairScheduler .lifo) pairLeaves begun :=
    .tail (.single ⟨.inl (step_tick _ rfl), .of_stay (by decide +kernel)⟩)
      ⟨.inl (step_tick _ rfl), .of_stay (by decide +kernel)⟩
  have hsignalled : Reaches (AnnouncedStep pairSolver pairScheduler .lifo) pairLeaves signalled :=
    hbegun.tail ⟨.inr (.inr .signal), .of_stay (by decide +kernel)⟩
  have htogether : Together signalled := ⟨by decide +kernel, by decide +kernel, .inl rfl⟩
  have hgone : Together (tick first signalled) := htogether.thread (S := pairSolver) (i := first) rfl
  have hleft : Reaches (AnnouncedStep pairSolver pairScheduler .lifo) pairLeaves
      (tick second (tick first signalled)) :=
    (hsignalled.tail ⟨.inl (step_tick _ rfl), fun _ _ _ _ _ _ => htogether⟩).tail
      ⟨.inl (step_tick _ rfl), fun _ _ _ _ _ _ => hgone⟩
  have hr := reaches_announced.trans hleft
  exact ⟨_, hr, by decide +kernel, interrupt_safe pairSolver pairScheduler .lifo mVal (by decide) (by decide) hr⟩

/-- Thread `0` publishes its leaf and waits; the signal arrives; thread `1` leaves with the other
leaf. -/
theorem interrupt_leaves_waiter : ∃ st, Reaches (Interruptible pairSolver pairScheduler .lifo)
    (start pairSolver pairScheduler (construct pairScheduler) mVal) st ∧
    ∃ i, (st.threads i).pc = .blocked ∧ ¬ Thread.Ready pairScheduler st.shared ∧
      ∀ j, j ≠ i → (st.threads j).pc = .exited := by
  let first : Fin pairScheduler.numThreads.toNat := ⟨0, by decide⟩
  let second : Fin pairScheduler.numThreads.toNat := ⟨1, by decide⟩
  let tick st i := tick pairSolver pairScheduler i st
  let waiting := (List.replicate 9 first).foldl tick pairLeaves
  let signalled := { waiting with shared := { waiting.shared with interrupted := true } }
  let left := (List.replicate 2 second).foldl tick signalled
  have hstarted : Reaches (Interruptible pairSolver pairScheduler .lifo)
      (start pairSolver pairScheduler (construct pairScheduler) mVal) pairLeaves :=
    Relation.ReflTransGen.mono (fun _ _ => And.left) _ _ reaches_announced
  have hwaiting : Reaches (Interruptible pairSolver pairScheduler .lifo) pairLeaves waiting :=
    Relation.ReflTransGen.mono (fun _ _ => .inl) _ _ (reaches_tick ..)
  have hleft : Reaches (Interruptible pairSolver pairScheduler .lifo) signalled left :=
    Relation.ReflTransGen.mono (fun _ _ => .inl) _ _ (reaches_tick ..)
  have hr := ((hstarted.trans hwaiting).tail (.inr (.inr .signal))).trans hleft
  refine ⟨left, hr, first, by decide +kernel, ?_, by decide +kernel⟩
  have hempty : left.shared.queueSets = [] := by decide +kernel
  have hcounter : left.shared.counter = 1 := by decide +kernel
  rintro (hne | hf)
  · exact hne hempty
  · rw [hcounter] at hf
    exact absurd hf (by decide)

end Parallel

end Optimer
