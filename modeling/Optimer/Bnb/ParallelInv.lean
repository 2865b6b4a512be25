import Mathlib.Algebra.BigOperators.Ring.Finset
import Optimer.Bnb.ParallelMove

/-! The invariant of every run of `ParallelBNB::solve`, interrupted or not: what the counter of the
scheduler says, what a blocked thread waits for, and where the created nodes are. -/

namespace Optimer
open Transition

namespace Thread

variable {N : Type*} {S : Solver N} {sch : Scheduler} {t : Thread N} {sh : Shared N}
  {o : Outcome N}

/-- The thread has been told that no work is left. -/
def Done (t : Thread N) : Prop := t.counted = true ∧ t.pc ≠ .lock ∧ t.pc ≠ .blocked

theorem Done.of_notified (h : t.notified.Done) : t.Done := by
  obtain ⟨hc, hl, hb⟩ := h
  rcases t.notified_pc with hpc | ⟨_, hpc⟩
  · exact ⟨by simpa using hc, hpc ▸ hl, hpc ▸ hb⟩
  · exact absurd hpc hl

/-- `list_nodes_[i].push_back` of a node taken from `nodes`. -/
theorem pending_push {nodes rest : List N} {n : N} (hp : nodes.Perm (n :: rest)) (t : Thread N) :
    (rest + pending { t with listNodes := t.listNodes ++ [n] } : Multiset N) =
      nodes + t.pending := by
  simp only [pending, Multiset.coe_eq_coe.mpr hp, ← Multiset.coe_add, ← Multiset.cons_coe,
    ← Multiset.singleton_add, Multiset.coe_nil]
  ac_rfl

theorem pending_start (hpc : t.pc = .idle) : pending { t with pc := .start } = t.pending := by
  simp [pending, hpc]

@[simp] theorem notified_listNodes : t.notified.listNodes = t.listNodes := by
  unfold notified; split <;> rfl

@[simp] theorem notified_idle : t.notified.pc = .idle ↔ t.pc = .idle := by
  rcases t.notified_pc with h | ⟨h, h'⟩
  · rw [h]
  · simp [h, h']

namespace Move

theorem pc (h : Move S sch t sh o) :
    t.pc ≠ .idle ∧ t.pc ≠ .blocked ∧ t.pc ≠ .exited ∧ o.thread.pc ≠ .idle := by
  cases h with
  | schedule hpc h => rcases h with rfl | rfl <;> simp [hpc]
  | _ => simp_all [Thread.begin, Thread.leave, Thread.branch, Thread.publish, Thread.announce]

/-- A thread is told that no work is left when the queue is empty and all are counted. -/
theorem done (hok : t.Ok) (h : Move S sch t sh o) (hd : o.thread.Done) :
    o.shared.queueSets = sh.queueSets ∧ o.shared.counter = sh.counter ∧
      (t.Done ∨ sh.queueSets = [] ∧ sch.finished sh.counter) := by
  obtain ⟨hc, hl, hb⟩ := hd
  cases h with
  | announce hpc => exact absurd rfl hl
  | block hpc => exact absurd rfl hb
  | take hpc => simp at hc
  | finish hpc hq hf => exact ⟨rfl, rfl, .inr ⟨hq, hf⟩⟩
  | leave hpc h => exact ⟨rfl, rfl, .inl ⟨hc, by simp [hpc], by simp [hpc]⟩⟩
  | ret hpc => exact ⟨rfl, rfl, .inl ⟨hc, by simp [hpc], by simp [hpc]⟩⟩
  | _ => simp_all [Ok, Thread.begin, Thread.branch, Thread.publish]

/-- A counted thread does not touch the counter, or the queue, while the queue is empty. -/
theorem counted (hok : t.Ok) (h : Move S sch t sh o) (hc : t.counted = true)
    (hq : sh.queueSets = []) :
    o.shared.queueSets = [] ∧ o.shared.counter = sh.counter := by
  cases h with
  | send hpc => simp [Ok, hpc, hc] at hok
  | announce hpc => simp [Ok, hpc, hc] at hok
  | take hpc hq' ht => simp [hq, ht] at hq'
  | _ => exact ⟨hq, rfl⟩

/-- With an empty queue the last thread counted has still to test the predicate. -/
theorem blocked (h : Move S sch t sh o) (hn : o.notifyAll = false) (hq : sh.queueSets = []) :
    o.shared.queueSets = [] ∧ (sch.finished o.shared.counter →
      o.thread.pc = .lock ∨ o.shared.counter = sh.counter ∧ t.pc ≠ .lock) := by
  cases h with
  | send hpc => simp at hn
  | announce hpc => exact ⟨hq, fun _ => .inl rfl⟩
  | block hpc hq' hf => exact ⟨hq, fun h => absurd h hf⟩
  | take hpc hq' ht => simp [hq, ht] at hq'
  | finish hpc => simp at hn
  | _ => exact ⟨hq, fun _ => .inr ⟨rfl, by simp_all⟩⟩

/-- A thread blocks when there is nothing to take and some thread is not counted. -/
theorem of_blocked (h : Move S sch t sh o) (hb : o.thread.pc = .blocked) :
    o.notifyAll = false ∧ sh.queueSets = [] ∧ ¬ sch.finished sh.counter := by
  cases h with
  | block hpc hq hf => exact ⟨rfl, hq, hf⟩
  | schedule hpc h => rcases h with rfl | rfl <;> simp at hb
  | _ =>
    simp_all [Thread.begin, Thread.leave, Thread.branch, Thread.publish, Thread.announce]

end Move

end Thread

namespace State

variable {N M : Type*} {T : ℕ} {st : State N T} {i j : Fin T} {o : Outcome N}

def sum [AddCommMonoid M] (st : State N T) (f : Thread N → M) : M := ∑ i, f (st.threads i)

@[simp] theorem apply_main : (st.apply i o).main = st.main := rfl

@[simp] theorem apply_shared : (st.apply i o).shared = o.shared := rfl

/-- The number of threads the scheduler counts. -/
def count (st : State N T) : ℕ := st.sum fun t => if t.counted then 1 else 0

end State

/-- The nodes `solve` itself still has. -/
def Main.nodes {N : Type*} : Main N → List N
  | .first f => f.nodes
  | .decide nodes | .hand nodes _ | .clean nodes => nodes
  | _ => []

namespace State

variable {N M : Type*} {T : ℕ} {st : State N T} {i j : Fin T} {o : Outcome N}

/-- The nodes created and not yet released. -/
def pending (st : State N T) : Multiset N :=
  st.main.nodes + st.sum Thread.pending + st.shared.queueSets

theorem sum_update [AddCommMonoid M] (g : Fin T → Thread N) (i : Fin T) (t : Thread N)
    (f : Thread N → M) :
    ∑ j, f (Function.update g i t j) + f (g i) = ∑ j, f (g j) + f t := by
  have hup : (fun j => f (Function.update g i t j)) = Function.update (f ∘ g) i (f t) :=
    Function.comp_update f g i t
  rw [hup, Finset.sum_update_of_mem (Finset.mem_univ i),
    ← Finset.add_sum_erase _ (fun j => f (g j)) (Finset.mem_univ i), Finset.sdiff_singleton_eq_erase]
  simp only [Function.comp_apply]
  ac_rfl

theorem pending_update {main : Main N} {t : Thread N}
    (hp : (main.nodes + t.pending : Multiset N) = st.main.nodes + (st.threads i).pending) :
    pending { st with main := main, threads := Function.update st.threads i t } = st.pending := by
  have hsum := sum_update st.threads i t Thread.pending
  simp only [pending, sum]
  refine add_right_cancel (b := (st.threads i).pending) ?_
  calc _ = main.nodes + (∑ j, (Function.update st.threads i t j).pending +
        (st.threads i).pending) + st.shared.queueSets := by ac_rfl
    _ = (main.nodes + t.pending) + ∑ j, (st.threads j).pending + st.shared.queueSets := by
      rw [hsum]; ac_rfl
    _ = _ := by rw [hp]; ac_rfl

/-- A quantity that `notify_all` does not change follows the thread that takes the step. -/
theorem sum_apply [AddCommMonoid M] {f : Thread N → M} (hf : ∀ t, f t.notified = f t)
    (st : State N T) (i : Fin T) (o : Outcome N) :
    (st.apply i o).sum f + f (st.threads i) = st.sum f + f o.thread := by
  have hsum : (st.apply i o).sum f = ∑ j, f (Function.update st.threads i o.thread j) := by
    refine Finset.sum_congr rfl fun j _ => ?_
    simp only [apply]
    split
    exacts [hf _, rfl]
  exact hsum ▸ sum_update st.threads i o.thread f

theorem count_le : st.count ≤ T := by
  rw [count, sum, Finset.sum_boole, Nat.cast_id]
  exact (Finset.card_filter_le _ _).trans (Finset.card_fin T).le

theorem count_eq_iff : st.count = T ↔ ∀ i, (st.threads i).counted = true := by
  rw [count, sum, Finset.sum_boole, Nat.cast_id]
  have h := Finset.card_filter_eq_iff (s := Finset.univ) (p := fun i => (st.threads i).counted = true)
  simpa using h

/-- A property that `notify_all` keeps holds of a thread after a step. -/
theorem apply_of {P : Thread N → Prop} (hP : ∀ t, P t → P t.notified) (j : Fin T)
    (hi : j = i → P o.thread) (hj : j ≠ i → P (st.threads j)) : P ((st.apply i o).threads j) := by
  have hup : P (Function.update st.threads i o.thread j) := by
    by_cases hji : j = i
    · subst hji; rw [Function.update_self]; exact hi rfl
    · rw [Function.update_of_ne hji]; exact hj hji
  simp only [apply]
  split
  exacts [hP _ hup, hup]

theorem forall_apply {P : Thread N → Prop} (hP : ∀ t, P t → P t.notified)
    (h : ∀ j, P (st.threads j)) (ho : P o.thread) : ∀ j, P ((st.apply i o).threads j) :=
  fun j => apply_of hP j (fun _ => ho) fun _ => h j

/-- Conversely, a property that `notify_all` does not bring about. -/
theorem of_apply {P : Thread N → Prop} (hP : ∀ t, P t.notified → P t)
    (h : P ((st.apply i o).threads j)) : j = i ∧ P o.thread ∨ j ≠ i ∧ P (st.threads j) := by
  have hup : P (Function.update st.threads i o.thread j) := by
    simp only [apply] at h
    split at h
    exacts [hP _ h, h]
  by_cases hji : j = i
  · subst hji; exact .inl ⟨rfl, by rwa [Function.update_self] at hup⟩
  · exact .inr ⟨hji, by rwa [Function.update_of_ne hji] at hup⟩

theorem apply_of_ne (hji : j ≠ i) (hn : o.notifyAll = false) :
    (st.apply i o).threads j = st.threads j := by
  simp [apply, hn, Function.update_of_ne hji]

theorem apply_self (hn : o.notifyAll = false) : (st.apply i o).threads i = o.thread := by
  simp [apply, hn]

theorem apply_apply {o' : Outcome N} (hn : o.notifyAll = false) :
    (st.apply i o).apply i o' = st.apply i o' := by
  simp [apply, hn]

end State

namespace Parallel

variable {N : Type*} {S : Solver N} {sch : Scheduler} {c : Container}
  {st st' : State N sch.numThreads.toNat} {i : Fin sch.numThreads.toNat} {o : Outcome N}

/-- No thread has been started or handed nodes. -/
def Unstarted {T : ℕ} (st : State N T) : Prop :=
  (∀ i, (st.threads i).pc = .idle ∧ (st.threads i).listNodes = []) ∧ st.shared.queueSets = []

/-- The threads as `solve` goes on: all idle, some started, all started, all at their end. -/
def MainOk {T : ℕ} (st : State N T) : Prop :=
  match st.main with
  | .first _ | .decide _ => Unstarted st
  | .hand _ _ => ∀ i, (st.threads i).pc = .idle
  | .spawn k => k ≤ T ∧ ∀ i, (st.threads i).pc = .idle ↔ k ≤ i.val
  | .join => ∀ i, (st.threads i).pc ≠ .idle
  | .clean nodes => Unstarted st ∨ nodes = [] ∧ ∀ i, (st.threads i).pc = .exited
  | .returned _ => Unstarted st ∨ ∀ i, (st.threads i).pc = .exited

/-- Waking threads does not matter to it. -/
theorem MainOk.congr {T : ℕ} {st : State N T} (h : MainOk st) {threads : Fin T → Thread N}
    (ht : ∀ i, threads i = st.threads i ∨ threads i = (st.threads i).notified) :
    MainOk { st with threads := threads } := by
  have hidle i : (threads i).pc = .idle ↔ (st.threads i).pc = .idle := by
    rcases ht i with h | h <;> simp [h]
  have hexited i (he : (st.threads i).pc = .exited) : (threads i).pc = .exited := by
    rcases ht i with h | h <;> simp [h, Thread.notified, he]
  have hlist i : (threads i).listNodes = (st.threads i).listNodes := by
    rcases ht i with h | h <;> simp [h]
  have hun (h : Unstarted st) : Unstarted { st with threads := threads } :=
    ⟨fun i => ⟨(hidle i).mpr (h.1 i).1, (hlist i).trans (h.1 i).2⟩, h.2⟩
  cases hm : st.main with
  | first f | decide nodes =>
    simp only [MainOk, hm] at h ⊢
    exact hun h
  | hand nodes k | join =>
    simp only [MainOk, hm, ne_eq, hidle] at h ⊢
    exact h
  | spawn k =>
    simp only [MainOk, hm, hidle] at h ⊢
    exact h
  | clean nodes =>
    simp only [MainOk, hm] at h ⊢
    exact h.imp hun fun ⟨hn, hall⟩ => ⟨hn, fun i => hexited i (hall i)⟩
  | returned sol =>
    simp only [MainOk, hm] at h ⊢
    exact h.imp hun fun hall i => hexited i (hall i)

structure Inv (sch : Scheduler) (st : State N sch.numThreads.toNat) : Prop where
  main : MainOk st
  ok : ∀ i, (st.threads i).Ok
  statsOk : ∀ i, (st.threads i).StatsOk
  counter : st.shared.counter = sch.counterOf st.count
  done : ∀ i, (st.threads i).Done →
    st.shared.queueSets = [] ∧ sch.finished st.shared.counter
  blocked : ∀ i, (st.threads i).pc = .blocked → st.shared.queueSets = [] ∧
    (sch.finished st.shared.counter → ∃ j, (st.threads j).pc = .lock)
  balance : st.shared.created = st.shared.released + st.pending
  stats : st.sum Thread.setsSent = st.sum Thread.setsReceived + st.shared.queueSets.length

namespace Inv

theorem finished_iff (h : Inv sch st) :
    sch.finished st.shared.counter ↔ ∀ i, (st.threads i).counted = true := by
  rw [h.counter, Scheduler.finished_counterOf State.count_le, State.count_eq_iff]

theorem apply_idle (hmove : (st.threads i).Move S sch st.shared o) (j) :
    ((st.apply i o).threads j).pc = .idle ↔ (st.threads j).pc = .idle := by
  obtain ⟨hidle, _, _, hidle'⟩ := hmove.pc
  have hup : (Function.update st.threads i o.thread j).pc = .idle ↔ (st.threads j).pc = .idle := by
    by_cases hji : j = i
    · subst hji; rw [Function.update_self]; exact iff_of_false hidle' hidle
    · rw [Function.update_of_ne hji]
  simp only [State.apply]
  split
  exacts [Thread.notified_idle.trans hup, hup]

theorem mainOk_apply (h : MainOk st) (hmove : (st.threads i).Move S sch st.shared o) :
    MainOk (st.apply i o) := by
  obtain ⟨hidle, _, hexited, _⟩ := hmove.pc
  cases hm : st.main with
  | first f | decide nodes =>
    simp only [MainOk, hm] at h
    exact absurd (h.1 i).1 hidle
  | hand nodes k =>
    simp only [MainOk, hm] at h
    exact absurd (h i) hidle
  | spawn k =>
    simp only [MainOk, hm] at h
    simp only [MainOk, State.apply_main, hm]
    exact ⟨h.1, fun j => (apply_idle hmove j).trans (h.2 j)⟩
  | join =>
    simp only [MainOk, hm] at h
    simp only [MainOk, State.apply_main, hm]
    exact fun j => mt (apply_idle hmove j).mp (h j)
  | clean nodes =>
    simp only [MainOk, hm] at h
    rcases h with h | ⟨_, h⟩
    exacts [absurd (h.1 i).1 hidle, absurd (h i) hexited]
  | returned sol =>
    simp only [MainOk, hm] at h
    rcases h with h | h
    exacts [absurd (h.1 i).1 hidle, absurd (h i) hexited]

/-- A move of a thread keeps the invariant. -/
theorem apply (h : Inv sch st) (hmove : (st.threads i).Move S sch st.shared o) :
    Inv sch (st.apply i o) where
  main := mainOk_apply h.main hmove
  ok := State.forall_apply (fun _ => Thread.Ok.notified) h.ok (hmove.ok (h.ok i))
  statsOk := State.forall_apply (fun _ => Thread.StatsOk.notified) h.statsOk
    (hmove.statsOk (h.statsOk i))
  counter := by
    have hsum := State.sum_apply (f := fun t : Thread N => if t.counted then 1 else 0)
      (fun t => by simp) st i o
    have hcount : (st.apply i o).count + (if (st.threads i).counted = true then 1 else 0) =
      st.count + if o.thread.counted = true then 1 else 0 := hsum
    rcases hmove.counter (h.ok i) with ⟨heq, hctr⟩ | ⟨hc, hc', _, hctr⟩ | ⟨hc, hc', _, hctr⟩
    · rw [heq] at hcount
      rw [Nat.add_right_cancel hcount, ← h.counter]
      exact hctr
    · rw [hc, hc'] at hcount
      rw [show (st.apply i o).count = st.count + 1 from hcount, ← Scheduler.announce_counterOf,
        ← h.counter]
      exact hctr
    · rw [hc, hc'] at hcount
      have hold : st.count = (st.apply i o).count + 1 := hcount.symm
      rw [← Scheduler.withdraw_counterOf, ← hold, ← h.counter]
      exact hctr
  done j hd := by
    rcases State.of_apply (fun _ => Thread.Done.of_notified) hd with ⟨_, hd⟩ | ⟨_, hd⟩
    · obtain ⟨hq, hctr, hdone⟩ := hmove.done (h.ok i) hd
      simp only [State.apply_shared, hq, hctr]
      exact hdone.elim (h.done i) id
    · obtain ⟨hq, hf⟩ := h.done j hd
      obtain ⟨hq', hctr⟩ := hmove.counted (h.ok i) (h.finished_iff.mp hf i) hq
      exact ⟨hq', hctr ▸ hf⟩
  blocked j hb := by
    cases hn : o.notifyAll with
    | true => exact absurd hb (by simp [State.apply, hn, Thread.notified_ne_blocked])
    | false =>
      have hq : st.shared.queueSets = [] := by
        by_cases hji : j = i
        · subst hji
          rw [State.apply_self hn] at hb
          exact (hmove.of_blocked hb).2.1
        · rw [State.apply_of_ne hji hn] at hb
          exact (h.blocked j hb).1
      obtain ⟨hq', hlock⟩ := hmove.blocked hn hq
      refine ⟨hq', fun hf => ?_⟩
      rcases hlock hf with hi | ⟨hctr, hi⟩
      · exact ⟨i, by rwa [State.apply_self hn]⟩
      · have hf' : sch.finished st.shared.counter := hctr ▸ hf
        have hji : j ≠ i := by
          rintro rfl
          rw [State.apply_self hn] at hb
          exact (hmove.of_blocked hb).2.2 hf'
        rw [State.apply_of_ne hji hn] at hb
        obtain ⟨k, hk⟩ := (h.blocked j hb).2 hf'
        have hki : k ≠ i := fun heq => hi (heq ▸ hk)
        exact ⟨k, by rwa [State.apply_of_ne hki hn]⟩
  balance := by
    have hsum := State.sum_apply (fun t => t.notified_pending) st i o
    have hbal := hmove.balance (h.ok i)
    have hold := h.balance
    simp only [State.pending, State.apply_main, State.apply_shared] at hold ⊢
    generalize st.sum Thread.pending = p, (st.apply i o).sum Thread.pending = p' at *
    refine add_right_cancel (b := st.shared.released +
      ((st.threads i).pending + st.shared.queueSets)) ?_
    rw [hbal, hold]
    calc _ = st.shared.released + o.shared.released + (p + o.thread.pending) +
          st.main.nodes + st.shared.queueSets + o.shared.queueSets := by ac_rfl
      _ = _ := by rw [← hsum]; ac_rfl
  stats := by
    have hsent := State.sum_apply (fun t => t.notified_setsSent) st i o
    have hreceived := State.sum_apply (fun t => t.notified_setsReceived) st i o
    have hmoved := hmove.stats (h.statsOk i)
    have hold := h.stats
    simp only [State.apply] at *
    omega

/-- `solve` itself goes on. -/
theorem of_main (h : Inv sch st) (main : Main N) {sh : Shared N}
    (hq : sh.queueSets = st.shared.queueSets) (hctr : sh.counter = st.shared.counter)
    (hmain : MainOk { st with main := main, shared := sh })
    (hbal : sh.created + (st.shared.released + st.main.nodes) =
      st.shared.created + (sh.released + main.nodes)) :
    Inv sch { st with main := main, shared := sh } where
  main := hmain
  ok := h.ok
  statsOk := h.statsOk
  counter := hctr.trans h.counter
  done i hd := by simpa only [hq, hctr] using h.done i hd
  blocked i hb := by simpa only [hq, hctr] using h.blocked i hb
  balance := by
    have hold := h.balance
    simp only [State.pending, State.sum] at hold ⊢
    refine add_right_cancel (b := st.shared.released + st.main.nodes) ?_
    rw [hbal, hold, hq]
    ac_rfl
  stats := by
    have hold := h.stats
    rw [← hq] at hold
    exact hold

/-- A thread is changed from outside, with what it has of the nodes of `solve`. -/
theorem of_update (h : Inv sch st) (main : Main N) {t : Thread N}
    (hmain : MainOk { st with main := main, threads := Function.update st.threads i t })
    (hok : t.Ok) (hstats : t.StatsOk) (hc : t.counted = (st.threads i).counted)
    (hsent : t.setsSent = (st.threads i).setsSent)
    (hreceived : t.setsReceived = (st.threads i).setsReceived)
    (hd : t.Done → (st.threads i).Done) (hb : t.pc = .blocked → (st.threads i).pc = .blocked)
    (hl : (st.threads i).pc = .lock → t.pc = .lock)
    (hp : (main.nodes + t.pending : Multiset N) = st.main.nodes + (st.threads i).pending) :
    Inv sch { st with main := main, threads := Function.update st.threads i t } where
  main := hmain
  ok j := by
    by_cases hji : j = i
    · subst hji; simpa using hok
    · simpa [hji] using h.ok j
  statsOk j := by
    by_cases hji : j = i
    · subst hji; simpa using hstats
    · simpa [hji] using h.statsOk j
  counter := by
    have hsum := State.sum_update st.threads i t fun t => if t.counted = true then 1 else 0
    rw [hc] at hsum
    have hcount : State.count { st with main := main, threads := Function.update st.threads i t } =
      st.count := Nat.add_right_cancel hsum
    rw [hcount]
    exact h.counter
  done j hj := by
    by_cases hji : j = i
    · subst hji; exact h.done j (hd (by simpa using hj))
    · exact h.done j (by simpa [hji] using hj)
  blocked j hj := by
    have hold : (st.threads j).pc = .blocked := by
      by_cases hji : j = i
      · subst hji; exact hb (by simpa using hj)
      · simpa [hji] using hj
    obtain ⟨hq, hlock⟩ := h.blocked j hold
    refine ⟨hq, fun hf => ?_⟩
    obtain ⟨k, hk⟩ := hlock hf
    refine ⟨k, ?_⟩
    by_cases hki : k = i
    · subst hki; simpa using hl hk
    · simpa [hki] using hk
  balance := by
    rw [State.pending_update hp]
    exact h.balance
  stats := by
    have h1 := State.sum_update st.threads i t Thread.setsSent
    have h2 := State.sum_update st.threads i t Thread.setsReceived
    have hold := h.stats
    simp only [State.sum] at *
    omega

/-- `solve` called on an object with an empty queue and the counter of the constructor. -/
theorem start (S : Solver N) {sh : Shared N} (hq : sh.queueSets = [])
    (hctr : sh.counter = sch.initialCounter) (hbal : sh.created = sh.released)
    (record : ValueType) : Inv sch (Parallel.start S sch sh record) where
  main := by
    unfold Parallel.start
    split <;> exact ⟨fun _ => ⟨rfl, rfl⟩, hq⟩
  ok i := by
    unfold Parallel.start
    split <;> exact ⟨rfl, rfl⟩
  statsOk i := by
    unfold Parallel.start
    split <;> exact ⟨rfl, rfl⟩
  counter := by
    unfold Parallel.start
    split <;> simp [State.count, State.sum, Scheduler.counterOf_zero, hctr]
  done i hd := by
    unfold Parallel.start at hd
    split at hd <;> exact absurd hd.1 (by simp)
  blocked i hb := by
    unfold Parallel.start at hb
    split at hb <;> exact absurd hb (by simp)
  balance := by
    unfold Parallel.start
    split <;> simp [State.pending, State.sum, Thread.pending, Main.nodes, firstStart, hq, hbal]
  stats := by
    unfold Parallel.start
    split <;> simp [State.sum, Thread.setsSent, Thread.setsReceived, hq]

end Inv

/-- What every move keeps, a step keeps. -/
theorem of_step {P : State N sch.numThreads.toNat → Prop} (hmin : 0 < sch.numMinimumNodes.toNat)
    (hP : ∀ {st : State N sch.numThreads.toNat} {i o}, P st →
      (st.threads i).Move S sch st.shared o → P (st.apply i o))
    (hok : (st.threads i).Ok) (h : P st) (hstep : (st.threads i).step S sch st.shared = some o) :
    P (st.apply i o) := by
  rcases Thread.step_cases hmin hok hstep with hmove | ⟨hpc, hmove⟩
  · exact hP h hmove
  · have hn : ((st.threads i).announce sch st.shared).notifyAll = false := rfl
    rw [← State.apply_apply hn]
    exact hP (hP h (.announce hpc)) (by rwa [State.apply_self hn])

theorem Step.inv (hmin : 0 < sch.numMinimumNodes.toNat) (h : Inv sch st)
    (hstep : Step S sch c st st') : Inv sch st' := by
  have hmain := h.main
  cases hstep with
  | branch hm hi hsize hp =>
    simp only [MainOk, hm] at hmain
    refine h.of_main _ rfl rfl hmain ?_
    simp only [hm, Main.nodes, First.body, Container.pushAll_eq, ← Multiset.coe_add,
      Multiset.coe_reverse, Multiset.coe_eq_coe.mpr hp.perm, ← Multiset.cons_coe,
      ← Multiset.singleton_add]
    ac_rfl
  | stop hm hstop =>
    simp only [MainOk, hm] at hmain
    exact h.of_main _ rfl rfl hmain (by simp [hm, Main.nodes])
  | skip hm hi =>
    simp only [MainOk, hm] at hmain
    exact h.of_main _ rfl rfl (.inl hmain) (by simp [hm, Main.nodes])
  | resize hm hi =>
    simp only [MainOk, hm] at hmain
    exact h.of_main _ rfl rfl (fun i => (hmain.1 i).1) (by simp [hm, Main.nodes])
  | @hand _ _ _ _ k hm hp hk =>
    simp only [MainOk, hm] at hmain
    have hok := h.ok k
    have hstats := h.statsOk k
    simp only [Thread.Ok, Thread.StatsOk, hmain k] at hok hstats
    refine h.of_update _ (fun j => ?_) ?_ ?_ rfl rfl rfl id id id ?_
    · by_cases hji : j = k
      · subst hji; simpa using hmain j
      · simpa [hji] using hmain j
    · simpa [Thread.Ok, hmain k] using hok
    · simpa [Thread.StatsOk, hmain k] using hstats
    · rw [hm]
      exact Thread.pending_push hp.perm _
  | handed hm =>
    simp only [MainOk, hm] at hmain
    exact h.of_main _ rfl rfl ⟨Nat.zero_le _, fun i => iff_of_true (hmain i) i.val.zero_le⟩
      (by simp [hm, Main.nodes])
  | @spawn k hm =>
    simp only [MainOk, hm] at hmain
    have hidle := (hmain.2 k).mpr le_rfl
    have hok := h.ok k
    have hstats := h.statsOk k
    simp only [Thread.Ok, Thread.StatsOk, hidle] at hok hstats
    refine h.of_update _ ⟨k.isLt, fun j => ?_⟩ hok hstats rfl rfl rfl ?_ ?_ ?_ ?_
    · by_cases hjk : j = k
      · subst hjk; simp
      · have hne : j.val ≠ k.val := Fin.val_ne_of_ne hjk
        simp only [Function.update_of_ne hjk, hmain.2 j]
        omega
    · exact fun hd => absurd hd.1 (by simp [hok.2])
    · exact fun hb => absurd hb (by simp)
    · exact fun hl => absurd hl (by simp [hidle])
    · rw [hm, Thread.pending_start hidle]; rfl
  | spawned hm =>
    simp only [MainOk, hm] at hmain
    exact h.of_main _ rfl rfl (fun i hi => absurd ((hmain.2 i).mp hi) (not_le.mpr i.isLt))
      (by simp [hm, Main.nodes])
  | join hm hall =>
    simp only [MainOk, hm] at hmain
    exact h.of_main _ rfl rfl (.inr ⟨rfl, hall⟩) (by simp [hm, Main.nodes])
  | clean hm hp =>
    simp only [MainOk, hm] at hmain
    refine h.of_main _ rfl rfl (.inl (hmain.resolve_right fun h => hp.ne_nil h.1)) ?_
    simp only [hm, Main.nodes, Multiset.coe_eq_coe.mpr hp.perm, ← Multiset.cons_coe,
      ← Multiset.singleton_add]
    ac_rfl
  | ret hm =>
    simp only [MainOk, hm] at hmain
    exact h.of_main _ rfl rfl (hmain.imp id And.right) (by simp [hm, Main.nodes])
  | thread hstep => exact of_step hmin Inv.apply (h.ok _) h hstep

theorem Wake.inv (h : Inv sch st) (hwake : Wake st st') : Inv sch st' := by
  obtain ⟨i⟩ := hwake
  have hnot := (st.threads i).notified_pc
  refine h.of_update st.main ?_ (h.ok i).notified (h.statsOk i).notified
    (by simp) (by simp) (by simp) Thread.Done.of_notified
    (fun hb => absurd hb Thread.notified_ne_blocked) (fun hl => ?_) (by simp)
  · refine h.main.congr fun j => ?_
    by_cases hji : j = i
    · subst hji; exact .inr (Function.update_self ..)
    · exact .inl (Function.update_of_ne hji ..)
  · rcases hnot with hpc | ⟨hpc, _⟩
    · exact hpc.trans hl
    · exact absurd (hpc.symm.trans hl) (by simp)

theorem Signal.inv (h : Inv sch st) (hsignal : Signal st st') : Inv sch st' := by
  obtain ⟨⟩ := hsignal
  exact h.of_main st.main rfl rfl h.main rfl

end Parallel

end Optimer
