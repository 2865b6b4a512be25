import Optimer.Bnb.Parallel

/-! What one step of a thread of `ParallelBNB` can do. The section of `GivingScheduler` that counts
the thread and tests the predicate is split in two moves, as it is in `RequestingScheduler`. -/

namespace Optimer

namespace Thread

variable {N : Type*} {S : Solver N} {sch : Scheduler} {t : Thread N} {sh : Shared N}
  {o : Outcome N}

/-- What is known of a thread alone. -/
def Ok (t : Thread N) : Prop :=
  match t.pc with
  | .idle | .start => t.nodes = [] ∧ t.counted = false
  | .loop => t.listNodes = [] ∧ (t.counted = true → t.nodes = [])
  | .enter => t.listNodes = [] ∧ t.nodes = [] ∧ t.counted = false
  | .lock | .blocked => t.listNodes = [] ∧ t.nodes = [] ∧ t.counted = true
  | .returned => t.listNodes = [] ∧ (t.counted = true ↔ t.nodes = [])
  | .exited => t.listNodes = [] ∧ t.nodes = []
  | _ => t.listNodes = [] ∧ t.counted = false

/-- The moves of a thread. -/
inductive Move (S : Solver N) (sch : Scheduler) (t : Thread N) (sh : Shared N) :
    Outcome N → Prop
  | begin (hpc : t.pc = .start) : Move S sch t sh (t.begin sh)
  | pop {n : N} {nodes : List N} (hpc : t.pc = .loop) (hn : t.nodes = n :: nodes)
      (hi : sh.interrupted = false) :
      Move S sch t sh ⟨{ t with pc := .read n, nodes := nodes }, sh, false⟩
  | leave (hpc : t.pc = .loop) (h : t.nodes = [] ∨ sh.interrupted = true) :
      Move S sch t sh (t.leave sh)
  | read {n : N} (hpc : t.pc = .read n) :
      Move S sch t sh ⟨{ t with pc := .branch n, record := sh.record }, sh, false⟩
  | branch {n : N} (hpc : t.pc = .branch n) : Move S sch t sh (t.branch S sh n)
  | lower (hpc : t.pc = .check) (h : t.record < sh.record) :
      Move S sch t sh ⟨{ t with pc := .publish }, sh, false⟩
  | keep (hpc : t.pc = .check) (h : ¬ t.record < sh.record) :
      Move S sch t sh ⟨{ t with pc := .schedule }, sh, false⟩
  | publish (hpc : t.pc = .publish) : Move S sch t sh (t.publish sh)
  | schedule {pc : Pc N} (hpc : t.pc = .schedule) (h : pc = .send ∨ pc = .empty) :
      Move S sch t sh ⟨{ t with pc := pc, stats := {} }, sh, false⟩
  | send {moved kept : List N} (hpc : t.pc = .send) (hn : t.nodes = moved ++ kept)
      (hk : t.nodes = [] ↔ kept = []) :
      Move S sch t sh
        ⟨{ t with
            pc := .empty
            nodes := kept
            stats := { t.stats with setsSent := t.stats.setsSent + moved.length } },
          { sh with queueSets := sh.queueSets ++ moved }, true⟩
  | enter (hpc : t.pc = .empty) (h : t.nodes = []) :
      Move S sch t sh ⟨{ t with pc := .enter }, sh, false⟩
  | nonempty (hpc : t.pc = .empty) (h : t.nodes ≠ []) :
      Move S sch t sh ⟨{ t with pc := .returned }, sh, false⟩
  | announce (hpc : t.pc = .enter) : Move S sch t sh (t.announce sch sh)
  | block (hpc : t.pc = .lock) (hq : sh.queueSets = []) (hf : ¬ sch.finished sh.counter) :
      Move S sch t sh ⟨{ t with pc := .blocked }, sh, false⟩
  | take {taken left : List N} (hpc : t.pc = .lock) (hq : sh.queueSets = taken ++ left)
      (ht : taken ≠ []) :
      Move S sch t sh
        ⟨{ t with
            pc := .returned
            nodes := taken.reverse
            stats := { t.stats with setsReceived := t.stats.setsReceived + taken.length }
            counted := false },
          { sh with queueSets := left, counter := sch.withdraw sh.counter }, false⟩
  | finish (hpc : t.pc = .lock) (hq : sh.queueSets = []) (hf : sch.finished sh.counter) :
      Move S sch t sh ⟨{ t with pc := .returned }, sh, true⟩
  | ret (hpc : t.pc = .returned) :
      Move S sch t sh
        ⟨{ t with pc := .loop, listStats := t.listStats.add t.stats, stats := {} }, sh, false⟩

/-- The section after the predicate of `wait`, entered without nodes. -/
theorem wait_move (hmin : 0 < sch.numMinimumNodes.toNat) (hpc : t.pc = .lock)
    (hn : t.nodes = []) : Move S sch t sh (t.wait sch sh) := by
  obtain ⟨pc, listNodes, listStats, record, nodes, sol, stats, counted⟩ := t
  obtain ⟨shared, queueSets, counter, interrupted, created, released⟩ := sh
  subst hpc hn
  obtain ⟨taken, left, hq, heq⟩ :=
    takeNodes_spec sch.numMinimumNodes.toNat [] queueSets stats.setsReceived
  have hnil := takeNodes_eq_nil_iff hmin queueSets stats.setsReceived
  rw [heq, List.append_nil, List.reverse_eq_nil_iff] at hnil
  simp only [wait, take, heq, List.append_nil, List.isEmpty_eq_false_iff, List.isEmpty_iff,
    List.reverse_eq_nil_iff]
  by_cases hqn : queueSets = []
  · obtain rfl := hnil.mpr hqn
    obtain rfl : left = [] := by rw [hqn] at hq; exact hq.symm
    subst hqn
    by_cases hf : sch.finished counter
    · rw [if_pos (.inr hf), if_pos ⟨rfl, hf⟩]
      exact .finish rfl rfl hf
    · rw [if_neg (by simp [hf])]
      exact .block rfl rfl hf
  · have htaken : taken ≠ [] := hqn ∘ hnil.mp
    rw [if_pos (.inl hqn), if_neg (htaken ∘ And.left)]
    exact .take rfl hq htaken

/-- A step is a move, or the move that counts the thread and the one after it. -/
theorem step_cases (hmin : 0 < sch.numMinimumNodes.toNat) (hok : t.Ok)
    (h : t.step S sch sh = some o) : Move S sch t sh o ∨
      t.pc = .enter ∧ Move S sch (t.announce sch sh).thread (t.announce sch sh).shared o := by
  cases hpc : t.pc with
  | idle => simp [step, hpc] at h
  | start =>
    simp only [step, hpc, Option.some.injEq] at h
    exact .inl (h ▸ .begin hpc)
  | loop =>
    cases hn : t.nodes with
    | nil =>
      simp only [step, hpc, hn, Option.some.injEq] at h
      exact .inl (h ▸ .leave hpc (.inl hn))
    | cons n nodes =>
      cases hi : sh.interrupted with
      | true =>
        simp only [step, hpc, hn, hi, Option.some.injEq] at h
        exact .inl (h ▸ .leave hpc (.inr hi))
      | false =>
        simp only [step, hpc, hn, hi, Option.some.injEq] at h
        exact .inl (h ▸ .pop hpc hn hi)
  | read n =>
    simp only [step, hpc, Option.some.injEq] at h
    exact .inl (h ▸ .read hpc)
  | branch n =>
    simp only [step, hpc, Option.some.injEq] at h
    exact .inl (h ▸ .branch hpc)
  | check =>
    simp only [step, hpc, Option.some.injEq] at h
    by_cases hlt : t.record < sh.record
    · exact .inl (h ▸ if_pos (c := t.record < sh.record) hlt ▸ .lower hpc hlt)
    · exact .inl (h ▸ if_neg (c := t.record < sh.record) hlt ▸ .keep hpc hlt)
  | publish =>
    simp only [step, hpc, Option.some.injEq] at h
    exact .inl (h ▸ .publish hpc)
  | schedule =>
    simp only [step, hpc, Option.some.injEq] at h
    refine .inl (h ▸ .schedule hpc ?_)
    split
    exacts [.inl rfl, .inr rfl]
  | send =>
    simp only [step, hpc, Option.some.injEq] at h
    obtain ⟨moved, kept, hn, hk, heq⟩ := sendNodes_spec hmin t.nodes sh.queueSets t.stats.setsSent
    simp only [send, heq] at h
    exact .inl (h ▸ .send hpc hn hk)
  | empty =>
    simp only [step, hpc, Option.some.injEq] at h
    cases hn : t.nodes with
    | nil => exact .inl (h ▸ by simpa [hn] using Move.enter hpc hn)
    | cons n nodes => exact .inl (h ▸ by simpa [hn] using Move.nonempty hpc (by simp [hn]))
  | enter =>
    simp only [step, hpc, Option.some.injEq] at h
    simp only [Ok, hpc] at hok
    cases sch with
    | giving p => exact .inr ⟨rfl, h ▸ wait_move hmin rfl hok.2.1⟩
    | requesting p => exact .inl (h ▸ .announce hpc)
  | lock =>
    simp only [step, hpc, Option.some.injEq] at h
    simp only [Ok, hpc] at hok
    exact .inl (h ▸ wait_move hmin hpc hok.2.1)
  | blocked => simp [step, hpc] at h
  | returned =>
    simp only [step, hpc, Option.some.injEq] at h
    exact .inl (h ▸ .ret hpc)
  | exited => simp [step, hpc] at h

/-- The nodes a thread has to account for. -/
def pending (t : Thread N) : Multiset N :=
  t.listNodes + t.nodes +
    match t.pc with
    | .read n | .branch n => {n}
    | _ => 0

/-- The statistics of `schedule` are zero outside of it. -/
def StatsOk (t : Thread N) : Prop :=
  match t.pc with
  | .idle | .start => t.listStats = {} ∧ t.stats = {}
  | .loop | .read _ | .branch _ | .check | .publish | .schedule => t.stats = {}
  | _ => True

def setsSent (t : Thread N) : ℕ := t.listStats.setsSent + t.stats.setsSent

def setsReceived (t : Thread N) : ℕ := t.listStats.setsReceived + t.stats.setsReceived

@[simp] theorem notified_pending : t.notified.pending = t.pending := by
  unfold notified
  split
  · next hpc => simp [pending, hpc]
  · rfl

@[simp] theorem notified_counted : t.notified.counted = t.counted := by
  unfold notified; split <;> rfl

@[simp] theorem notified_setsSent : t.notified.setsSent = t.setsSent := by
  unfold notified; split <;> rfl

@[simp] theorem notified_setsReceived : t.notified.setsReceived = t.setsReceived := by
  unfold notified; split <;> rfl

theorem notified_pc : t.notified.pc = t.pc ∨ t.pc = .blocked ∧ t.notified.pc = .lock := by
  unfold notified
  split
  · next hpc => exact .inr ⟨hpc, rfl⟩
  · exact .inl rfl

theorem notified_ne_blocked : t.notified.pc ≠ .blocked := by
  unfold notified
  split
  · simp
  · next h => exact h

theorem Ok.notified (hok : t.Ok) : t.notified.Ok := by
  unfold Thread.notified
  split
  · next hpc => simpa [Ok, hpc] using hok
  · exact hok

theorem StatsOk.notified (hok : t.StatsOk) : t.notified.StatsOk := by
  unfold Thread.notified
  split
  · trivial
  · exact hok

/-! ### What a move changes -/

namespace Move

theorem ok (hok : t.Ok) (h : Move S sch t sh o) : o.thread.Ok := by
  cases h with
  | schedule hpc h => rcases h with rfl | rfl <;> simp_all [Ok]
  | _ => simp_all [Ok, Thread.begin, Thread.leave, Thread.branch, Thread.publish, Thread.announce]

theorem statsOk (hok : t.StatsOk) (h : Move S sch t sh o) : o.thread.StatsOk := by
  cases h with
  | schedule hpc h => rcases h with rfl | rfl <;> simp_all [StatsOk]
  | _ =>
    simp_all [StatsOk, Thread.begin, Thread.leave, Thread.branch, Thread.publish, Thread.announce]

/-- Created nodes are released, pending at the thread or in the queue. -/
theorem balance (hok : t.Ok) (h : Move S sch t sh o) :
    o.shared.created + (sh.released + (t.pending + sh.queueSets)) =
      sh.created + (o.shared.released + (o.thread.pending + o.shared.queueSets)) := by
  cases h with
  | begin hpc =>
    simp only [Ok, hpc] at hok
    simp [Thread.begin, pending, hpc, hok.1, Container.pushAll_eq]
  | pop hpc hn =>
    simp only [pending, hpc, hn, ← Multiset.cons_coe, ← Multiset.singleton_add]
    ac_rfl
  | leave hpc h =>
    simp only [Ok, hpc] at hok
    simp only [Thread.leave, pending, hpc, hok.1, Multiset.coe_nil]
    ac_rfl
  | branch hpc =>
    simp only [Thread.branch, pending, hpc, Container.pushAll_eq, ← Multiset.coe_add,
      ← Multiset.singleton_add, Multiset.coe_reverse, add_zero]
    ac_rfl
  | schedule hpc h => rcases h with rfl | rfl <;> simp [pending, hpc]
  | send hpc hn =>
    simp only [pending, hpc, hn, ← Multiset.coe_add]
    ac_rfl
  | take hpc hq =>
    simp only [Ok, hpc] at hok
    simp only [pending, hpc, hok.2.1, hq, ← Multiset.coe_add, Multiset.coe_reverse,
      Multiset.coe_nil]
    ac_rfl
  | _ => simp_all [Ok, pending, Thread.publish, Thread.announce]

/-- Sent nodes are received or in the queue. -/
theorem stats (hok : t.StatsOk) (h : Move S sch t sh o) :
    o.thread.setsSent + (t.setsReceived + sh.queueSets.length) =
      t.setsSent + (o.thread.setsReceived + o.shared.queueSets.length) := by
  cases h with
  | schedule hpc h =>
    simp only [StatsOk, hpc] at hok
    simp [setsSent, setsReceived, hok]
  | send hpc hn =>
    simp only [setsSent, setsReceived, List.length_append]
    omega
  | take hpc hq =>
    simp only [setsSent, setsReceived, hq, List.length_append]
    omega
  | ret hpc =>
    simp only [setsSent, setsReceived, SchedulerStats.add]
    omega
  | _ =>
    simp_all [StatsOk, setsSent, setsReceived, Thread.begin, Thread.leave, Thread.branch,
      Thread.publish, Thread.announce]

/-- The counter follows `counted`. -/
theorem counter (hok : t.Ok) (h : Move S sch t sh o) :
    (o.thread.counted = t.counted ∧ o.shared.counter = sh.counter) ∨
    (t.counted = false ∧ o.thread.counted = true ∧ o.thread.pc = .lock ∧
      o.shared.counter = sch.announce sh.counter) ∨
    (t.counted = true ∧ o.thread.counted = false ∧ sh.queueSets ≠ [] ∧
      o.shared.counter = sch.withdraw sh.counter) := by
  cases h with
  | announce hpc =>
    simp only [Ok, hpc] at hok
    exact .inr (.inl ⟨hok.2.2, rfl, rfl, rfl⟩)
  | take hpc hq ht =>
    simp only [Ok, hpc] at hok
    exact .inr (.inr ⟨hok.2.2, rfl, by simp [hq, ht], rfl⟩)
  | _ => exact .inl ⟨rfl, rfl⟩

end Move

end Thread

end Optimer
