import Optimer.Bnb.ParallelInv

/-! Uninterrupted runs of `ParallelBNB::solve`: which threads are handed nodes, how the pending nodes
change, and that nobody waits forever. -/

namespace Optimer
open Transition

namespace Thread

variable {N : Type*} {S : Solver N} {sch : Scheduler} {t : Thread N} {sh : Shared N}
  {o : Outcome N}

/-- The thread was given nodes at the start and has not left its loop before all were counted. -/
def Handed (t : Thread N) : Prop :=
  match t.pc with
  | .idle | .start => t.listNodes ≠ []
  | .loop => t.nodes ≠ [] ∨ t.counted = true
  | .exited => t.counted = true
  | _ => True

/-- The thread got no nodes and leaves without calling `schedule`. -/
def Unhanded (t : Thread N) : Prop :=
  (t.pc = .idle ∨ t.pc = .start ∨ t.pc = .loop ∨ t.pc = .exited) ∧ t.listNodes = [] ∧
    t.nodes = [] ∧ t.counted = false

theorem Handed.notified (h : t.Handed) : t.notified.Handed := by
  unfold Thread.notified
  split
  exacts [trivial, h]

theorem Unhanded.notified (h : t.Unhanded) : t.notified.Unhanded := by
  unfold Thread.notified
  split
  · next hpc => simp [Unhanded, hpc] at h
  · exact h

theorem Unhanded.not_handed (h : t.Unhanded) : ¬ t.Handed := by
  obtain ⟨hpc, hl, hn, hc⟩ := h
  rcases hpc with hpc | hpc | hpc | hpc <;> simp [Handed, hpc, hl, hn, hc]

theorem Unhanded.pending (h : t.Unhanded) : t.pending = 0 := by
  obtain ⟨hpc, hl, hn, _⟩ := h
  rcases hpc with hpc | hpc | hpc | hpc <;> simp [Thread.pending, hpc, hl, hn]

/-- A counted thread has nothing left. -/
theorem Ok.pending_eq_zero (hok : t.Ok) (hc : t.counted = true) : t.pending = 0 := by
  unfold Ok at hok
  unfold Thread.pending
  split at hok <;> simp_all

theorem branch_pending {n : N} (hpc : t.pc = .branch n) :
    (t.branch S sh n).thread.pending + {n} = t.pending + (S.branch n t.record t.sol).nodes := by
  simp only [branch, Thread.pending, hpc, Container.pushAll_eq, ← Multiset.coe_add,
    Multiset.coe_reverse]
  ac_rfl

theorem mem_pending {n : N} (hpc : t.pc = .branch n) : n ∈ t.pending := by
  simp [Thread.pending, hpc]

namespace Move

theorem interrupted (h : Move S sch t sh o) : o.shared.interrupted = sh.interrupted := by
  cases h <;> rfl

theorem handed (hi : sh.interrupted = false) (hok : t.Ok) (ht : t.Handed)
    (h : Move S sch t sh o) : o.thread.Handed := by
  cases h with
  | schedule hpc h => rcases h with rfl | rfl <;> trivial
  | ret hpc =>
    simp only [Ok, hpc] at hok
    show t.nodes ≠ [] ∨ t.counted = true
    rw [hok.2]
    exact (Classical.em _).symm
  | _ =>
    simp_all [Handed, Ok, Thread.begin, Thread.leave, Thread.branch, Thread.publish,
      Thread.announce, Container.pushAll_eq]

theorem unhanded (ht : t.Unhanded) (h : Move S sch t sh o) : o.thread.Unhanded := by
  cases h with
  | begin hpc => simp_all [Unhanded, Thread.begin, Container.pushAll_eq]
  | leave hpc => simp_all [Unhanded, Thread.leave]
  | _ => simp_all [Unhanded]

theorem queue (h : Move S sch t sh o) (hq : o.shared.queueSets ≠ []) :
    sh.queueSets ≠ [] ∨ o.thread.Handed := by
  cases h with
  | send hpc => exact .inr trivial
  | take hpc hq' => exact .inr trivial
  | _ => exact .inl hq

/-- Only branching creates and releases nodes. -/
theorem ledger (hi : sh.interrupted = false) (h : Move S sch t sh o) :
    (o.shared.created = sh.created ∧ o.shared.released = sh.released ∧ ∀ n, t.pc ≠ .branch n) ∨
      ∃ n, t.pc = .branch n ∧ o = t.branch S sh n := by
  cases h with
  | branch hpc => exact .inr ⟨_, hpc, rfl⟩
  | leave hpc h =>
    have hn : t.nodes = [] := h.resolve_right (by simp [hi])
    exact .inl ⟨rfl, by simp [Thread.leave, hn], by simp [hpc]⟩
  | _ => exact .inl ⟨rfl, rfl, by simp_all⟩

end Move

end Thread

namespace State

variable {N : Type*} {T : ℕ} {st : State N T} {i : Fin T} {o : Outcome N}

theorem pending_apply (st : State N T) (i : Fin T) (o : Outcome N) :
    (st.apply i o).pending + ((st.threads i).pending + st.shared.queueSets) =
      st.pending + (o.thread.pending + o.shared.queueSets) := by
  have hsum := sum_apply (fun t => t.notified_pending) st i o
  simp only [pending, apply_main, apply_shared]
  calc _ = ((st.apply i o).sum Thread.pending + (st.threads i).pending) + st.main.nodes +
        o.shared.queueSets + st.shared.queueSets := by ac_rfl
    _ = _ := by rw [hsum]; ac_rfl

theorem thread_pending_le (st : State N T) (i : Fin T) : (st.threads i).pending ≤ st.pending := by
  have hle : (st.threads i).pending ≤ st.sum Thread.pending :=
    Finset.single_le_sum (f := fun i => (st.threads i).pending) (fun _ _ => Multiset.zero_le _)
      (Finset.mem_univ i)
  exact hle.trans ((Multiset.le_add_left _ _).trans (Multiset.le_add_right _ _))

end State

namespace Parallel

variable {N : Type*} {S : Solver N} {sch : Scheduler} {c : Container}
  {st st' : State N sch.numThreads.toNat} {i : Fin sch.numThreads.toNat} {o : Outcome N}

/-- A pending node is replaced by the nodes `branch` returns for it. -/
def Branching {T : ℕ} (S : Solver N) (st st' : State N T) : Prop :=
  ∃ n record sol rest, st.pending = n ::ₘ rest ∧
    st'.pending = (S.branch n record sol).nodes + rest

/-- What a call of `branch` by a thread does to the pending nodes. -/
theorem pending_branch {n : N} (hpc : (st.threads i).pc = .branch n) :
    ∃ rest, st.pending = n ::ₘ rest ∧ (st.apply i ((st.threads i).branch S st.shared n)).pending =
      (S.branch n (st.threads i).record (st.threads i).sol).nodes + rest := by
  have happ := st.pending_apply i ((st.threads i).branch S st.shared n)
  have hstep : ((st.threads i).branch S st.shared n).thread.pending + {n} =
      (st.threads i).pending + (S.branch n (st.threads i).record (st.threads i).sol).nodes :=
    Thread.branch_pending hpc
  obtain ⟨rest, hrest⟩ := Multiset.exists_cons_of_mem
    (Multiset.mem_of_le (st.thread_pending_le i) (Thread.mem_pending hpc))
  refine ⟨rest, hrest, ?_⟩
  have hold : st.pending = {n} + rest := hrest
  refine add_right_cancel (b := {n} + ((st.threads i).pending + st.shared.queueSets)) ?_
  calc _ = (st.apply i ((st.threads i).branch S st.shared n)).pending +
        ((st.threads i).pending + st.shared.queueSets) + {n} := by ac_rfl
    _ = st.pending + (((st.threads i).branch S st.shared n).thread.pending + {n}) +
        st.shared.queueSets := by rw [happ]; simp only [Thread.branch]; ac_rfl
    _ = _ := by rw [hstep, hold]; ac_rfl

theorem pending_keep (hok : (st.threads i).Ok) (h : (st.threads i).Move S sch st.shared o)
    (hc : o.shared.created = st.shared.created) (hr : o.shared.released = st.shared.released) :
    (st.apply i o).pending = st.pending := by
  have happ := st.pending_apply i o
  have hbal := h.balance hok
  rw [hc, hr] at hbal
  rw [← add_left_cancel (add_left_cancel hbal)] at happ
  exact add_right_cancel happ

theorem pending_move (hi : st.shared.interrupted = false) (hok : (st.threads i).Ok)
    (h : (st.threads i).Move S sch st.shared o) :
    (st.apply i o).pending = st.pending ∨ Branching S st (st.apply i o) := by
  rcases h.ledger hi with ⟨hc, hr, _⟩ | ⟨n, hpc, rfl⟩
  · exact .inl (pending_keep hok h hc hr)
  · obtain ⟨rest, hrest, hpend⟩ := pending_branch (S := S) hpc
    exact .inr ⟨n, _, _, rest, hrest, hpend⟩

theorem pending_announce (hpc : (st.threads i).pc = .enter) :
    (st.apply i ((st.threads i).announce sch st.shared)).pending = st.pending := by
  have happ := st.pending_apply i ((st.threads i).announce sch st.shared)
  have heq : ((st.threads i).announce sch st.shared).thread.pending = (st.threads i).pending := by
    simp [Thread.announce, Thread.pending, hpc]
  rw [heq] at happ
  exact add_right_cancel happ

/-- In an uninterrupted run the pending nodes change only by branching. -/
theorem Step.pending (hmin : 0 < sch.numMinimumNodes.toNat) (h : Inv sch st)
    (hi : st.shared.interrupted = false) (hclean : ∀ nodes, st.main = .clean nodes → nodes = [])
    (hstep : Step S sch c st st') : st'.pending = st.pending ∨ Branching S st st' := by
  cases hstep with
  | @branch f n rest hm _ hsize hp =>
    refine .inr ⟨n, f.record, f.sol, rest + st.sum Thread.pending + st.shared.queueSets, ?_, ?_⟩
    · simp only [State.pending, hm, Main.nodes, Multiset.coe_eq_coe.mpr hp.perm,
        ← Multiset.cons_coe, Multiset.cons_add]
    · simp only [State.pending, State.sum, Main.nodes, First.body, Container.pushAll_eq,
        ← Multiset.coe_add, Multiset.coe_reverse]
      ac_rfl
  | hand hm hp hk =>
    refine .inl (State.pending_update ?_)
    rw [hm]
    exact Thread.pending_push hp.perm _
  | @spawn k hm =>
    have hmain := h.main
    simp only [MainOk, hm] at hmain
    refine .inl (State.pending_update ?_)
    rw [hm, Thread.pending_start ((hmain.2 k).mpr le_rfl)]
    rfl
  | clean hm hp =>
    exact absurd (hclean _ hm) hp.ne_nil
  | @thread i o hstep =>
    rcases Thread.step_cases hmin (h.ok i) hstep with hmove | ⟨hpc, hmove⟩
    · exact pending_move hi (h.ok i) hmove
    · let st₁ := st.apply i ((st.threads i).announce sch st.shared)
      have hself : st₁.threads i = ((st.threads i).announce sch st.shared).thread :=
        State.apply_self rfl
      have hpend : st₁.pending = st.pending := pending_announce hpc
      have hok : (st₁.threads i).Ok := (h.apply (S := S) (.announce hpc)).ok i
      have hmove₁ : (st₁.threads i).Move S sch st₁.shared o := hself ▸ hmove
      have happ : st₁.apply i o = st.apply i o := State.apply_apply rfl
      have hi₁ : st₁.shared.interrupted = false := hi
      have hcases := pending_move hi₁ hok hmove₁
      rwa [happ, Branching, hpend] at hcases
  | stop hm | skip hm | resize hm | handed hm | spawned hm | join hm | ret hm =>
    exact .inl (by simp [State.pending, hm, Main.nodes, State.sum])

/-! ### Who is handed nodes -/

/-- The first `m` threads have been handed nodes. -/
def HandedOut {T : ℕ} (Q : ℕ → Prop) (st : State N T) : Prop :=
  ∃ m, Q m ∧ ∀ i : Fin T, (i.val < m → (st.threads i).Handed) ∧ (m ≤ i.val → (st.threads i).Unhanded)

/-- The condition of the loop of the first phase fails. -/
def FirstEnd (sch : Scheduler) (f : First N) : Prop :=
  f.nodes = [] ∨ bound sch ≤ f.nodes.length

/-- The number of nodes the first phase leaves satisfies `Q`, and they are handed out in turn. -/
def MainHanded (S : Solver N) (sch : Scheduler) (c : Container) (Q : ℕ → Prop)
    (st : State N sch.numThreads.toNat) : Prop :=
  match st.main with
  | .first f => ∀ g, Reaches (FirstStep S sch c) f g → FirstEnd sch g → Q g.nodes.length
  | .decide nodes => Q nodes.length
  | .hand nodes i => ∃ m, i = UInt32.ofNat m ∧ Q (m + nodes.length) ∧
      ∀ k, (st.threads k).listNodes ≠ [] ↔ k.val < m
  | .spawn _ | .join => HandedOut Q st
  | .clean nodes => nodes = [] ∧ (∀ i, (st.threads i).pc = .exited) ∧ HandedOut Q st
  | .returned sol => (sol.value = st.shared.record ∧ sol.route = []) ∧
      (∀ i, (st.threads i).pc = .exited) ∧ HandedOut Q st

/-- The invariant of an uninterrupted run. -/
structure Running (S : Solver N) (sch : Scheduler) (c : Container) (Q : ℕ → Prop)
    (st : State N sch.numThreads.toNat) : Prop where
  inv : Inv sch st
  uninterrupted : st.shared.interrupted = false
  handed : MainHanded S sch c Q st
  queue : st.shared.queueSets ≠ [] → ∃ i, (st.threads i).Handed

/-- The index of `list_nodes_` goes through the threads in turn. -/
theorem hand_index {T : UInt32} {m : ℕ} {j k : Fin T.toNat}
    (hk : k = (UInt32.ofNat m % T).toNat) : j.val < m + 1 ↔ j.val < m ∨ j = k := by
  have hT := T.toNat_lt
  rw [UInt32.toNat_mod, UInt32.toNat_ofNat'] at hk
  by_cases hm : m < T.toNat
  · rw [Nat.mod_eq_of_lt (hm.trans hT), Nat.mod_eq_of_lt hm] at hk
    rw [Fin.ext_iff, hk]
    omega
  · have hj := j.isLt
    exact iff_of_true (by omega) (.inl (by omega))

variable {Q : ℕ → Prop}

theorem HandedOut.of_apply (h : HandedOut Q st) (hinv : Inv sch st)
    (hi : st.shared.interrupted = false) (hmove : (st.threads i).Move S sch st.shared o) :
    HandedOut Q (st.apply i o) := by
  obtain ⟨m, hm, hall⟩ := h
  refine ⟨m, hm, fun j => ⟨fun hlt => ?_, fun hle => ?_⟩⟩
  · refine State.apply_of (P := Thread.Handed) (fun _ => .notified) j ?_ fun _ => (hall j).1 hlt
    rintro rfl
    exact hmove.handed hi (hinv.ok j) ((hall j).1 hlt)
  · refine State.apply_of (P := Thread.Unhanded) (fun _ => .notified) j ?_ fun _ => (hall j).2 hle
    rintro rfl
    exact hmove.unhanded ((hall j).2 hle)

theorem Running.apply (h : Running S sch c Q st)
    (hmove : (st.threads i).Move S sch st.shared o) : Running S sch c Q (st.apply i o) where
  inv := h.inv.apply hmove
  uninterrupted := hmove.interrupted.trans h.uninterrupted
  handed := by
    obtain ⟨hidle, _, hexited, _⟩ := hmove.pc
    have hmain := h.inv.main
    have hhand := h.handed
    cases hm : st.main with
    | first f | decide nodes =>
      simp only [MainOk, hm] at hmain
      exact absurd (hmain.1 i).1 hidle
    | hand nodes k =>
      simp only [MainOk, hm] at hmain
      exact absurd (hmain i) hidle
    | spawn k | join =>
      simp only [MainHanded, hm, State.apply_main] at hhand ⊢
      exact hhand.of_apply h.inv h.uninterrupted hmove
    | clean nodes | returned sol =>
      simp only [MainHanded, hm] at hhand
      exact absurd (hhand.2.1 i) hexited
  queue hq := by
    rcases hmove.queue hq with hold | hi
    · obtain ⟨j, hj⟩ := h.queue hold
      refine ⟨j, State.apply_of (P := Thread.Handed) (fun _ => .notified) j ?_ fun _ => hj⟩
      rintro rfl
      exact hmove.handed h.uninterrupted (h.inv.ok j) hj
    · refine ⟨i, State.apply_of (P := Thread.Handed) (fun _ => .notified) i (fun _ => hi) ?_⟩
      exact fun hne => absurd rfl hne

theorem Running.step (hmin : 0 < sch.numMinimumNodes.toNat) (h : Running S sch c Q st)
    (hstep : Step S sch c st st') : Running S sch c Q st' := by
  have hinv := hstep.inv hmin h.inv
  have hmain := h.inv.main
  have hhand := h.handed
  cases hstep with
  | branch hm _ hsize hp =>
    simp only [MainHanded, hm] at hhand
    exact ⟨hinv, h.uninterrupted, fun g hg => hhand g (.head (.body hsize hp) hg), h.queue⟩
  | stop hm hstop =>
    simp only [MainHanded, hm] at hhand
    refine ⟨hinv, h.uninterrupted, hhand _ .refl ?_, h.queue⟩
    rcases hstop with hs | hs | hs
    exacts [.inl hs, .inr hs, absurd hs (by simp [h.uninterrupted])]
  | skip hm hi => exact absurd hi (by simp [h.uninterrupted])
  | resize hm hi =>
    simp only [MainHanded, MainOk, hm] at hhand hmain
    refine ⟨hinv, h.uninterrupted, ⟨0, rfl, by simpa using hhand, fun k => ?_⟩, h.queue⟩
    simp [(hmain.1 k).2]
  | @hand nodes rest _ n k hm hp hk =>
    simp only [MainHanded, MainOk, hm] at hhand hmain
    obtain ⟨m, rfl, hQ, hall⟩ := hhand
    refine ⟨hinv, h.uninterrupted, ⟨m + 1, (UInt32.ofNat_add ..).symm, ?_, fun j => ?_⟩,
      fun hq => ?_⟩
    · have hlen := hp.perm.length_eq
      rwa [Nat.add_assoc, Nat.add_comm 1, ← List.length_cons, ← hlen]
    · rw [hand_index hk, ← hall j]
      by_cases hjk : j = k
      · subst hjk; simp
      · simp [hjk]
    · obtain ⟨j, hj⟩ := h.queue hq
      refine ⟨j, ?_⟩
      by_cases hjk : j = k
      · subst hjk; simp [Thread.Handed, hmain j]
      · simpa [hjk] using hj
  | handed hm =>
    simp only [MainHanded, MainOk, hm] at hhand hmain
    obtain ⟨m, _, hQ, hall⟩ := hhand
    refine ⟨hinv, h.uninterrupted, ⟨m, hQ, fun j => ⟨fun hlt => ?_, fun hle => ?_⟩⟩, h.queue⟩
    · simpa only [Thread.Handed, hmain j] using (hall j).mpr hlt
    · have hok := h.inv.ok j
      simp only [Thread.Ok, hmain j] at hok
      have hlist : (st.threads j).listNodes = [] :=
        not_not.mp (mt (hall j).mp (not_lt.mpr hle))
      exact ⟨.inl (hmain j), hlist, hok⟩
  | @spawn k hm =>
    simp only [MainHanded, MainOk, hm] at hhand hmain
    have hidle := (hmain.2 k).mpr le_rfl
    have hstart : (st.threads k).Handed → Thread.Handed { st.threads k with pc := .start } := by
      simp only [Thread.Handed, hidle]
      exact id
    obtain ⟨m, hQ, hall⟩ := hhand
    refine ⟨hinv, h.uninterrupted, ⟨m, hQ, fun j => ?_⟩, fun hq => ?_⟩
    · by_cases hjk : j = k
      · subst hjk
        simp only [Function.update_self]
        exact ⟨hstart ∘ (hall j).1, fun hle => ⟨.inr (.inl rfl), ((hall j).2 hle).2⟩⟩
      · simpa [hjk] using hall j
    · obtain ⟨j, hj⟩ := h.queue hq
      refine ⟨j, ?_⟩
      by_cases hjk : j = k
      · subst hjk; simpa using hstart hj
      · simpa [hjk] using hj
  | spawned hm =>
    simp only [MainHanded, hm] at hhand
    exact ⟨hinv, h.uninterrupted, hhand, h.queue⟩
  | join hm hall =>
    simp only [MainHanded, hm] at hhand
    exact ⟨hinv, h.uninterrupted, ⟨rfl, hall, hhand⟩, h.queue⟩
  | clean hm hp =>
    simp only [MainHanded, hm] at hhand
    exact absurd hhand.1 hp.ne_nil
  | ret hm =>
    simp only [MainHanded, hm] at hhand
    exact ⟨hinv, h.uninterrupted, ⟨⟨rfl, rfl⟩, hhand.2⟩, h.queue⟩
  | thread hstep => exact of_step hmin Running.apply (h.inv.ok _) h hstep

theorem Running.wake (h : Running S sch c Q st) (hwake : Wake st st') :
    Running S sch c Q st' := by
  have hinv := hwake.inv h.inv
  have hhand := h.handed
  obtain ⟨i⟩ := hwake
  have ht j : Function.update st.threads i (st.threads i).notified j = st.threads j ∨
      Function.update st.threads i (st.threads i).notified j = (st.threads j).notified := by
    by_cases hji : j = i
    · subst hji; exact .inr (Function.update_self ..)
    · exact .inl (Function.update_of_ne hji ..)
  have hkeep {P : Thread N → Prop} (hP : ∀ t, P t → P t.notified) {j} (hj : P (st.threads j)) :
      P (Function.update st.threads i (st.threads i).notified j) := by
    rcases ht j with h | h <;> rw [h]
    exacts [hj, hP _ hj]
  have hout (h : HandedOut Q st) :
      HandedOut Q { st with threads := Function.update st.threads i (st.threads i).notified } := by
    obtain ⟨m, hQ, hall⟩ := h
    exact ⟨m, hQ, fun j => ⟨fun hlt => hkeep (P := Thread.Handed) (fun _ => .notified) ((hall j).1 hlt),
      fun hle => hkeep (P := Thread.Unhanded) (fun _ => .notified) ((hall j).2 hle)⟩⟩
  have hexited (h : ∀ j, (st.threads j).pc = .exited) (j) :
      (Function.update st.threads i (st.threads i).notified j).pc = .exited :=
    hkeep (P := fun t => t.pc = .exited) (fun t he => by simp [Thread.notified, he]) (h j)
  refine ⟨hinv, h.uninterrupted, ?_, fun hq => ?_⟩
  · cases hm : st.main with
    | first f | decide nodes =>
      simp only [MainHanded, hm] at hhand ⊢
      exact hhand
    | hand nodes k =>
      simp only [MainHanded, hm] at hhand ⊢
      obtain ⟨m, hk, hQ, hall⟩ := hhand
      refine ⟨m, hk, hQ, fun j => ?_⟩
      rw [← hall j]
      rcases ht j with h | h <;> simp [h]
    | spawn k | join =>
      simp only [MainHanded, hm] at hhand ⊢
      exact hout hhand
    | clean nodes | returned sol =>
      simp only [MainHanded, hm] at hhand ⊢
      exact ⟨hhand.1, hexited hhand.2.1, hout hhand.2.2⟩
  · obtain ⟨j, hj⟩ := h.queue hq
    exact ⟨j, hkeep (P := Thread.Handed) (fun _ => .notified) hj⟩

/-- What the first phase of a call can leave. -/
def FirstLeaves (S : Solver N) (sch : Scheduler) (c : Container) (record : ValueType)
    (Q : ℕ → Prop) : Prop :=
  ∀ g, Reaches (FirstStep S sch c) (firstStart S record) g → FirstEnd sch g → Q g.nodes.length

theorem Running.start {sh : Shared N} (hq : sh.queueSets = [])
    (hctr : sh.counter = sch.initialCounter) (hbal : sh.created = sh.released)
    {record : ValueType} (hfirst : S.rank > minRankValue → FirstLeaves S sch c record Q)
    (hzero : ¬ S.rank > minRankValue → Q 0) : Running S sch c Q (start S sch sh record) where
  inv := Inv.start S hq hctr hbal record
  uninterrupted := by
    unfold Parallel.start
    split <;> rfl
  handed := by
    unfold Parallel.start
    split
    · next h => exact hfirst h
    · next h => exact hzero h
  queue hne := by
    unfold Parallel.start at hne
    split at hne <;> exact absurd hq hne

/-- The steps of a run without a signal. -/
def Uninterrupted (S : Solver N) (sch : Scheduler) (c : Container)
    (st st' : State N sch.numThreads.toNat) : Prop := Step S sch c st st' ∨ Wake st st'

theorem Running.preserved (hmin : 0 < sch.numMinimumNodes.toNat) :
    Preserved (Uninterrupted S sch c) (Running S sch c Q) := by
  rintro st st' h (hstep | hwake)
  exacts [h.step hmin hstep, h.wake hwake]

/-! ### Soundness of the schedulers -/

theorem Running.handedOut (h : Running S sch c Q st) (hpc : (st.threads i).pc ≠ .idle) :
    HandedOut Q st := by
  have hmain := h.inv.main
  have hhand := h.handed
  cases hm : st.main with
  | first f | decide nodes =>
    simp only [MainOk, hm] at hmain
    exact absurd (hmain.1 i).1 hpc
  | hand nodes k =>
    simp only [MainOk, hm] at hmain
    exact absurd (hmain i) hpc
  | spawn k | join =>
    simp only [MainHanded, hm] at hhand
    exact hhand
  | clean nodes | returned sol =>
    simp only [MainHanded, hm] at hhand
    exact hhand.2.2

/-- Once the scheduler counts every thread, no node is pending. -/
theorem Inv.pending_eq_zero (h : Inv sch st) (hall : ∀ i, (st.threads i).counted = true)
    (hq : st.shared.queueSets = []) (hm : st.main.nodes = []) : st.pending = 0 := by
  have hsum : st.sum Thread.pending = 0 :=
    Finset.sum_eq_zero fun i _ => (h.ok i).pending_eq_zero (hall i)
  simp [State.pending, hsum, hq, hm]

/-- All threads are handed nodes or none. -/
def Even (sch : Scheduler) (m : ℕ) : Prop := m = 0 ∨ sch.numThreads.toNat ≤ m

/-- What the scheduler keeps of a state of an uninterrupted run. -/
structure ScheduleSound (S : Solver N) (sch : Scheduler) (c : Container)
    (st : State N sch.numThreads.toNat) : Prop where
  handed : st.main = .spawn 0 →
    (∀ i, (st.threads i).listNodes ≠ []) ∨ ∀ i, (st.threads i).listNodes = []
  conserved : ∀ st', Uninterrupted S sch c st st' → st'.pending = st.pending ∨ Branching S st st'
  accounted : st.shared.created = st.shared.released + st.pending
  stats : st.sum Thread.setsSent = st.sum Thread.setsReceived + st.shared.queueSets.length
  done : ∀ i, (st.threads i).pc = .returned → (st.threads i).nodes = [] → st.pending = 0
  live : ¬ ∃ i, (st.threads i).pc = .blocked ∧ ¬ Thread.Ready sch st.shared ∧
    ∀ j, j ≠ i → (st.threads j).pc = .exited ∨ (st.threads j).pc = .blocked

namespace Running

theorem scheduleSound (hmin : 0 < sch.numMinimumNodes.toNat)
    (h : Running S sch c (Even sch) st) : ScheduleSound S sch c st where
  handed hm := by
    have hmain := h.inv.main
    have hhand := h.handed
    simp only [MainOk, MainHanded, hm] at hmain hhand
    have hidle i := (hmain.2 i).mpr i.val.zero_le
    obtain ⟨m, rfl | hm, hall⟩ := hhand
    · exact .inr fun i => ((hall i).2 i.val.zero_le).2.1
    · refine .inl fun i => ?_
      have hi := (hall i).1 (i.isLt.trans_le hm)
      simpa only [Thread.Handed, hidle i] using hi
  conserved st' hstep := by
    rcases hstep with hstep | hwake
    · refine hstep.pending hmin h.inv h.uninterrupted fun nodes hm => ?_
      have hhand := h.handed
      simp only [MainHanded, hm] at hhand
      exact hhand.1
    · obtain ⟨i⟩ := hwake
      have hkeep : ((st.main.nodes : Multiset N) + (st.threads i).notified.pending) =
          st.main.nodes + (st.threads i).pending := by rw [Thread.notified_pending]
      exact .inl (State.pending_update hkeep)
  accounted := h.inv.balance
  stats := h.inv.stats
  done i hpc hn := by
    have hok := h.inv.ok i
    simp only [Thread.Ok, hpc] at hok
    obtain ⟨hq, hf⟩ := h.inv.done i ⟨hok.2.mpr hn, by simp [hpc], by simp [hpc]⟩
    refine h.inv.pending_eq_zero (h.inv.finished_iff.mp hf) hq ?_
    have hmain := h.inv.main
    cases hm : st.main with
    | first f | decide nodes =>
      simp only [MainOk, hm] at hmain
      exact absurd (hmain.1 i).1 (by simp [hpc])
    | hand nodes k =>
      simp only [MainOk, hm] at hmain
      exact absurd (hmain i) (by simp [hpc])
    | spawn k | join | returned sol => rfl
    | clean nodes =>
      simp only [MainOk, hm] at hmain
      rcases hmain with h' | ⟨_, h'⟩
      exacts [absurd (h'.1 i).1 (by simp [hpc]), absurd (h' i) (by simp [hpc])]
  live := by
    rintro ⟨i, hpc, hready, hothers⟩
    obtain ⟨m, hm, hall⟩ := h.handedOut (i := i) (by simp [hpc])
    rcases hm with rfl | hm
    · obtain ⟨hun, _⟩ := (hall i).2 i.val.zero_le
      simp [hpc] at hun
    · refine hready (.inr (h.inv.finished_iff.mpr fun j => ?_))
      have hok := h.inv.ok j
      have hj : (st.threads j).pc = .exited ∨ (st.threads j).pc = .blocked := by
        by_cases hji : j = i
        · exact .inr (hji ▸ hpc)
        · exact hothers j hji
      rcases hj with hj | hj
      · have hhanded := (hall j).1 (j.isLt.trans_le hm)
        simpa only [Thread.Handed, hj] using hhanded
      · simp only [Thread.Ok, hj] at hok
        exact hok.2.2

end Running

/-- Without overflow of the bound the first phase leaves no node or one for each thread. -/
theorem firstLeaves_even (hprod : sch.numThreads.toNat * sch.numMinimumNodes.toNat < 2 ^ 32)
    (hmin : 1 ≤ sch.numMinimumNodes.toNat) (record : ValueType) :
    FirstLeaves S sch c record (Even sch) := by
  intro g _ hend
  have hbound : sch.numThreads.toNat ≤ bound sch := by
    rw [bound, UInt32.toNat_mul, Nat.mul_comm, Nat.mod_eq_of_lt hprod]
    exact Nat.le_mul_of_pos_right _ hmin
  rcases hend with hnil | hsize
  · exact .inl (by simp [hnil])
  · exact .inr (hbound.trans hsize)

/-- In every uninterrupted run of `solve` on a fresh object, whatever the solver branches into and
however the threads interleave, no node is lost, none is duplicated and no thread waits forever. -/
theorem schedulers_sound (S : Solver N) (sch : Scheduler) (c : Container) (record : ValueType)
    (hmin : 1 ≤ sch.numMinimumNodes.toNat)
    (hprod : sch.numThreads.toNat * sch.numMinimumNodes.toNat < 2 ^ 32)
    {st : State N sch.numThreads.toNat}
    (hr : Reaches (Uninterrupted S sch c) (start S sch (construct sch) record) st) :
    ScheduleSound S sch c st :=
  have hstart : Running S sch c (Even sch) (start S sch (construct sch) record) :=
    .start rfl rfl rfl (fun _ => firstLeaves_even hprod hmin record) fun _ => .inl rfl
  ((Running.preserved hmin).reaches hstart hr).scheduleSound hmin

/-! ### Two threads -/

/-- The next step of thread `i`, if it has one. -/
def tick (S : Solver N) (sch : Scheduler) (i : Fin sch.numThreads.toNat)
    (st : State N sch.numThreads.toNat) : State N sch.numThreads.toNat :=
  match (st.threads i).step S sch st.shared with
  | some o => st.apply i o
  | none => st

theorem step_tick (c : Container) (h : (st.threads i).step S sch st.shared = some o) :
    Step S sch c st (tick S sch i st) := by
  have htick : tick S sch i st = st.apply i o := by simp [tick, h]
  rw [htick]
  exact .thread h

theorem reaches_tick (S : Solver N) (sch : Scheduler) (c : Container)
    (is : List (Fin sch.numThreads.toNat)) (st : State N sch.numThreads.toNat) :
    Reaches (Step S sch c) st (is.foldl (fun st i => tick S sch i st) st) := by
  induction is generalizing st with
  | nil => exact .refl
  | cons i is ih =>
    rw [List.foldl_cons]
    cases h : (st.threads i).step S sch st.shared with
    | none =>
      have htick : tick S sch i st = st := by simp [tick, h]
      rw [htick]
      exact ih st
    | some o => exact .head (step_tick c h) (ih _)

/-- Two threads, one minimum node, one maximum node. -/
def pairScheduler : Scheduler := .giving ⟨2, 1, 1⟩

/-- Both threads have been started, one with the node `x`, one with `y`. -/
def pairStarted (record : ValueType) (x y : N) (sh : Shared N) : State N pairScheduler.numThreads.toNat where
  main := .spawn 2
  threads i := { pc := .start, listNodes := [if i.val = 0 then x else y] }
  shared := { sh with record }

/-- A step of `solve` before any thread has begun. It releases no node. -/
def Starting (S : Solver N) (sch : Scheduler) (c : Container) (st st' : State N sch.numThreads.toNat) : Prop :=
  Step S sch c st st' ∧ st'.shared.released = st.shared.released ∧
    ∀ i, (st.threads i).pc = .idle ∨ (st.threads i).pc = .start

/-- `solve` from the end of a first phase that leaves two nodes. -/
theorem reaches_pairStarted (S : Solver N) (f : First N) (sh : Shared N) {x y : N} (hf : f.nodes = [x, y])
    (hi : sh.interrupted = false) :
    Reaches (Starting S pairScheduler .lifo) { main := .first f, threads := fun _ => {}, shared := sh }
      (pairStarted f.record x y sh) := by
  have hspare {threads : Fin pairScheduler.numThreads.toNat → Thread N} {k : Fin pairScheduler.numThreads.toNat}
      {t : Thread N} (hall : ∀ i, (threads i).pc = .idle ∨ (threads i).pc = .start)
      (ht : t.pc = .idle ∨ t.pc = .start) (i : Fin pairScheduler.numThreads.toNat) :
      (Function.update threads k t i).pc = .idle ∨ (Function.update threads k t i).pc = .start :=
    (Function.forall_update_iff threads fun _ t => t.pc = .idle ∨ t.pc = .start).mpr ⟨ht, fun j _ => hall j⟩ i
  have hidle : ∀ i : Fin pairScheduler.numThreads.toNat,
      ((fun _ => {} : Fin pairScheduler.numThreads.toNat → Thread N) i).pc = .idle ∨
        ((fun _ => {} : Fin pairScheduler.numThreads.toNat → Thread N) i).pc = .start := fun _ => .inl rfl
  have hsize : bound pairScheduler ≤ f.nodes.length := by
    rw [hf, List.length_cons, List.length_singleton]
    decide
  refine .head ⟨.stop rfl (.inr (.inl hsize)), rfl, hidle⟩ ?_
  refine .head ⟨.resize rfl hi, rfl, hidle⟩ ?_
  rw [hf]
  refine .head ⟨.hand (k := ⟨0, by decide⟩) rfl rfl rfl, rfl, hidle⟩ ?_
  refine .head ⟨.hand (k := ⟨1, by decide⟩) rfl rfl rfl, rfl, hspare hidle (.inl rfl)⟩ ?_
  refine .head ⟨.handed rfl, rfl, hspare (hspare hidle (.inl rfl)) (.inl rfl)⟩ ?_
  refine .head ⟨.spawn (i := ⟨0, by decide⟩) rfl, rfl, hspare (hspare hidle (.inl rfl)) (.inl rfl)⟩ ?_
  refine .head ⟨.spawn (i := ⟨1, by decide⟩) rfl, rfl,
    hspare (hspare (hspare hidle (.inl rfl)) (.inl rfl)) (.inr rfl)⟩ ?_
  have hend {st : State N pairScheduler.numThreads.toNat} (hm : st.main = .spawn 2)
      (hthreads : ∀ i, st.threads i = (pairStarted f.record x y sh).threads i)
      (hshared : st.shared = { sh with record := f.record }) :
      Reaches (Starting S pairScheduler .lifo) st (pairStarted f.record x y sh) := by
    obtain ⟨main, threads, shared⟩ := st
    obtain rfl : threads = (pairStarted f.record x y sh).threads := funext hthreads
    subst hm hshared
    exact .refl
  refine hend rfl (fun i => ?_) rfl
  match i with
  | ⟨0, _⟩ => rfl
  | ⟨1, _⟩ => rfl

/-- The search tree with two leaves after the first phase, with both threads started. -/
def pairLeaves : State (Option Bool) pairScheduler.numThreads.toNat :=
  pairStarted 7 (some true) (some false)
    { construct pairScheduler with created := {none, some false, some true}, released := {none} }

/-- The first phase branches on the root, and then both threads are started. -/
theorem reaches_pairLeaves {R : State (Option Bool) pairScheduler.numThreads.toNat → State _ _ → Prop}
    (hbranch : ∀ st st' f, st.main = .first f → (∀ i, (st.threads i).pc = .idle) →
      Step pairSolver pairScheduler .lifo st st' → R st st')
    (hstart : ∀ st st', Starting pairSolver pairScheduler .lifo st st' → R st st') :
    Reaches R (start pairSolver pairScheduler (construct pairScheduler) mVal) pairLeaves := by
  refine .head (hbranch _ _ _ rfl (fun _ => rfl) (.branch rfl rfl (by decide) rfl)) ?_
  exact Relation.ReflTransGen.mono hstart _ _ (reaches_pairStarted pairSolver _ _ rfl rfl)

/-- Thread `0` finishes its leaf and waits, while thread `1` has not begun. -/
theorem schedulers_sound_pair : ∃ st, Reaches (Uninterrupted pairSolver pairScheduler .lifo)
      (start pairSolver pairScheduler (construct pairScheduler) mVal) st ∧
    (∃ i, (st.threads i).pc = .blocked) ∧ ScheduleSound pairSolver pairScheduler .lifo st := by
  let first : Fin pairScheduler.numThreads.toNat := ⟨0, by decide⟩
  have hr : Reaches (Uninterrupted pairSolver pairScheduler .lifo)
      (start pairSolver pairScheduler (construct pairScheduler) mVal)
      ((List.replicate 9 first).foldl (fun st i => tick pairSolver pairScheduler i st) pairLeaves) :=
    (reaches_pairLeaves (fun _ _ _ _ _ hstep => .inl hstep) fun _ _ hstep => .inl hstep.1).trans
      (Relation.ReflTransGen.mono (fun _ _ => .inl) _ _ (reaches_tick ..))
  exact ⟨_, hr, ⟨first, by decide +kernel⟩,
    schedulers_sound pairSolver pairScheduler .lifo mVal (by decide) (by decide) hr⟩

end Parallel

end Optimer
