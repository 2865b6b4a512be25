import Optimer.Bnb.ParallelRecord

/-! Total correctness of an uninterrupted `ParallelBNB::solve`: it returns what `SerialBNB::solve`
returns, unless the first phase leaves nodes for some threads only. -/

namespace Optimer
open Transition

/-- How far a thread is from its next call of `branch`, or from its end. -/
def Pc.level {N : Type*} : Pc N → ℕ
  | .idle => 13
  | .start => 12
  | .check => 11
  | .publish => 10
  | .schedule => 9
  | .send => 8
  | .empty => 7
  | .enter => 6
  | .lock | .blocked => 5
  | .returned => 4
  | .loop => 3
  | .read _ => 2
  | .branch _ => 1
  | .exited => 0

namespace Thread

variable {N : Type*} {S : Solver N} {sch : Scheduler} {t : Thread N} {sh : Shared N}
  {o : Outcome N} {T : ℕ}

/-- A level outweighs what `notify_all` adds to `T` threads. -/
def weight (T : ℕ) (t : Thread N) : ℕ :=
  (T + 1) * t.pc.level + match t.pc with
    | .lock => 1
    | _ => 0

theorem notified_weight_le : t.notified.weight T ≤ t.weight T + 1 := by
  unfold notified
  split
  · next hpc => simp [weight, hpc, Pc.level]
  · exact Nat.le_succ _

theorem Move.weight (hT : 0 < T) (h : Move S sch t sh o) (hb : ∀ n, t.pc ≠ .branch n) :
    o.thread.weight T + (if o.notifyAll then T else 0) < t.weight T := by
  cases h with
  | branch hpc => exact absurd hpc (hb _)
  | schedule hpc h => rcases h with rfl | rfl <;> simp [Thread.weight, hpc, Pc.level]
  | _ =>
    simp_all [Thread.weight, Pc.level, Thread.begin, Thread.leave, Thread.publish,
      Thread.announce] <;> omega

theorem pc_of_step_eq_none (h : t.step S sch sh = none) :
    t.pc = .idle ∨ t.pc = .blocked ∨ t.pc = .exited := by
  cases hpc : t.pc with
  | idle => exact .inl rfl
  | blocked => exact .inr (.inl rfl)
  | exited => exact .inr (.inr rfl)
  | loop =>
    simp only [step, hpc] at h
    split at h <;> simp at h
  | _ => simp [step, hpc] at h

end Thread

namespace Main

variable {N : Type*}

/-- The steps `solve` itself still takes, without the rounds of its first phase. -/
def weight (T : ℕ) : Main N → ℕ
  | .first f => f.nodes.length + T + 7
  | .decide nodes => nodes.length + T + 6
  | .hand nodes _ => nodes.length + T + 5
  | .spawn k => T - k + 3
  | .join => 2
  | .clean nodes => nodes.length + 1
  | .returned _ => 0

end Main

namespace Parallel

variable {N X : Type*} {S : Solver N} {sch : Scheduler} {c : Container} {cost : X → ValueType}
  {sols : N → Set X} {init : ValueType} {Q : ℕ → Prop}
  {st st' : State N sch.numThreads.toNat} {i : Fin sch.numThreads.toNat} {o : Outcome N}

/-- The pending nodes, then the steps until the next call of `branch`. -/
def measure {T : ℕ} (st : State N T) : Multiset N × ℕ :=
  (st.pending, st.main.weight T + st.sum (Thread.weight T))

abbrev Smaller (S : Solver N) : Multiset N × ℕ → Multiset N × ℕ → Prop :=
  Prod.Lex (Relation.CutExpand S.Child) (· < ·)

theorem smaller_wf (C : S.Contract cost sols) : WellFounded (Smaller S) :=
  WellFounded.prod_lex C.finite.cutExpand wellFounded_lt

theorem smaller_of_weight (hp : st'.pending = st.pending)
    (hw : st'.main.weight sch.numThreads.toNat + st'.sum (Thread.weight sch.numThreads.toNat) <
      st.main.weight sch.numThreads.toNat + st.sum (Thread.weight sch.numThreads.toNat)) :
    Smaller S (measure st') (measure st) := by
  rw [measure, measure, hp]
  exact .right _ hw

theorem smaller_of_branch {n : N} {r : ValueType} {sol : Solution} {rest : Multiset N}
    (hn : S.Explored n) (hp : st.pending = n ::ₘ rest)
    (hp' : st'.pending = (S.branch n r sol).nodes + rest) : Smaller S (measure st') (measure st) := by
  rw [measure, measure, hp, hp']
  refine .left _ _ ⟨((S.branch n r sol).nodes : Multiset N), n, fun m hm => ?_, ?_⟩
  · exact ⟨hn, r, sol, Multiset.mem_coe.mp hm⟩
  · rw [← Multiset.singleton_add]
    ac_rfl

theorem Smaller.trans_right {a b : Multiset N × ℕ} {n : ℕ} (h : Smaller S a b)
    (hn : b.2 < n) : Smaller S a (b.1, n) := by
  cases h with
  | left _ _ h => exact .left _ _ h
  | right _ h => exact .right _ (h.trans hn)

/-- `notify_all` adds at most one for each thread. -/
theorem sum_weight_apply (T : ℕ) (st : State N T) (i : Fin T) (o : Outcome N) :
    (st.apply i o).sum (Thread.weight T) + (st.threads i).weight T ≤
      st.sum (Thread.weight T) + o.thread.weight T + if o.notifyAll then T else 0 := by
  have hup := State.sum_update st.threads i o.thread (Thread.weight T)
  have hle : (st.apply i o).sum (Thread.weight T) ≤
      ∑ j, ((Function.update st.threads i o.thread j).weight T + if o.notifyAll then 1 else 0) := by
    refine Finset.sum_le_sum fun j _ => ?_
    simp only [State.apply]
    split
    exacts [Thread.notified_weight_le, le_rfl]
  rw [Finset.sum_add_distrib, Finset.sum_const, Finset.card_fin, smul_eq_mul] at hle
  simp only [State.sum] at *
  split at hle <;> simp_all <;> omega

theorem weight_apply (hmove : (st.threads i).Move S sch st.shared o)
    (hb : ∀ n, (st.threads i).pc ≠ .branch n) :
    (st.apply i o).main.weight sch.numThreads.toNat +
        (st.apply i o).sum (Thread.weight sch.numThreads.toNat) <
      st.main.weight sch.numThreads.toNat + st.sum (Thread.weight sch.numThreads.toNat) := by
  have hw := hmove.weight (i.val.zero_le.trans_lt i.isLt) hb
  have hsum := sum_weight_apply sch.numThreads.toNat st i o
  simp only [State.apply_main]
  omega

theorem measure_apply (h : Running S sch c Q st) (hexp : ∀ n ∈ st.pending, S.Explored n)
    (hmove : (st.threads i).Move S sch st.shared o) :
    Smaller S (measure (st.apply i o)) (measure st) := by
  rcases hmove.ledger h.uninterrupted with ⟨hc, hr, hb⟩ | ⟨n, hpc, rfl⟩
  · exact smaller_of_weight (pending_keep (h.inv.ok i) hmove hc hr) (weight_apply hmove hb)
  · obtain ⟨rest, hrest, hpend⟩ := pending_branch (S := S) hpc
    exact smaller_of_branch (hexp n (hrest ▸ Multiset.mem_cons_self ..)) hrest hpend

theorem Searching.explored (h : Searching S sch c Q cost sols init st) :
    ∀ n ∈ st.pending, S.Explored n := by
  by_cases hm : ∃ f, st.main = .first f
  · obtain ⟨f, hf⟩ := hm
    have hcov := h.covered
    simp only [MainCovered, hf] at hcov
    rw [h.running.pending_first hf]
    exact fun n hn => hcov.explored n (Multiset.mem_coe.mp hn)
  · exact (h.covered_of (not_exists.mp hm)).explored

theorem measure_smaller (hmin : 0 < sch.numMinimumNodes.toNat)
    (h : Searching S sch c Q cost sols init st) (hstep : Step S sch c st st') :
    Smaller S (measure st') (measure st) := by
  have hmain := h.running.inv.main
  have hnext := h.running.step hmin hstep
  cases hstep with
  | @branch f n rest hm _ hsize hp =>
    have hexp := h.explored
    have hpend := h.running.pending_first hm
    rw [Multiset.coe_eq_coe.mpr hp.perm, ← Multiset.cons_coe] at hpend
    rw [hpend] at hexp
    have hpush := Multiset.coe_eq_coe.mpr
      (Container.pushAll_perm rest (S.branch n f.record f.sol).nodes)
    exact smaller_of_branch (hexp n (Multiset.mem_cons_self ..)) hpend
      ((hnext.pending_first rfl).trans hpush)
  | skip hm hi => exact absurd hi (by simp [h.running.uninterrupted])
  | stop hm | resize hm | handed hm | spawned hm | join hm | ret hm =>
    refine smaller_of_weight (by simp [State.pending, State.sum, hm, Main.nodes]) ?_
    simp [State.sum, hm, Main.weight]
  | @hand nodes rest _ n k hm hp hk =>
    have hlen := hp.perm.length_eq
    refine smaller_of_weight (State.pending_update ?_) ?_
    · rw [hm]
      exact Thread.pending_push hp.perm _
    · have hsum := State.sum_update st.threads k
        { st.threads k with listNodes := (st.threads k).listNodes ++ [n] }
        (Thread.weight sch.numThreads.toNat)
      simp only [State.sum, hm, Main.weight, List.length_cons, Thread.weight] at hsum hlen ⊢
      omega
  | @spawn k hm =>
    simp only [MainOk, hm] at hmain
    have hidle := (hmain.2 k).mpr le_rfl
    refine smaller_of_weight (State.pending_update ?_) ?_
    · rw [hm, Thread.pending_start hidle]; rfl
    · have hsum := State.sum_update st.threads k { st.threads k with pc := .start }
        (Thread.weight sch.numThreads.toNat)
      have hk := k.isLt
      simp only [State.sum, hm, Main.weight, Thread.weight, hidle, Pc.level] at hsum ⊢
      omega
  | clean hm hp =>
    have hhand := h.running.handed
    simp only [MainHanded, hm] at hhand
    exact absurd hhand.1 hp.ne_nil
  | @thread i o hstep =>
    rcases Thread.step_cases hmin (h.running.inv.ok i) hstep with hmove | ⟨hpc, hmove⟩
    · exact measure_apply h.running h.explored hmove
    · let st₁ := st.apply i ((st.threads i).announce sch st.shared)
      have hself : st₁.threads i = ((st.threads i).announce sch st.shared).thread :=
        State.apply_self rfl
      have hpend : st₁.pending = st.pending := pending_announce hpc
      have hrun : Running S sch c Q st₁ := h.running.apply (.announce hpc)
      have hmove₁ : (st₁.threads i).Move S sch st₁.shared o := hself ▸ hmove
      have hlater := (measure_apply hrun (hpend ▸ h.explored) hmove₁).trans_right
        (weight_apply (S := S) (.announce hpc) (by simp [hpc]))
      have hsame : st₁.apply i o = st.apply i o := State.apply_apply rfl
      have hfst : (measure st₁).1 = st.pending := hpend
      rw [hsame, hfst] at hlater
      exact hlater

/-! ### The end of a run -/

theorem Running.returned_of_stuck (hT : 0 < sch.numThreads.toNat)
    (hmin : 0 < sch.numMinimumNodes.toNat) (h : Running S sch c (Even sch) st)
    (hs : Stuck (Step S sch c) st) : ∃ sol, st.main = .returned sol := by
  have hmain := h.inv.main
  have hi := h.uninterrupted
  cases hm : st.main with
  | first f =>
    by_cases hend : FirstEnd sch f
    · exact absurd (.stop hm (hend.imp id .inl)) (hs _)
    · obtain ⟨hne, hsize⟩ := not_or.mp hend
      obtain ⟨n, rest, hp⟩ := c.exists_pop S id hne
      exact absurd (.branch hm hi (not_le.mp hsize) hp) (hs _)
  | decide nodes => exact absurd (.resize hm hi) (hs _)
  | hand nodes k =>
    by_cases hne : nodes = []
    · exact absurd (.handed (hne ▸ hm)) (hs _)
    · obtain ⟨n, rest, hp⟩ := c.exists_pop S id hne
      have hlt : (k % sch.numThreads).toNat < sch.numThreads.toNat := by
        rw [UInt32.toNat_mod]
        exact Nat.mod_lt _ hT
      exact absurd (.hand (k := ⟨_, hlt⟩) hm hp rfl) (hs _)
  | spawn k =>
    simp only [MainOk, hm] at hmain
    rcases hmain.1.lt_or_eq with hlt | rfl
    · exact absurd (.spawn (i := ⟨k, hlt⟩) hm) (hs _)
    · exact absurd (.spawned hm) (hs _)
  | join =>
    simp only [MainOk, hm] at hmain
    have hrest i : (st.threads i).pc = .exited ∨ (st.threads i).pc = .blocked := by
      have hnone : (st.threads i).step S sch st.shared = none :=
        Option.eq_none_iff_forall_not_mem.mpr fun o ho => hs _ (.thread ho)
      rcases Thread.pc_of_step_eq_none hnone with hpc | hpc | hpc
      exacts [absurd hpc (hmain i), .inr hpc, .inl hpc]
    by_cases hall : ∀ i, (st.threads i).pc = .exited
    · exact absurd (.join hm hall) (hs _)
    · obtain ⟨i, hne⟩ := not_forall.mp hall
      have hblocked := (hrest i).resolve_left hne
      obtain ⟨hq, hlock⟩ := h.inv.blocked i hblocked
      refine absurd ⟨i, hblocked, ?_, fun j _ => hrest j⟩ (h.scheduleSound hmin).live
      rintro (hne | hf)
      · exact hne hq
      · obtain ⟨j, hj⟩ := hlock hf
        rcases hrest j with h' | h' <;> simp [hj] at h'
  | clean nodes =>
    by_cases hne : nodes = []
    · exact absurd (.ret (hne ▸ hm)) (hs _)
    · obtain ⟨n, rest, hp⟩ := c.exists_pop S id hne
      exact absurd (.clean hm hp) (hs _)
  | returned sol => exact ⟨sol, rfl⟩

/-- At the return all threads have been told that no work is left, or none was handed any. -/
theorem Running.counted_of_returned (h : Running S sch c Q st) {sol : Solution}
    (hm : st.main = .returned sol) : ∃ m, Q m ∧ ((0 < m ∧ 0 < sch.numThreads.toNat ∧
      st.shared.queueSets = [] ∧ ∀ i, (st.threads i).counted = true) ∨
        st.shared.queueSets = [] ∧ ∀ i, (st.threads i).Unhanded) := by
  have hhand := h.handed
  simp only [MainHanded, hm] at hhand
  obtain ⟨_, hexited, m, hQ, hall⟩ := hhand
  refine ⟨m, hQ, ?_⟩
  by_cases hex : ∃ i : Fin sch.numThreads.toNat, i.val < m
  · obtain ⟨i, hlt⟩ := hex
    have hi := (hall i).1 hlt
    simp only [Thread.Handed, hexited i] at hi
    obtain ⟨hq, hf⟩ := h.inv.done i ⟨hi, by simp [hexited i], by simp [hexited i]⟩
    exact .inl ⟨i.val.zero_le.trans_lt hlt, i.val.zero_le.trans_lt i.isLt, hq,
      h.inv.finished_iff.mp hf⟩
  · have hun i := (hall i).2 (not_lt.mp (not_exists.mp hex i))
    refine .inr ⟨?_, hun⟩
    by_contra hq
    obtain ⟨i, hi⟩ := h.queue hq
    exact (hun i).not_handed hi

theorem Running.pending_returned (h : Running S sch c Q st) {sol : Solution}
    (hm : st.main = .returned sol) : st.pending = 0 := by
  obtain ⟨m, _, ⟨_, _, hq, hall⟩ | ⟨hq, hun⟩⟩ := h.counted_of_returned hm
  · exact h.inv.pending_eq_zero hall hq (by rw [hm]; rfl)
  · have hsum : st.sum Thread.pending = 0 := Finset.sum_eq_zero fun i _ => (hun i).pending
    simp [State.pending, hsum, hq, hm, Main.nodes]

/-- The value returned is optimal. -/
theorem Searching.optimal (h : Searching S sch c Q cost sols init st) {sol : Solution}
    (hm : st.main = .returned sol) : S.Optimal cost sols init sol.value := by
  have hcov := h.covered_of (by simp [hm])
  have hhand := h.running.handed
  simp only [MainHanded, hm] at hhand
  obtain ⟨⟨hval, _⟩, hexited, _⟩ := hhand
  rw [hval]
  refine ⟨hcov.attained.1.imp_right fun hattained => ?_, ?_⟩
  · obtain ⟨x, hx, hc⟩ := hattained
    exact ⟨x, hx, hc⟩
  rintro _ (rfl | ⟨x, hx, rfl⟩)
  · exact hcov.attained.2
  · by_contra hlt
    have hnone i : (st.threads i).Unpublished → cost x < (st.threads i).record := fun hu => by
      simp [Thread.Unpublished, hexited i] at hu
    obtain ⟨n, hn, _⟩ := hcov.covered x hx (not_le.mp hlt) hnone
    rw [h.running.pending_returned hm] at hn
    exact Multiset.notMem_zero n hn

theorem Searching.start (hrank : S.rank > minRankValue) {sh : Shared N}
    (hq : sh.queueSets = []) (hctr : sh.counter = sch.initialCounter)
    (hbal : sh.created = sh.released) {record : ValueType}
    (hfirst : FirstLeaves S sch c record Q) :
    Searching S sch c Q cost sols (min record S.initialSolution.value)
      (Parallel.start S sch sh record) where
  running := .start hq hctr hbal (fun _ => hfirst) fun h => absurd hrank h
  covered := by
    have hmin : (firstStart S record).record = min record S.initialSolution.value := by
      simp only [firstStart]
      split
      · next h => exact (min_eq_right h.le).symm
      · next h => exact (min_eq_left (not_lt.mp h)).symm
    unfold Parallel.start
    rw [if_pos hrank, ← hmin]
    exact .start

/-! ### Agreement with the one-thread loop -/

/-- From the state `st` of an object: wherever a run gets, the steps of the program come to an end,
the record does not grow once it is stored, and the end is the return of `v`. -/
structure Returns (S : Solver N) (sch : Scheduler) (c : Container) (v : ValueType)
    (st : State N sch.numThreads.toNat) : Prop where
  terminates : ∀ st', Reaches (Uninterrupted S sch c) st st' → Terminates (Step S sch c) st'
  record_le : ∀ st' st'', Reaches (Uninterrupted S sch c) st st' → (∀ f, st'.main ≠ .first f) →
    Uninterrupted S sch c st' st'' → st''.shared.record ≤ st'.shared.record
  ends : ∀ st', Reaches (Uninterrupted S sch c) st st' → Stuck (Step S sch c) st' →
    ∃ sol, st'.main = .returned sol ∧ sol.value = v ∧ sol.route = []

theorem Searching.returns (C : S.Contract cost sols) (hT : 0 < sch.numThreads.toNat)
    (hmin : 0 < sch.numMinimumNodes.toNat) {v : ValueType} (hv : S.Optimal cost sols init v)
    (h : Searching S sch c (Even sch) cost sols init st) : Returns S sch c v st := by
  have hreach {st'} (hr : Reaches (Uninterrupted S sch c) st st') :
      Searching S sch c (Even sch) cost sols init st' :=
    (Searching.preserved C hmin).reaches h hr
  refine ⟨fun st' hr => ?_, fun st' st'' hr hm hstep => ?_, fun st' hr hs => ?_⟩
  · exact terminates_of_measure (smaller_wf C) measure
      (fun _ _ hinv hstep => Searching.step C hmin hinv hstep)
      (fun _ _ hinv hstep => measure_smaller hmin hinv hstep) (hreach hr)
  · rcases hstep with hstep | hwake
    · exact hstep.record_le hmin (hreach hr).running.inv hm
    · obtain ⟨i⟩ := hwake
      exact le_rfl
  · obtain ⟨sol, hsol⟩ := (hreach hr).running.returned_of_stuck hT hmin hs
    have hhand := (hreach hr).running.handed
    simp only [MainHanded, hsol] at hhand
    exact ⟨sol, hsol, ((hreach hr).optimal hsol).unique hv, hhand.1.2⟩

theorem reaches_first {f g : First N} (hr : Reaches (FirstStep S sch c) f g)
    (hm : st.main = .first f) (hi : st.shared.interrupted = false) :
    ∃ st', Reaches (Uninterrupted S sch c) st st' ∧ st'.main = .first g ∧
      st'.shared.interrupted = false := by
  induction hr with
  | refl => exact ⟨st, .refl, hm, hi⟩
  | tail _ hstep ih =>
    obtain ⟨st', hr', hm', hi'⟩ := ih
    obtain ⟨hsize, hp⟩ := hstep
    exact ⟨_, hr'.tail (.inl (.branch hm' hi' hsize hp)), rfl, hi'⟩

/-- If the first phase can leave nodes for some threads only, there is a run that never returns. -/
theorem not_returns (hrank : S.rank > minRankValue) (hmin : 0 < sch.numMinimumNodes.toNat)
    {sh : Shared N} (hq : sh.queueSets = []) (hctr : sh.counter = sch.initialCounter)
    (hbal : sh.created = sh.released) {record v : ValueType} {g : First N}
    (hg : Reaches (FirstStep S sch c) (firstStart S record) g) (hend : FirstEnd sch g)
    (hodd : ¬ Even sch g.nodes.length) : ¬ Returns S sch c v (start S sch sh record) := by
  intro hret
  have hstart : Running S sch c (fun _ => True) (start S sch sh record) :=
    .start hq hctr hbal (fun _ _ _ _ => trivial) fun _ => trivial
  have hmain : (start S sch sh record).main = .first (firstStart S record) := by
    rw [start, if_pos hrank]
  obtain ⟨st₁, hr₁, hm₁, hi₁⟩ := reaches_first hg hmain hstart.uninterrupted
  have hstop : Step S sch c st₁ _ := .stop hm₁ (hend.imp id .inl)
  have hr₂ := hr₁.tail (.inl hstop)
  have hany := (Running.preserved hmin).reaches hstart hr₂
  have hrun : Running S sch c (· = g.nodes.length) _ :=
    ⟨hany.inv, hany.uninterrupted, rfl, hany.queue⟩
  obtain ⟨st₃, hr₃, hs₃⟩ := (hret.terminates _ hr₂).exists_stuck
  have hr₃' : Reaches (Uninterrupted S sch c) _ st₃ :=
    reaches_mono (fun _ _ => .inl) hr₃
  obtain ⟨sol, hm₃, _⟩ := hret.ends st₃ (hr₂.trans hr₃') hs₃
  obtain ⟨hpos, hlt⟩ := not_or.mp hodd
  have hend := (Running.preserved hmin).reaches hrun hr₃'
  have hhand := hend.handed
  simp only [MainHanded, hm₃] at hhand
  obtain ⟨_, _, m, rfl, hall⟩ := hhand
  obtain ⟨_, rfl, ⟨_, _, _, hcounted⟩ | ⟨_, hun⟩⟩ := hend.counted_of_returned hm₃
  · have hlast := (hall ⟨g.nodes.length, not_le.mp hlt⟩).2 le_rfl
    exact Bool.noConfusion (hlast.2.2.2.symm.trans (hcounted _))
  · have hfirst := (hall ⟨0, (Nat.zero_le _).trans_lt (not_le.mp hlt)⟩).1 (Nat.pos_of_ne_zero hpos)
    exact (hun _).not_handed hfirst

/-- `ParallelBNB::solve` on a fresh object returns the value of `SerialBNB::solve`, the least of the
record argument, the initial solution and the optimum of the root, if and only if the first phase
cannot leave nodes for some threads only. -/
theorem parallel_serial_agree (C : S.Contract cost sols) (hrank : S.rank > minRankValue)
    (hT : 1 ≤ sch.numThreads.toNat) (hmin : 1 ≤ sch.numMinimumNodes.toNat) (record : ValueType) :
    (∃ v, S.Optimal cost sols (min record S.initialSolution.value) v ∧
      (∀ c', TotallyCorrect (Search.Step S c') (serialStart S record) (Search.Returns v)) ∧
      Returns S sch c v (start S sch (construct sch) record)) ↔
    FirstLeaves S sch c record (Even sch) := by
  constructor
  · rintro ⟨v, _, _, hret⟩ g hg hend
    by_contra hodd
    exact not_returns hrank hmin rfl rfl rfl hg hend hodd hret
  · intro hfirst
    have hserial := fun c' => serial_correct C hrank c' record
    obtain ⟨_, _, _, v, hv, _⟩ := (hserial .lifo).exists_end
    refine ⟨v, hv, fun c' => (hserial c').mono fun st ⟨w, hw, hr⟩ => hv.unique hw ▸ hr, ?_⟩
    exact Searching.returns C hT hmin hv (.start hrank rfl rfl rfl hfirst)

/-- Two threads over the search tree with two leaves. -/
theorem parallel_serial_agree_pair :
    (∃ v, pairSolver.Optimal pairCost pairSols (min mVal pairSolver.initialSolution.value) v ∧
      (∀ c', TotallyCorrect (Search.Step pairSolver c') (serialStart pairSolver mVal)
        (Search.Returns v)) ∧
      Returns pairSolver (.giving ⟨2, 1, 3⟩) .lifo v
        (start pairSolver (.giving ⟨2, 1, 3⟩) (construct (.giving ⟨2, 1, 3⟩)) mVal)) ↔
    FirstLeaves pairSolver (.giving ⟨2, 1, 3⟩) .lifo mVal (Even (.giving ⟨2, 1, 3⟩)) :=
  parallel_serial_agree pairSolver_contract (by decide) (by decide) (by decide) mVal

/-- With two threads and `2 ^ 31` minimum nodes the bound of the first phase is zero: one thread
gets the root, the other leaves, and the first waits for it. -/
theorem parallel_bound_overflow :
    pairSolver.Contract pairCost pairSols ∧ pairSolver.rank > minRankValue ∧
      ¬ ∃ v, Returns pairSolver (.giving ⟨2, 2147483648, 4294967295⟩) .lifo v
        (start pairSolver (.giving ⟨2, 2147483648, 4294967295⟩)
          (construct (.giving ⟨2, 2147483648, 4294967295⟩)) mVal) := by
  refine ⟨pairSolver_contract, by decide, fun ⟨v, hret⟩ => ?_⟩
  refine not_returns (by decide) (by decide) rfl rfl rfl .refl (.inr ?_) ?_ hret
  · exact Nat.zero_le _
  · rintro (h | h)
    · exact absurd h (by decide)
    · exact absurd h (by decide)

end Parallel

end Optimer
