import Optimer.Bnb.ParallelCorrect

/-! Several calls of `solve` on one `ParallelBNB` object: what a call leaves behind, and when the
next one does not notice. -/

namespace Optimer
open Transition

namespace Thread

variable {N : Type*} {S : Solver N} {sch : Scheduler} {t : Thread N} {sh : Shared N}
  {o : Outcome N}

theorem wait_ledger (t : Thread N) (sh : Shared N) (created released : Multiset N) :
    t.wait sch { sh with created := created, released := released } =
      { t.wait sch sh with
        shared := { (t.wait sch sh).shared with created := created, released := released } } := by
  unfold wait take
  by_cases hready : sh.queueSets.isEmpty = false ∨ sch.finished sh.counter
  · rw [if_pos hready, if_pos hready]
    dsimp only
    generalize takeNodes sch.numMinimumNodes.toNat t.nodes sh.queueSets t.stats.setsReceived = r
    split_ifs <;> rfl
  · rw [if_neg hready, if_neg hready]

/-- A step does not depend on what the trees have created and released. -/
theorem step_ledger (created released : Multiset N) (h : t.step S sch sh = some o) :
    ∃ created' released', t.step S sch { sh with created := created, released := released } =
      some { o with shared := { o.shared with created := created', released := released' } } := by
  cases hpc : t.pc with
  | loop =>
    simp only [step, hpc] at h ⊢
    split at h <;> obtain rfl := Option.some.inj h <;> exact ⟨_, _, rfl⟩
  | enter =>
    simp only [step, hpc, Option.some.injEq] at h ⊢
    subst h
    cases sch with
    | giving p =>
      exact ⟨created, released, wait_ledger (t.announce (.giving p) sh).thread
        (t.announce (.giving p) sh).shared created released⟩
    | requesting p => exact ⟨_, _, rfl⟩
  | lock =>
    simp only [step, hpc, Option.some.injEq] at h ⊢
    subst h
    exact ⟨created, released, wait_ledger t sh created released⟩
  | idle | blocked | exited => simp [step, hpc] at h
  | _ =>
    simp only [step, hpc, Option.some.injEq] at h ⊢
    subst h
    exact ⟨_, _, rfl⟩

end Thread

namespace Parallel

variable {N : Type*} {S : Solver N} {sch : Scheduler} {c : Container}
  {st st' : State N sch.numThreads.toNat}

/-- Runs on two objects in the same state. `record_` counts once `solve` has stored it. -/
structure Alike {T : ℕ} (st st' : State N T) : Prop where
  main : st'.main = st.main
  threads : st'.threads = st.threads
  queueSets : st'.shared.queueSets = st.shared.queueSets
  counter : st'.shared.counter = st.shared.counter
  interrupted : st'.shared.interrupted = st.shared.interrupted
  record : (∀ f, st.main ≠ .first f) → st'.shared.record = st.shared.record
  idle : ∀ f, st.main = .first f → ∀ i, (st.threads i).pc = .idle

theorem Alike.symm {T : ℕ} {st st' : State N T} (h : Alike st st') : Alike st' st where
  main := h.main.symm
  threads := h.threads.symm
  queueSets := h.queueSets.symm
  counter := h.counter.symm
  interrupted := h.interrupted.symm
  record hm := (h.record (h.main ▸ hm)).symm
  idle f hm i := h.threads.symm ▸ h.idle f (h.main ▸ hm) i

theorem alike_step : Simulates Alike (Step S sch c) (Step S sch c) := by
  intro st st' st₁ h hstep
  obtain ⟨main, threads, sh'⟩ := st'
  obtain ⟨rfl, rfl, hq, hctr, hi, hr, hidle⟩ := h
  cases hstep with
  | branch hm hint hsize hp =>
    exact ⟨_, .branch hm (hi.trans hint) hsize hp, rfl, rfl, hq, hctr, hi,
      fun hf => absurd rfl (hf _), fun _ _ => hidle _ hm⟩
  | stop hm hend =>
    exact ⟨_, .stop hm (hend.imp id (.imp id hi.trans)), rfl, rfl, hq, hctr, hi, fun _ => rfl,
      fun _ hf => nomatch hf⟩
  | skip hm hint =>
    exact ⟨_, .skip hm (hi.trans hint), rfl, rfl, hq, hctr, hi, fun _ => hr (by simp [hm]),
      fun _ hf => nomatch hf⟩
  | resize hm hint =>
    exact ⟨_, .resize hm (hi.trans hint), rfl, rfl, hq, hctr, hi, fun _ => hr (by simp [hm]),
      fun _ hf => nomatch hf⟩
  | hand hm hp hk =>
    exact ⟨_, .hand hm hp hk, rfl, rfl, hq, hctr, hi, fun _ => hr (by simp [hm]),
      fun _ hf => nomatch hf⟩
  | handed hm =>
    exact ⟨_, .handed hm, rfl, rfl, hq, hctr, hi, fun _ => hr (by simp [hm]),
      fun _ hf => nomatch hf⟩
  | spawn hm =>
    exact ⟨_, .spawn hm, rfl, rfl, hq, hctr, hi, fun _ => hr (by simp [hm]),
      fun _ hf => nomatch hf⟩
  | spawned hm =>
    exact ⟨_, .spawned hm, rfl, rfl, hq, hctr, hi, fun _ => hr (by simp [hm]),
      fun _ hf => nomatch hf⟩
  | join hm hall =>
    exact ⟨_, .join hm hall, rfl, rfl, hq, hctr, hi, fun _ => hr (by simp [hm]),
      fun _ hf => nomatch hf⟩
  | clean hm hp =>
    exact ⟨_, .clean hm hp, rfl, rfl, hq, hctr, hi, fun _ => hr (by simp [hm]),
      fun _ hf => nomatch hf⟩
  | ret hm =>
    have hrec : sh'.record = st.shared.record := hr (by simp [hm])
    exact ⟨_, .ret hm, by rw [hrec], rfl, hq, hctr, hi, fun _ => hrec, fun _ hf => nomatch hf⟩
  | @thread i o hstep =>
    have hne : ∀ f, st.main ≠ .first f := fun f hm => by
      simp [Thread.step, hidle f hm i] at hstep
    obtain ⟨created, released, hstep'⟩ := Thread.step_ledger sh'.created sh'.released hstep
    have hsh : sh' = { st.shared with created := sh'.created, released := sh'.released } := by
      obtain ⟨record, queueSets, counter, interrupted, _, _⟩ := sh'
      obtain rfl : record = st.shared.record := hr hne
      obtain rfl : queueSets = st.shared.queueSets := hq
      obtain rfl : counter = st.shared.counter := hctr
      obtain rfl : interrupted = st.shared.interrupted := hi
      rfl
    rw [← hsh] at hstep'
    exact ⟨_, .thread hstep', rfl, rfl, rfl, rfl, rfl, fun _ => rfl, fun f hf => absurd hf (hne f)⟩

theorem alike_run : Simulates Alike (Uninterrupted S sch c) (Uninterrupted S sch c) := by
  intro st st' st₁ h hstep
  rcases hstep with hstep | hwake
  · obtain ⟨st₁', hstep', h'⟩ := alike_step h hstep
    exact ⟨st₁', .inl hstep', h'⟩
  · obtain ⟨i⟩ := hwake
    obtain ⟨main, threads, sh'⟩ := st'
    obtain ⟨rfl, rfl, hq, hctr, hi, hr, hidle⟩ := h
    refine ⟨_, .inr (.wake i), rfl, rfl, hq, hctr, hi, hr, fun f hf j => ?_⟩
    by_cases hji : j = i
    · subst hji; simpa using hidle f hf j
    · simpa [hji] using hidle f hf j

/-! ### Calls on one object -/

/-- The object is as its constructor left it, `record_` apart. -/
structure Reset (sch : Scheduler) (sh : Shared N) : Prop where
  queueSets : sh.queueSets = []
  counter : sh.counter = sch.initialCounter

/-- A call on the object `sh` can return `sol`, with `after` as the fields it leaves. -/
def CanReturn (S : Solver N) (sch : Scheduler) (c : Container) (record : ValueType)
    (sh : Shared N) (sol : Solution) (after : Shared N) : Prop :=
  ∃ st, Reaches (Uninterrupted S sch c) (start S sch sh record) st ∧ st.main = .returned sol ∧
    st.shared = after

/-- Whatever the threads do, the call returns. -/
def AlwaysReturns (S : Solver N) (sch : Scheduler) (c : Container) (record : ValueType)
    (sh : Shared N) : Prop :=
  TotallyCorrect (Step S sch c) (start S sch sh record) fun st => ∃ sol, st.main = .returned sol

/-- The call behaves as it does on a fresh object. -/
structure SameAsFresh (S : Solver N) (sch : Scheduler) (c : Container) (record : ValueType)
    (sh : Shared N) : Prop where
  value : ∀ sol, (∃ after, CanReturn S sch c record sh sol after) ↔
    ∃ after, CanReturn S sch c record (construct sch) sol after
  returns : AlwaysReturns S sch c record (construct sch) ↔ AlwaysReturns S sch c record sh

theorem start_alike {sh : Shared N} (h : Reset sch sh) (record : ValueType)
    (hr : S.rank > minRankValue ∨ sh.record = 0) :
    Alike (start S sch sh record) (start S sch (construct sch) record) := by
  unfold start
  by_cases hrank : S.rank > minRankValue
  · rw [if_pos hrank, if_pos hrank]
    exact ⟨rfl, rfl, h.queueSets.symm, h.counter.symm, rfl, fun hf => absurd rfl (hf _),
      fun _ _ _ => rfl⟩
  · rw [if_neg hrank, if_neg hrank]
    exact ⟨rfl, rfl, h.queueSets.symm, h.counter.symm, rfl,
      fun _ => (hr.resolve_left hrank).symm, fun _ hf => nomatch hf⟩

theorem SameAsFresh.of_reset {sh : Shared N} (h : Reset sch sh) {record : ValueType}
    (hr : S.rank > minRankValue ∨ sh.record = 0) : SameAsFresh S sch c record sh := by
  have hstart := start_alike (S := S) h record hr
  have hsym : Simulates (fun st' st : State N sch.numThreads.toNat => Alike st st')
      (Step S sch c) (Step S sch c) := fun _ _ _ h hstep =>
    let ⟨t, ht, hR⟩ := alike_step h.symm hstep
    ⟨t, ht, hR.symm⟩
  have hreach {st st' st₁ : State N sch.numThreads.toNat} (h : Alike st st')
      (hr : Reaches (Uninterrupted S sch c) st st₁) {sol} (hm : st₁.main = .returned sol) :
      ∃ st₁', Reaches (Uninterrupted S sch c) st' st₁' ∧ st₁'.main = .returned sol :=
    let ⟨st₁', hr', h'⟩ := alike_run.reaches h hr
    ⟨st₁', hr', h'.main.trans hm⟩
  refine ⟨fun sol => ⟨?_, ?_⟩, ⟨?_, ?_⟩⟩
  · rintro ⟨_, st, hst, hm, _⟩
    obtain ⟨st', hst', hm'⟩ := hreach hstart hst hm
    exact ⟨_, st', hst', hm', rfl⟩
  · rintro ⟨_, st, hst, hm, _⟩
    obtain ⟨st', hst', hm'⟩ := hreach hstart.symm hst hm
    exact ⟨_, st', hst', hm', rfl⟩
  · exact TotallyCorrect.of_simulates alike_step hsym hstart
      fun _ _ h ⟨sol, hm⟩ => ⟨sol, h.main.symm.trans hm⟩
  · exact TotallyCorrect.of_simulates alike_step hsym hstart.symm
      fun _ _ h ⟨sol, hm⟩ => ⟨sol, h.main.symm.trans hm⟩

/-- A completed call: the object before it, the nodes its first phase left for the threads, what it
returned and the object after it. -/
structure Call (N : Type*) (sch : Scheduler) (c : Container) where
  solver : Solver N
  record : ValueType
  before : Shared N
  nodes : List N
  sol : Solution
  after : Shared N
  run : ∃ st st', Reaches (Uninterrupted solver sch c) (start solver sch before record) st ∧
    st.main = .decide nodes ∧ Reaches (Uninterrupted solver sch c) st st' ∧
    st'.main = .returned sol ∧ st'.shared = after

namespace Call

variable {call : Call N sch c}

/-- The call was like one on a fresh object, and left the scheduler as its constructor did. -/
def Ok (call : Call N sch c) : Prop :=
  SameAsFresh call.solver sch c call.record call.before ∧ Reset sch call.after

/-- The threads got no nodes, and a call without a search found no old record. -/
def Harmless (call : Call N sch c) : Prop :=
  (call.solver.rank > minRankValue → call.nodes = []) ∧
    (¬ call.solver.rank > minRankValue → call.before.record = 0)

end Call

/-- Between two calls nothing is created that is not released. -/
def Ready (sch : Scheduler) (sh : Shared N) : Prop := Reset sch sh ∧ sh.created = sh.released

theorem ready_construct (sch : Scheduler) : Ready sch (construct sch : Shared N) :=
  ⟨⟨rfl, rfl⟩, rfl⟩

theorem Ready.running {sh : Shared N} (h : Ready sch sh) (S : Solver N) (c : Container)
    (record : ValueType) : Running S sch c (fun _ => True) (start S sch sh record) :=
  .start h.1.queueSets h.1.counter h.2 (fun _ _ _ _ => trivial) fun _ => trivial

/-- The counter is not back once all threads are counted. -/
theorem not_finished_initial (hT : 0 < sch.numThreads.toNat) :
    ¬ sch.finished sch.initialCounter := by
  rw [← Scheduler.counterOf_zero, Scheduler.finished_counterOf (Nat.zero_le _)]
  exact hT.ne

theorem Running.reset_iff (hT : 0 < sch.numThreads.toNat) {m : ℕ}
    (h : Running S sch c (· = m) st) {sol : Solution} (hm : st.main = .returned sol) :
    Reset sch st.shared ↔ m = 0 := by
  have hhand := h.handed
  simp only [MainHanded, hm] at hhand
  obtain ⟨_, _, m₁, hm₁, hall⟩ := hhand
  rw [hm₁] at hall
  obtain ⟨m₂, hm₂, ⟨hpos, _, _, hcounted⟩ | ⟨hq, hun⟩⟩ := h.counted_of_returned hm
  · refine iff_of_false (fun hreset => ?_) (hm₂ ▸ hpos.ne')
    exact not_finished_initial hT (hreset.counter ▸ h.inv.finished_iff.mpr hcounted)
  · have hzero : m = 0 := by
      by_contra hne
      exact (hun ⟨0, hT⟩).not_handed ((hall ⟨0, hT⟩).1 (Nat.pos_of_ne_zero hne))
    have hcount : st.count = 0 := by
      rw [State.count, State.sum]
      exact Finset.sum_eq_zero fun i _ => by simp [(hun i).2.2.2]
    exact iff_of_true ⟨hq, by rw [h.inv.counter, hcount, Scheduler.counterOf_zero]⟩ hzero

/-- A call without a search returns the record of the object. -/
structure Quiet (S : Solver N) (sch : Scheduler) (c : Container) (r : ValueType)
    (st : State N sch.numThreads.toNat) : Prop where
  running : Running S sch c (· = 0) st
  started : ∀ f, st.main ≠ .first f
  record : st.shared.record = r

theorem Quiet.preserved (hmin : 0 < sch.numMinimumNodes.toNat) {r : ValueType} :
    Preserved (Uninterrupted S sch c) (Quiet S sch c r) := by
  intro st st' h hstep
  have hrun := Running.preserved hmin h.running hstep
  rcases hstep with hstep | hwake
  · cases hstep with
    | branch hm | stop hm => exact absurd hm (h.started _)
    | thread hstep =>
      let P (st' : State N sch.numThreads.toNat) :=
        Running S sch c (· = 0) st' ∧ st'.main = st.main ∧ st'.shared.record = r
      have hP := of_step (P := P) hmin ?_ (h.running.inv.ok _) ⟨h.running, rfl, h.record⟩ hstep
      · exact ⟨hrun, h.started, hP.2.2⟩
      · rintro st' i o ⟨hrun, hm, hr⟩ hmove
        refine ⟨hrun.apply hmove, hm, ?_⟩
        obtain ⟨_, rfl, hall⟩ := hrun.handedOut hmove.pc.1
        rcases hmove.record with heq | ⟨hpc, _⟩
        · exact heq.trans hr
        · obtain ⟨hun, _⟩ := (hall i).2 i.val.zero_le
          simp [hpc] at hun
    | _ => exact ⟨hrun, by simp, h.record⟩
  · obtain ⟨i⟩ := hwake
    exact ⟨hrun, h.started, h.record⟩

theorem quiet_start (hrank : ¬ S.rank > minRankValue) {sh : Shared N} (h : Ready sch sh)
    (record : ValueType) : Quiet S sch c sh.record (start S sch sh record) where
  running := .start h.1.queueSets h.1.counter h.2 (fun hr => absurd hr hrank) fun _ => rfl
  started f hf := by
    rw [start, if_neg hrank] at hf
    cases hf
  record := by rw [start, if_neg hrank]

theorem CanReturn.value_eq (hmin : 0 < sch.numMinimumNodes.toNat)
    (hrank : ¬ S.rank > minRankValue) {sh after : Shared N} (h : Ready sch sh)
    {record : ValueType} {sol : Solution} (hr : CanReturn S sch c record sh sol after) :
    sol.value = sh.record := by
  obtain ⟨st, hst, hm, _⟩ := hr
  have hquiet := (Quiet.preserved hmin).reaches (quiet_start hrank h record) hst
  have hhand := hquiet.running.handed
  simp only [MainHanded, hm] at hhand
  exact hhand.1.1.trans hquiet.record

namespace Call

variable {call : Call N sch c}

theorem canReturn (call : Call N sch c) :
    CanReturn call.solver sch c call.record call.before call.sol call.after := by
  obtain ⟨st, st', hst, _, hst', hm, hafter⟩ := call.run
  exact ⟨st', hst.trans hst', hm, hafter⟩

theorem reset_iff (hT : 0 < sch.numThreads.toNat) (hmin : 0 < sch.numMinimumNodes.toNat)
    (h : Ready sch call.before) : Reset sch call.after ↔ call.nodes = [] := by
  obtain ⟨st, st', hst, hdecide, hst', hm, hafter⟩ := call.run
  have hany := (Running.preserved hmin).reaches (h.running call.solver c call.record) hst
  have hhand : MainHanded call.solver sch c (· = call.nodes.length) st := by
    simp only [MainHanded, hdecide]
  have hrun := (Running.preserved hmin).reaches
    ⟨hany.inv, hany.uninterrupted, hhand, hany.queue⟩ hst'
  rw [← hafter, hrun.reset_iff hT hm, List.length_eq_zero_iff]

/-- Every call leaves the trees empty. -/
theorem balanced (hmin : 0 < sch.numMinimumNodes.toNat) (h : Ready sch call.before) :
    call.after.created = call.after.released := by
  obtain ⟨st, hst, hm, hafter⟩ := call.canReturn
  have hrun := (Running.preserved hmin).reaches (h.running call.solver c call.record) hst
  rw [← hafter, hrun.inv.balance, hrun.pending_returned hm, add_zero]

theorem nodes_eq_nil (hmin : 0 < sch.numMinimumNodes.toNat) (h : Ready sch call.before)
    (hrank : ¬ call.solver.rank > minRankValue) : call.nodes = [] := by
  obtain ⟨st, _, hst, hdecide, _⟩ := call.run
  have hhand := ((Quiet.preserved hmin).reaches
    (quiet_start (c := c) hrank h call.record) hst).running.handed
  simp only [MainHanded, hdecide] at hhand
  exact List.length_eq_zero_iff.mp hhand

theorem ok_iff (hT : 0 < sch.numThreads.toNat) (hmin : 0 < sch.numMinimumNodes.toNat)
    (h : Ready sch call.before) : call.Ok ↔ call.Harmless := by
  rw [Ok, call.reset_iff hT hmin h]
  by_cases hrank : call.solver.rank > minRankValue
  · exact ⟨fun hok => ⟨fun _ => hok.2, absurd hrank⟩,
      fun hh => ⟨.of_reset h.1 (.inl hrank), hh.1 hrank⟩⟩
  · refine ⟨fun hok => ⟨fun hr => absurd hr hrank, fun _ => ?_⟩, fun hh => ?_⟩
    · obtain ⟨after, hfresh⟩ := (hok.1.value call.sol).mp ⟨_, call.canReturn⟩
      exact (call.canReturn.value_eq hmin hrank h).symm.trans
        (hfresh.value_eq hmin hrank (ready_construct sch))
    · exact ⟨.of_reset h.1 (.inr (hh.2 hrank)), call.nodes_eq_nil hmin h hrank⟩

end Call

/-- Calls on one object, one after the other. -/
inductive Session (sch : Scheduler) (c : Container) : List (Call N sch c) → Shared N → Prop
  | construct : Session sch c [] (construct sch)
  | call {calls : List (Call N sch c)} {sh : Shared N} (h : Session sch c calls sh)
      (next : Call N sch c) (hbefore : next.before = sh) :
      Session sch c (calls ++ [next]) next.after

/-- A `ParallelBNB` object has no memory of its earlier calls exactly as long as no call hands nodes
to its threads and calls without a search come before the first record. -/
theorem session_ok_iff (hT : 1 ≤ sch.numThreads.toNat) (hmin : 1 ≤ sch.numMinimumNodes.toNat)
    {calls : List (Call N sch c)} {sh : Shared N} (h : Session sch c calls sh) :
    (∀ call ∈ calls, call.Ok) ↔ ∀ call ∈ calls, call.Harmless := by
  suffices hs : ((∀ call ∈ calls, call.Ok) ↔ ∀ call ∈ calls, call.Harmless) ∧
      ((∀ call ∈ calls, call.Ok) → Ready sch sh) from hs.1
  induction h with
  | construct => exact ⟨by simp, fun _ => ready_construct sch⟩
  | @call calls sh _ next hbefore ih =>
    obtain ⟨ihiff, ihready⟩ := ih
    simp only [List.forall_mem_append, List.forall_mem_singleton]
    have hnext (hall : ∀ call ∈ calls, call.Ok) : Ready sch next.before := hbefore ▸ ihready hall
    refine ⟨⟨fun ⟨hall, hok⟩ => ?_, fun ⟨hall, hok⟩ => ?_⟩, fun ⟨hall, hok⟩ => ?_⟩
    · exact ⟨ihiff.mp hall, (Call.ok_iff hT hmin (hnext hall)).mp hok⟩
    · have hold := ihiff.mpr hall
      exact ⟨hold, (Call.ok_iff hT hmin (hnext hold)).mpr hok⟩
    · exact ⟨hok.2, next.balanced hmin (hnext hall)⟩

/-- A first call whose first phase ends with `g`. -/
theorem exists_call {X : Type*} {cost : X → ValueType} {sols : N → Set X}
    (C : S.Contract cost sols) (hrank : S.rank > minRankValue) (hT : 0 < sch.numThreads.toNat)
    (hmin : 0 < sch.numMinimumNodes.toNat) {record : ValueType}
    (hfirst : FirstLeaves S sch c record (Even sch)) {g : First N}
    (hg : Reaches (FirstStep S sch c) (firstStart S record) g) (hend : FirstEnd sch g) :
    ∃ call : Call N sch c, call.solver = S ∧ call.record = record ∧ call.before = construct sch ∧
      call.nodes = g.nodes ∧ Session sch c [call] call.after := by
  have hsearch : Searching S sch c (Even sch) cost sols (min record S.initialSolution.value)
      (start S sch (construct sch) record) := .start hrank rfl rfl rfl hfirst
  have hmain : (start S sch (construct sch) record).main = .first (firstStart S record) := by
    rw [start, if_pos hrank]
  obtain ⟨st₁, hr₁, hm₁, _⟩ := reaches_first hg hmain hsearch.running.uninterrupted
  have hstop : Step S sch c st₁ _ := .stop hm₁ (hend.imp id .inl)
  have hr₂ := hr₁.tail (.inl hstop)
  obtain ⟨_, _, _, v, hv, _⟩ := (serial_correct C hrank .lifo record).exists_end
  have hret := hsearch.returns C hT hmin hv
  obtain ⟨st₃, hr₃, hs₃⟩ := (hret.terminates _ hr₂).exists_stuck
  have hr₃' : Reaches (Uninterrupted S sch c) _ st₃ := reaches_mono (fun _ _ => .inl) hr₃
  obtain ⟨sol, hm₃, _⟩ := hret.ends st₃ (hr₂.trans hr₃') hs₃
  exact ⟨⟨S, record, construct sch, g.nodes, sol, st₃.shared, _, st₃, hr₂, rfl, hr₃', hm₃, rfl⟩,
    rfl, rfl, rfl, rfl, .call .construct _ rfl⟩

/-- One thread, and the first phase leaves it the root of the search tree with two leaves. -/
theorem exists_call_pair : ∃ call : Call (Option Bool) (.giving ⟨1, 1, 1⟩) .lifo,
    call.solver = pairSolver ∧ call.record = mVal ∧ call.before = construct (.giving ⟨1, 1, 1⟩) ∧
      call.nodes = [none] ∧ Session (.giving ⟨1, 1, 1⟩) .lifo [call] call.after :=
  exists_call pairSolver_contract (by decide) (by decide) (by decide)
    (fun _ _ _ => (Nat.eq_zero_or_pos _).imp id id) .refl (.inr (by decide))

/-- After the call the counter of working threads is `0` and not `1`. -/
theorem session_remembers : ∃ call : Call (Option Bool) (.giving ⟨1, 1, 1⟩) .lifo,
    call.solver = pairSolver ∧ call.record = mVal ∧
      Session (.giving ⟨1, 1, 1⟩) .lifo [call] call.after ∧
      ¬ Reset (.giving ⟨1, 1, 1⟩) call.after := by
  obtain ⟨call, hsolver, hrecord, hbefore, hnodes, hsession⟩ := exists_call_pair
  refine ⟨call, hsolver, hrecord, hsession, fun hreset => ?_⟩
  have hready : Ready (.giving ⟨1, 1, 1⟩) call.before := hbefore ▸ ready_construct _
  have hnil := (call.reset_iff (by decide) (by decide) hready).mp hreset
  rw [hnodes] at hnil
  exact absurd hnil (List.cons_ne_nil _ _)

/-- Two threads, and a first phase that leaves them nothing: it branches on the root and on both leaves. -/
theorem session_ok_iff_pair : ∃ call : Call (Option Bool) (.giving ⟨2, 3, 3⟩) .lifo,
    call.solver = pairSolver ∧ Session (.giving ⟨2, 3, 3⟩) .lifo [call] call.after ∧ call.Ok := by
  have hfirst : ∃ g, Reaches (FirstStep pairSolver (.giving ⟨2, 3, 3⟩) .lifo) (firstStart pairSolver mVal) g ∧
      g.nodes = [] :=
    ⟨_, .head (.body (by decide) rfl) (.head (.body (by decide) rfl) (.single (.body (by decide) rfl))), rfl⟩
  obtain ⟨g, hg, hnil⟩ := hfirst
  obtain ⟨call, hsolver, _, _, hnodes, hsession⟩ := exists_call pairSolver_contract (by decide) (by decide)
    (by decide) (firstLeaves_even (by decide) (by decide) mVal) hg (.inl hnil)
  refine ⟨call, hsolver, hsession, ?_⟩
  refine (session_ok_iff (by decide) (by decide) hsession).mpr (fun call' hmem => ?_) call (List.mem_singleton_self _)
  cases List.mem_singleton.mp hmem
  exact ⟨fun _ => hnodes.trans hnil, fun hrank =>
    absurd (hsolver ▸ (by decide : pairSolver.rank > minRankValue)) hrank⟩

end Parallel

end Optimer
