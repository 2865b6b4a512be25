import Optimer.Bnb.ParallelMemory

/-! `ParallelBNB::solve` does not look into the nodes outside of `branch` and the priority queue: a step on
addresses is a step on the nodes that these stand for. -/

namespace Optimer

variable {N M : Type*}

section Maps

variable (f : N → M)

def Pc.map : Pc N → Pc M
  | .idle => .idle
  | .start => .start
  | .loop => .loop
  | .read n => .read (f n)
  | .branch n => .branch (f n)
  | .check => .check
  | .publish => .publish
  | .schedule => .schedule
  | .send => .send
  | .empty => .empty
  | .enter => .enter
  | .lock => .lock
  | .blocked => .blocked
  | .returned => .returned
  | .exited => .exited

def Thread.map (t : Thread N) : Thread M where
  pc := t.pc.map f
  listNodes := t.listNodes.map f
  listStats := t.listStats
  record := t.record
  nodes := t.nodes.map f
  sol := t.sol
  stats := t.stats
  counted := t.counted

/-- The record of the calls of the search trees is kept apart, as an address can be used again. -/
def Shared.map (created released : Multiset M) (sh : Shared N) : Shared M where
  record := sh.record
  queueSets := sh.queueSets.map f
  counter := sh.counter
  interrupted := sh.interrupted
  created := created
  released := released

def Outcome.map (created released : Multiset M) (o : Outcome N) : Outcome M where
  thread := o.thread.map f
  shared := o.shared.map f created released
  notifyAll := o.notifyAll

def First.map (g : First N) : First M where
  nodes := g.nodes.map f
  record := g.record
  sol := g.sol

def Main.map : Main N → Main M
  | .first g => .first (g.map f)
  | .decide nodes => .decide (nodes.map f)
  | .hand nodes i => .hand (nodes.map f) i
  | .spawn i => .spawn i
  | .join => .join
  | .clean nodes => .clean (nodes.map f)
  | .returned sol => .returned sol

def State.map {T : ℕ} (created released : Multiset M) (st : State N T) : State M T where
  main := st.main.map f
  threads i := (st.threads i).map f
  shared := st.shared.map f created released

end Maps

section Sections

variable (f : N → M)

theorem sendNodes_map (minimum : ℕ) (nodes queue : List N) (sent : ℕ) :
    sendNodes minimum (nodes.map f) (queue.map f) sent =
      ((sendNodes minimum nodes queue sent).1.map f, (sendNodes minimum nodes queue sent).2.1.map f,
        (sendNodes minimum nodes queue sent).2.2) := by
  induction nodes generalizing queue sent with
  | nil => rfl
  | cons n nodes ih =>
    have hqueue := ih (queue ++ [n]) (sent + 1)
    rw [List.map_append] at hqueue
    simp only [List.map_cons, List.map_nil, sendNodes, List.length_cons, List.length_map] at hqueue ⊢
    split
    exacts [hqueue, rfl]

theorem takeNodes_map (minimum : ℕ) (nodes queue : List N) (received : ℕ) :
    takeNodes minimum (nodes.map f) (queue.map f) received =
      ((takeNodes minimum nodes queue received).1.map f, (takeNodes minimum nodes queue received).2.1.map f,
        (takeNodes minimum nodes queue received).2.2) := by
  induction queue generalizing nodes received with
  | nil => rfl
  | cons n queue ih =>
    simp only [List.map_cons, takeNodes, List.length_map]
    split
    · exact ih (n :: nodes) (received + 1)
    · rfl

theorem pushAll_map (l new : List N) : (Container.pushAll l new).map f = Container.pushAll (l.map f) (new.map f) := by
  rw [Container.pushAll_eq, Container.pushAll_eq, List.map_append, List.map_reverse]

end Sections

namespace Thread

variable {f : N → M} {S : Solver N} {S' : Solver M} {sch : Scheduler} {t : Thread N} {sh : Shared N} {o : Outcome N}
  {created released : Multiset M}

theorem map_notified : (t.map f).notified = t.notified.map f := by
  obtain ⟨pc, listNodes, listStats, record, nodes, sol, stats, counted⟩ := t
  cases pc <;> rfl

theorem map_wait : (t.map f).wait sch (sh.map f created released) = (t.wait sch sh).map f created released := by
  unfold wait take
  have htake := takeNodes_map f sch.numMinimumNodes.toNat t.nodes sh.queueSets t.stats.setsReceived
  simp only [map, Shared.map, List.isEmpty_map] at htake ⊢
  split
  · simp only [htake, List.isEmpty_map]
    split <;> rfl
  · rfl

variable (f S S' sch created released) in
/-- Outside of `branch` a thread does the same on both sides. -/
theorem step_map (hi : sh.interrupted = false) (hb : ∀ a, t.pc ≠ .branch a) :
    (t.map f).step S' sch (sh.map f created released) =
      (t.step S sch sh).map (Outcome.map f created released) := by
  cases hpc : t.pc with
  | branch n => exact absurd hpc (hb n)
  | loop =>
    cases hn : t.nodes with
    | nil =>
      simp [step, map, hpc, hn, hi, Pc.map, Shared.map, Outcome.map, leave]
    | cons n nodes => simp [step, map, hpc, hn, hi, Pc.map, Shared.map, Outcome.map]
  | check | empty =>
    simp only [step, map, hpc, Pc.map, Option.map_some, Outcome.map, Shared.map, List.isEmpty_map]
    split <;> rfl
  | schedule =>
    simp only [step, map, hpc, Pc.map, Option.map_some, Outcome.map, Shared.map, List.length_map]
    split <;> rfl
  | enter =>
    cases sch with
    | giving p =>
      have hann : (t.map f).announce (.giving p) (sh.map f created released) =
        (t.announce (.giving p) sh).map f created released := rfl
      simp only [step, hpc, enter, Option.map_some]
      rw [show (t.map f).pc = .enter by simp [map, hpc, Pc.map]]
      simp only [hann, Outcome.map, map_wait]
    | requesting p => simp [step, map, hpc, Pc.map, enter, announce, Outcome.map, Shared.map]
  | lock =>
    simp only [step, hpc, Option.map_some]
    rw [show (t.map f).pc = .lock by simp [map, hpc, Pc.map]]
    simp only [map_wait]
  | send =>
    simp only [step, hpc, Option.map_some]
    rw [show (t.map f).pc = .send by simp [map, hpc, Pc.map]]
    have hsend := sendNodes_map f sch.numMinimumNodes.toNat t.nodes sh.queueSets t.stats.setsSent
    simp only [send, map, Shared.map, Outcome.map, hsend, Pc.map]
  | start => simp [step, map, hpc, Pc.map, begin, Outcome.map, Shared.map, pushAll_map]
  | _ => simp [step, map, hpc, Pc.map, publish, Outcome.map, Shared.map]

theorem wait_released : (t.wait sch sh).shared.released = sh.released := by
  unfold wait take
  split
  · dsimp only
    split <;> rfl
  · rfl

/-- The converse of `step_created`. -/
theorem step_released (h : t.step S sch sh = some o) (hi : sh.interrupted = false) (hb : ∀ a, t.pc ≠ .branch a) :
    o.shared.released = sh.released := by
  cases hpc : t.pc with
  | idle | blocked | exited => simp [step, hpc] at h
  | branch n => exact absurd hpc (hb n)
  | loop =>
    cases hn : t.nodes with
    | nil =>
      simp only [step, hpc, hn, Option.some.injEq] at h
      simp [← h, leave, hn]
    | cons n nodes =>
      simp only [step, hpc, hn, hi, Option.some.injEq] at h
      simp [← h]
  | enter =>
    simp only [step, hpc, Option.some.injEq] at h
    subst h
    cases sch with
    | giving p => exact wait_released
    | requesting p => rfl
  | lock =>
    simp only [step, hpc, Option.some.injEq] at h
    exact h ▸ wait_released
  | _ =>
    simp only [step, hpc, Option.some.injEq] at h
    subst h
    simp [begin, publish, send]

theorem pc_map_branch {n : M} : (t.map f).pc = .branch n ↔ ∃ a, t.pc = .branch a ∧ f a = n := by
  obtain ⟨pc, listNodes, listStats, record, nodes, sol, stats, counted⟩ := t
  cases pc <;> simp [map, Pc.map]

/-- Only what the thread has of nodes matters. -/
theorem map_congr {g : N → M} (h : ∀ a ∈ t.pending, f a = g a) : t.map f = t.map g := by
  obtain ⟨pc, listNodes, listStats, record, nodes, sol, stats, counted⟩ := t
  simp only [pending, Multiset.mem_add, Multiset.mem_coe] at h
  have hlist : listNodes.map f = listNodes.map g := List.map_congr_left fun a ha => h a (.inl (.inl ha))
  have hnodes : nodes.map f = nodes.map g := List.map_congr_left fun a ha => h a (.inl (.inr ha))
  have hpc : pc.map f = pc.map g := by
    cases pc with
    | read n | branch n => simpa [Pc.map] using h n (.inr (by simp))
    | _ => rfl
  simp only [map, hlist, hnodes, hpc]

end Thread

namespace State

variable {f g : N → M} {T : ℕ} {st : State N T} {i : Fin T} {o : Outcome N}
    {created released created' released' : Multiset M}

theorem map_apply (created released : Multiset M) : (st.apply i o).map f created' released' =
    (st.map f created released).apply i (o.map f created' released') := by
  simp only [map, apply, State.mk.injEq, true_and]
  refine ⟨funext fun j => ?_, rfl⟩
  by_cases hji : j = i
  · subst hji
    simp only [Function.update_self, Outcome.map]
    split
    exacts [Thread.map_notified.symm, rfl]
  · simp only [Function.update_of_ne hji, Outcome.map]
    split
    exacts [Thread.map_notified.symm, rfl]

theorem map_congr (h : ∀ a ∈ st.pending, f a = g a) : st.map f created released = st.map g created released := by
  have hmain : st.main.map f = st.main.map g := by
    have hnodes : st.main.nodes.map f = st.main.nodes.map g := List.map_congr_left fun a ha =>
      h a (Multiset.mem_add.mpr (.inl (Multiset.mem_add.mpr (.inl (Multiset.mem_coe.mpr ha)))))
    cases hm : st.main with
    | first g => simpa [Main.map, First.map, hm, Main.nodes] using hnodes
    | decide nodes | hand nodes i | clean nodes => simpa [Main.map, hm, Main.nodes] using hnodes
    | _ => rfl
  have hqueue : st.shared.queueSets.map f = st.shared.queueSets.map g := List.map_congr_left fun a ha =>
    h a (Multiset.mem_add.mpr (.inr (Multiset.mem_coe.mpr ha)))
  have hthreads i : (st.threads i).map f = (st.threads i).map g := Thread.map_congr fun a ha =>
    h a (Multiset.mem_of_le (st.thread_pending_le i) ha)
  simp only [map, Shared.map, hmain, hqueue, hthreads]

end State

namespace Container

variable {S : Solver M} {c : Container} {f : N → M} {l rest : List N} {l' : List M} {a : N} {n : M}

theorem Pop.map (h : c.Pop S f l a rest) : c.Pop S id (l.map f) (f a) (rest.map f) := by
  cases c with
  | lifo => exact (congrArg (List.map f) h).trans List.map_cons
  | priority =>
    refine ⟨h.1.map f, fun m hm => ?_⟩
    obtain ⟨b, hb, rfl⟩ := List.mem_map.mp hm
    exact h.2 b hb

theorem Pop.of_map (h : c.Pop S id (l.map f) n l') : ∃ a rest, c.Pop S f l a rest ∧ f a = n ∧ rest.map f = l' := by
  have hmap : List.Forall₂ (fun n a => f a = n) (l.map f) l := by
    rw [List.forall₂_map_left_iff]
    exact List.forall₂_same.mpr fun _ _ => rfl
  obtain ⟨a, rest, hp, ha, hrest⟩ := h.matched hmap fun m b (hb : f b = m) => (hb.symm : id m = f b)
  refine ⟨a, rest, hp, ha, ?_⟩
  rw [← List.forall₂_eq_eq_eq, List.forall₂_map_left_iff]
  exact hrest.flip

end Container

/-! ### The steps of `solve` -/

namespace Main

variable {f : N → M} {m : Main N} {nodes : List M}

theorem map_eq_first {g : First M} : m.map f = .first g ↔ ∃ g', m = .first g' ∧ g'.map f = g := by
  cases m <;> simp [map]

theorem map_eq_decide : m.map f = .decide nodes ↔ ∃ l, m = .decide l ∧ l.map f = nodes := by
  cases m <;> simp [map]

theorem map_eq_hand {i : UInt32} : m.map f = .hand nodes i ↔ ∃ l, m = .hand l i ∧ l.map f = nodes := by
  cases m <;> simp [map, and_comm]

theorem map_eq_spawn {i : ℕ} : m.map f = .spawn i ↔ m = .spawn i := by
  cases m <;> simp [map]

theorem map_eq_join : m.map f = .join ↔ m = .join := by
  cases m <;> simp [map]

theorem map_eq_clean : m.map f = .clean nodes ↔ ∃ l, m = .clean l ∧ l.map f = nodes := by
  cases m <;> simp [map]

theorem map_eq_returned {sol : Solution} : m.map f = .returned sol ↔ m = .returned sol := by
  cases m <;> simp [map]

end Main

namespace State

variable {f : N → M} {T : ℕ} {st : State N T} {created released : Multiset M}

theorem map_update {main : Main N} {k : Fin T} {t : Thread N} :
    State.map f created released { st with main := main, threads := Function.update st.threads k t } =
      { st.map f created released with
        main := main.map f
        threads := Function.update (st.map f created released).threads k (t.map f) } := by
  simp only [map, State.mk.injEq, true_and, and_true]
  exact Function.comp_update (Thread.map f) st.threads k t

end State

theorem Thread.pc_map_exited {f : N → M} {t : Thread N} : (t.map f).pc = .exited ↔ t.pc = .exited := by
  obtain ⟨pc, listNodes, listStats, record, nodes, sol, stats, counted⟩ := t
  cases pc <;> simp [map, Pc.map]

namespace Parallel

variable {S : Solver M} {S' : Solver N} {f : N → M} {sch : Scheduler} {c : Container}
  {st st' : State N sch.numThreads.toNat} {s : State M sch.numThreads.toNat} {created released : Multiset M}

/-- The steps that release no node. -/
theorem Step.map (hpop : ∀ {l rest : List N} {a : N}, c.Pop S' id l a rest → c.Pop S f l a rest)
    (hi : st.shared.interrupted = false) (hstep : Step S' sch c st st')
    (hr : st'.shared.released = st.shared.released) :
    Step S sch c (st.map f created released) (st'.map f created released) := by
  cases hstep with
  | branch => simp at hr
  | clean => simp at hr
  | @stop g hm h =>
    have hstep : Step S sch c (st.map f created released) _ := .stop (f := g.map f)
      (Main.map_eq_first.mpr ⟨_, hm, rfl⟩) (by simpa [First.map, State.map, Shared.map] using h)
    exact hstep
  | skip hm h => exact absurd (h.symm.trans hi) (by simp)
  | resize hm => exact .resize (Main.map_eq_decide.mpr ⟨_, hm, rfl⟩) hi
  | @hand nodes rest i n k hm hp hk =>
    have hstep : Step S sch c (st.map f created released) _ :=
      .hand (Main.map_eq_hand.mpr ⟨_, hm, rfl⟩) (hpop hp).map hk
    rw [State.map_update]
    simpa [Thread.map, Main.map, State.map] using hstep
  | handed hm => exact .handed (Main.map_eq_hand.mpr ⟨[], hm, rfl⟩)
  | @spawn i hm =>
    have hstep : Step S sch c (st.map f created released) _ := .spawn (Main.map_eq_spawn.mpr hm)
    rw [State.map_update]
    exact hstep
  | spawned hm => exact .spawned (Main.map_eq_spawn.mpr hm)
  | join hm h => exact .join (Main.map_eq_join.mpr hm) fun i => Thread.pc_map_exited.mpr (h i)
  | ret hm => exact .ret (Main.map_eq_clean.mpr ⟨[], hm, rfl⟩)
  | @thread i o hstep =>
    obtain ⟨_, hb⟩ := Thread.step_created hstep hr
    have hmap := Thread.step_map f S' S sch created released hi hb
    rw [hstep, Option.map_some] at hmap
    rw [State.map_apply created released]
    exact .thread hmap

/-- Where a step on the nodes comes from. -/
inductive Origin (S : Solver M) (S' : Solver N) (f : N → M) (sch : Scheduler) (c : Container)
    (st : State N sch.numThreads.toNat) (created released : Multiset M) : State M sch.numThreads.toNat → Prop
  | quiet {st' : State N sch.numThreads.toNat} (h : Step S' sch c st st')
      (hr : st'.shared.released = st.shared.released) :
      Origin S S' f sch c st created released (st'.map f created released)
  | first {g : First N} {a : N} {rest : List N} (hm : st.main = .first g) (hsize : g.nodes.length < bound sch)
      (hp : c.Pop S f g.nodes a rest) :
      Origin S S' f sch c st created released
        (round S (st.map f created released) (g.map f) (f a) (rest.map f))
  | branch {i : Fin sch.numThreads.toNat} {a : N} (hpc : (st.threads i).pc = .branch a) :
      Origin S S' f sch c st created released ((st.map f created released).apply i
        (((st.threads i).map f).branch S (st.map f created released).shared (f a)))
  | clean {nodes rest : List N} {a : N} (hm : st.main = .clean nodes) (hp : c.Pop S f nodes a rest) :
      Origin S S' f sch c st created released
        { st.map f created released with
          main := .clean (rest.map f)
          shared := { st.shared.map f created released with released := released + {f a} } }

theorem Step.origin (hpop : ∀ {l rest : List N} {a : N}, c.Pop S f l a rest → c.Pop S' id l a rest)
    (hi : st.shared.interrupted = false) (hstep : Step S sch c (st.map f created released) s) :
    Origin S S' f sch c st created released s := by
  cases hstep with
  | branch hm _ hsize hp =>
    obtain ⟨g, hm', rfl⟩ := Main.map_eq_first.mp hm
    obtain ⟨a, rest, hp', rfl, rfl⟩ := hp.of_map
    exact .first hm' (by simpa [First.map] using hsize) hp'
  | clean hm hp =>
    obtain ⟨nodes, hm', rfl⟩ := Main.map_eq_clean.mp hm
    obtain ⟨a, rest, hp', rfl, rfl⟩ := hp.of_map
    exact .clean hm' hp'
  | stop hm h =>
    obtain ⟨g, hm', rfl⟩ := Main.map_eq_first.mp hm
    have hstep : Step S' sch c st _ := .stop hm' (by simpa [First.map, State.map, Shared.map] using h)
    exact .quiet hstep rfl
  | skip hm h => exact absurd (h.symm.trans hi) (by simp)
  | resize hm =>
    obtain ⟨nodes, hm', rfl⟩ := Main.map_eq_decide.mp hm
    exact .quiet (.resize hm' hi) rfl
  | @hand _ _ i n k hm hp hk =>
    obtain ⟨nodes, hm', rfl⟩ := Main.map_eq_hand.mp hm
    obtain ⟨a, rest, hp', rfl, rfl⟩ := hp.of_map
    have horigin : Origin S S' f sch c st created released _ := .quiet (.hand hm' (hpop hp') hk) rfl
    rw [State.map_update] at horigin
    simpa [Thread.map, Main.map, State.map] using horigin
  | handed hm =>
    obtain ⟨nodes, hm', hnil⟩ := Main.map_eq_hand.mp hm
    obtain rfl := List.map_eq_nil_iff.mp hnil
    exact .quiet (.handed hm') rfl
  | spawn hm =>
    have horigin : Origin S S' f sch c st created released _ := .quiet (.spawn (Main.map_eq_spawn.mp hm)) rfl
    rw [State.map_update] at horigin
    exact horigin
  | spawned hm => exact .quiet (.spawned (Main.map_eq_spawn.mp hm)) rfl
  | join hm h => exact .quiet (.join (Main.map_eq_join.mp hm) fun i => Thread.pc_map_exited.mp (h i)) rfl
  | ret hm =>
    obtain ⟨nodes, hm', hnil⟩ := Main.map_eq_clean.mp hm
    obtain rfl := List.map_eq_nil_iff.mp hnil
    exact .quiet (.ret hm') rfl
  | @thread i o hstep =>
    by_cases hb : ∃ a, (st.threads i).pc = .branch a
    · obtain ⟨a, hpc⟩ := hb
      have hbranch : ((st.threads i).map f).step S sch (st.shared.map f created released) =
          some (((st.threads i).map f).branch S (st.shared.map f created released) (f a)) := by
        simp [Thread.step, Thread.map, hpc, Pc.map]
      obtain rfl := Option.some.inj (hbranch.symm.trans hstep)
      exact .branch hpc
    · have hmap := Thread.step_map f S' S sch created released hi (not_exists.mp hb)
      obtain ⟨o', ho', rfl⟩ := Option.map_eq_some_iff.mp (hmap.symm.trans hstep)
      rw [← State.map_apply created released]
      exact .quiet (.thread ho') (Thread.step_released ho' hi (not_exists.mp hb))

end Parallel

end Optimer
