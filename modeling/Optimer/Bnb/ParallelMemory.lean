import Optimer.Bnb.LedgerState
import Optimer.Bnb.SerialMemory

/-! `ParallelBNB::solve` on the nodes of an `MTSearchTree`. Containers, the queue of the scheduler and
`list_nodes_` hold addresses. A call of `branch` is many steps: between any two of them other threads
may create, fill in and release nodes. -/

namespace Optimer
open Transition

variable {D N : Type*}

/-- The solver on addresses: `node` says what they stand for, `new` are the nodes that the call of `branch`
under way appends. -/
def Solver.through (S : Solver N) (node : ℕ → N) (new : List ℕ) : Solver ℕ where
  rank := S.rank
  initialNode := 0
  initialSolution := S.initialSolution
  branch a r sol :=
    { record := (S.branch (node a) r sol).record
      sol := (S.branch (node a) r sol).sol
      nodes := new
      released := [] }
  less a b := S.less (node a) (node b)
  less_irrefl _ := S.less_irrefl _
  less_trans := S.less_trans

namespace Parallel

/-- A round of the first phase on the node `n`. -/
def round {T : ℕ} (S : Solver N) (st : State N T) (f : First N) (n : N) (rest : List N) : State N T :=
  { st with
    main := .first (First.body S f n rest)
    shared := { st.shared with
      created := st.shared.created +
        ((S.branch n f.record f.sol).nodes + (S.branch n f.record f.sol).released)
      released := st.shared.released + (n ::ₘ (S.branch n f.record f.sol).released) } }

/-- The state of `solve` with addresses for nodes, the search tree, and for every call of `branch` under way
the nodes it has created and not released. The thread `none` is that of `solve`. -/
structure MemState (D : Type*) (T : ℕ) where
  state : State ℕ T
  tree : MTRun (Option (Fin T)) D
  work : Option (Fin T) → List ℕ

variable [SetData D]

/-- What `branch` does with the tree on the node `a` in the thread `u`. -/
inductive BranchCall {T : ℕ} (u : Option (Fin T)) (a : ℕ) : MemState D T → MemState D T → Prop
  | create {st : MemState D T} : BranchCall u a st { st with
      tree := st.tree.create u a
      work := Function.update st.work u (st.tree.created u a :: st.work u) }
  | write {st : MemState D T} {x : ℕ} (hx : x ∈ st.work u) (d : D) :
      BranchCall u a st { st with tree := st.tree.write x d }
  | release {st : MemState D T} {x : ℕ} {tree : MTRun (Option (Fin T)) D} (hx : x ∈ st.work u)
      (hr : st.tree.release u x = some tree) :
      BranchCall u a st { st with tree, work := Function.update st.work u ((st.work u).erase x) }

/-- What the open addresses stand for: `path` is the data of a node and its ancestors. -/
def Stands {T : ℕ} (path : N → List D) (st : MemState D T) (node : ℕ → N) : Prop :=
  ∀ a ∈ st.state.pending, st.tree.mem.Reads a (path (node a))

instance {T : ℕ} [DecidableEq D] {path : N → List D} {st : MemState D T} {node : ℕ → N} :
    Decidable (Stands path st node) :=
  inferInstanceAs (Decidable (∀ a ∈ st.state.pending, _))

/-- The steps of `solve` and its threads outside of `branch`. The nodes that `branch` appends are those it
has created and not released. -/
inductive MemStep (S : Solver N) (path : N → List D) (sch : Scheduler) (c : Container) :
    MemState D sch.numThreads.toNat → MemState D sch.numThreads.toNat → Prop
  /-- A step that releases no node leaves the tree alone. -/
  | quiet {st : MemState D sch.numThreads.toNat} {node : ℕ → N} {state : State ℕ sch.numThreads.toNat}
      (hnode : Stands path st node) (h : Step (S.through node []) sch c st.state state)
      (hkeep : state.shared.released = st.state.shared.released) :
      MemStep S path sch c st { st with state }
  /-- A round of the first phase; the other threads do not exist yet. -/
  | first {st mid : MemState D sch.numThreads.toNat} {node : ℕ → N} {f : First ℕ} {a : ℕ} {rest new : List ℕ}
      {tree : MTRun (Option (Fin sch.numThreads.toNat)) D} (hnode : Stands path st node)
      (hm : st.state.main = .first f) (hi : st.state.shared.interrupted = false)
      (hsize : f.nodes.length < bound sch) (hp : c.Pop S node f.nodes a rest)
      (hcall : Reaches (BranchCall none a) st mid) (hperm : (mid.work none).Perm new)
      (hnew : List.Forall₂ (fun x n => mid.tree.mem.Reads x (path n)) new
        (S.branch (node a) f.record f.sol).nodes)
      (hr : mid.tree.release none a = some tree) :
      MemStep S path sch c st
        { state := round (S.through node new) st.state f a rest
          tree
          work := Function.update mid.work none [] }
  /-- The end of a call of `branch`. -/
  | branch {st : MemState D sch.numThreads.toNat} {node : ℕ → N} {i : Fin sch.numThreads.toNat} {a : ℕ}
      {new : List ℕ} {tree : MTRun (Option (Fin sch.numThreads.toNat)) D} (hnode : Stands path st node)
      (hpc : (st.state.threads i).pc = .branch a) (hperm : (st.work (some i)).Perm new)
      (hnew : List.Forall₂ (fun x n => st.tree.mem.Reads x (path n)) new
        (S.branch (node a) (st.state.threads i).record (st.state.threads i).sol).nodes)
      (hr : st.tree.release (some i) a = some tree) :
      MemStep S path sch c st
        { state := st.state.apply i ((st.state.threads i).branch (S.through node new) st.state.shared a)
          tree
          work := Function.update st.work (some i) [] }
  /-- `clean_nodes` in a thread that has been interrupted. -/
  | drop {st : MemState D sch.numThreads.toNat} {i : Fin sch.numThreads.toNat} {a : ℕ} {rest : List ℕ}
      {tree : MTRun (Option (Fin sch.numThreads.toNat)) D} (hpc : (st.state.threads i).pc = .loop)
      (hi : st.state.shared.interrupted = true) (hn : (st.state.threads i).nodes = a :: rest)
      (hr : st.tree.release (some i) a = some tree) :
      MemStep S path sch c st { st with
        state := { st.state with
          threads := Function.update st.state.threads i { st.state.threads i with nodes := rest }
          shared := { st.state.shared with released := st.state.shared.released + {a} } }
        tree }
  /-- `clean_nodes` in `solve`. -/
  | clean {st : MemState D sch.numThreads.toNat} {node : ℕ → N} {nodes rest : List ℕ} {a : ℕ}
      {tree : MTRun (Option (Fin sch.numThreads.toNat)) D} (hnode : Stands path st node)
      (hm : st.state.main = .clean nodes) (hp : c.Pop S node nodes a rest)
      (hr : st.tree.release none a = some tree) :
      MemStep S path sch c st { st with
        state := { st.state with
          main := .clean rest
          shared := { st.state.shared with released := st.state.shared.released + {a} } }
        tree }

/-- A step within a call of `branch` of a started thread. -/
inductive CallStep {T : ℕ} : MemState D T → MemState D T → Prop
  | call {st st' : MemState D T} {i : Fin T} {a : ℕ} (hpc : (st.state.threads i).pc = .branch a)
      (h : BranchCall (some i) a st st') : CallStep st st'

/-- What `notify_all`, spurious wake-ups and the signal do. -/
inductive Outside {T : ℕ} (R : State ℕ T → State ℕ T → Prop) : MemState D T → MemState D T → Prop
  | outside {st : MemState D T} {state : State ℕ T} (h : R st.state state) : Outside R st { st with state }

/-- A step of a run during which the signal may arrive. -/
def MemInterruptible (S : Solver N) (path : N → List D) (sch : Scheduler) (c : Container)
    (st st' : MemState D sch.numThreads.toNat) : Prop :=
  MemStep S path sch c st st' ∨ CallStep st st' ∨ Outside Wake st st' ∨ Outside Signal st st'

/-- The tree with the root, which `get_initial_node` has filled in. -/
def rooted (T : ℕ) (d : D) : MTRun (Option (Fin T)) D :=
  ((MTRun.start _ D).create none 0).write ((MTRun.start (Option (Fin T)) D).created none 0) d

/-- `solve` up to its first loop, on a fresh object. -/
def memStart (S : Solver N) (sch : Scheduler) (d : D) (record : ValueType) :
    MemState D sch.numThreads.toNat where
  state :=
    let root := (MTRun.start (Option (Fin sch.numThreads.toNat)) D).created none 0
    start { S.through (fun _ => S.initialNode) [] with initialNode := root } sch (construct sch) record
  tree := if S.rank > minRankValue then rooted _ d else MTRun.start _ D
  work _ := []

/-! ### The open nodes own their ancestors -/

section Tree

variable {T : ℕ} {st st' : MemState D T} {u : Option (Fin T)} {a b x : ℕ} {l : List D}

/-- The nodes that calls of `branch` have made so far. -/
def MemState.working (st : MemState D T) : Multiset ℕ := ∑ u, (st.work u : Multiset ℕ)

/-- Without the counts. -/
def MemState.books (st : MemState D T) : LedgerState D T := ⟨st.state, st.tree.ledger, st.work⟩

omit [SetData D] in
theorem MemState.working_update (st : MemState D T) (u : Option (Fin T)) : ∃ rest : Multiset ℕ,
    st.working = st.work u + rest ∧
      ∀ l : List ℕ, ∑ v, (Function.update st.work u l v : Multiset ℕ) = l + rest :=
  st.books.working_update u

omit [SetData D] in
theorem MemState.mem_working (hx : x ∈ st.work u) : x ∈ st.working := by
  have hbooks : x ∈ st.books.work u := hx
  exact LedgerState.mem_working hbooks

/-- The tree keeps the open nodes and those in the making. -/
structure TreeInv (st : MemState D T) : Prop where
  tree : st.tree.Inv
  held : st.tree.ledger.Held st.state.pending st.working

omit [SetData D] in
theorem TreeInv.mem_owned (h : TreeInv st) (hb : b ∈ st.state.pending ∨ b ∈ st.working) : b ∈ st.tree.owned :=
  h.held.mem_owned.mpr hb

theorem created_spec {r : MTRun (Option (Fin T)) D} (h : r.Inv) (hp : a = 0 ∨ a ∈ r.live) :
    r.created u a ∉ r.live ∧ r.created u a ≠ 0 ∧ (r.create u a).Inv := by
  obtain ⟨hnew, hinv⟩ := MTRun.create_spec (t := u) h hp
  exact ⟨hnew, hinv.ledger.ne_zero_of_mem (Finset.mem_insert_self _ _), hinv⟩

/-- An owned node can be given back, by any thread. -/
theorem TreeInv.release (h : TreeInv st) (hb : a ∈ st.state.pending ∨ a ∈ st.working) (u : Option (Fin T)) :
    ∃ tree, st.tree.release u a = some tree := by
  obtain ⟨tree, hr, _⟩ := MTRun.release_spec (t := u) h.tree (h.mem_owned hb)
  exact ⟨tree, hr⟩

theorem TreeInv.release_kept (h : TreeInv st) (ha : a ∈ st.state.pending)
    {tree : MTRun (Option (Fin T)) D} (hr : st.tree.release u a = some tree) :
    tree.Inv ∧ tree.ledger.Held (st.state.pending.erase a) st.working := by
  obtain ⟨tree', hr', _, hinv⟩ := MTRun.release_spec (t := u) h.tree (h.mem_owned (.inl ha))
  obtain rfl := Option.some.inj (hr.symm.trans hr')
  obtain ⟨live, hsub, hledger⟩ := MTRun.release_ledger hr
  refine ⟨hinv, ?_⟩
  have hnew := hinv.ledger
  rw [hledger] at hnew ⊢
  exact h.held.release_kept ha hsub hnew

/-- One step of a call keeps all open nodes and what they and their ancestors hold. -/
theorem BranchCall.treeInv (h : TreeInv st) (ha : a ∈ st.state.pending) (hcall : BranchCall u a st st') :
    TreeInv st' ∧ st'.state = st.state ∧ (∀ v, v ≠ u → st'.work v = st.work v) ∧
      ∀ b ∈ st.state.pending, ∀ l, st.tree.ledger.Path b l → st'.tree.ledger.Path b l := by
  obtain ⟨rest, hrest, hupdate⟩ := st.working_update u
  cases hcall with
  | create =>
    obtain ⟨hnew, hnew0, hinv⟩ := created_spec (u := u) h.tree (.inr (h.held.live (.inl ha)))
    refine ⟨⟨hinv, ?_⟩, rfl, fun v hv => Function.update_of_ne hv .., fun b hb l hl => ?_⟩
    · have hheld := h.held.create hnew hnew0 ha
      rw [hrest, ← Multiset.cons_add, Multiset.cons_coe, ← hupdate] at hheld
      exact hheld
    · exact h.held.path_create hnew (.inl hb) hl
  | write hx d =>
    have hx' := MemState.mem_working hx
    refine ⟨⟨MTRun.write_inv h.tree d, h.held.write _ d⟩, rfl, fun _ _ => rfl, fun b hb l hl => ?_⟩
    exact h.held.path_write (.inl hb) hx' (h.held.ne hb hx') d hl
  | @release x tree hx hr =>
    have hx' := MemState.mem_working hx
    obtain ⟨tree', hr', _, hinv⟩ := MTRun.release_spec (t := u) h.tree (h.mem_owned (.inr hx'))
    obtain rfl := Option.some.inj (hr.symm.trans hr')
    obtain ⟨live, hsub, hledger⟩ := MTRun.release_ledger hr
    refine ⟨⟨hinv, ?_⟩, rfl, fun v hv => Function.update_of_ne hv .., fun b _ l => MTRun.release_path hr⟩
    have hnew := hinv.ledger
    simp only [hledger] at hnew ⊢
    have hheld := h.held.release hx' hsub hnew
    rw [hrest, Multiset.erase_add_left_pos _ (Multiset.mem_coe.mpr hx), Multiset.coe_erase, ← hupdate] at hheld
    exact hheld

theorem BranchCall.reaches (h : TreeInv st) (ha : a ∈ st.state.pending) (hcall : Reaches (BranchCall u a) st st') :
    TreeInv st' ∧ st'.state = st.state ∧ (∀ v, v ≠ u → st'.work v = st.work v) ∧
      ∀ b ∈ st.state.pending, ∀ l, st.tree.ledger.Path b l → st'.tree.ledger.Path b l := by
  induction hcall with
  | refl => exact ⟨h, rfl, fun _ _ => rfl, fun _ _ _ => id⟩
  | tail _ hstep ih =>
    obtain ⟨hinv, hstate, hwork, hpath⟩ := ih
    obtain ⟨hinv', hstate', hwork', hpath'⟩ := hstep.treeInv hinv (hstate ▸ ha)
    refine ⟨hinv', hstate'.trans hstate, fun v hv => (hwork' v hv).trans (hwork v hv), fun b hb l hl => ?_⟩
    exact hpath' b (hstate ▸ hb) l (hpath b hb l hl)

end Tree

/-! ### What the steps outside of `branch` do to the open nodes -/

end Parallel

namespace Thread

variable {S : Solver N} {sch : Scheduler} {t : Thread N} {sh : Shared N} {o : Outcome N}

theorem wait_created : (t.wait sch sh).shared.created = sh.created := by
  unfold wait take
  split
  · dsimp only
    split <;> rfl
  · rfl

/-- A step that releases no node is not the end of a call of `branch`, and creates none. -/
theorem step_created (h : t.step S sch sh = some o) (hr : o.shared.released = sh.released) :
    o.shared.created = sh.created ∧ ∀ a, t.pc ≠ .branch a := by
  cases hpc : t.pc with
  | idle | blocked | exited => simp [step, hpc] at h
  | branch n =>
    simp only [step, hpc, Option.some.injEq] at h
    subst h
    refine absurd hr ?_
    simp [branch]
  | loop =>
    simp only [step, hpc] at h
    split at h <;> obtain rfl := Option.some.inj h <;> simp [leave]
  | enter =>
    simp only [step, hpc, Option.some.injEq] at h
    subst h
    refine ⟨?_, by simp⟩
    cases sch with
    | giving p => exact wait_created
    | requesting p => rfl
  | lock =>
    simp only [step, hpc, Option.some.injEq] at h
    subst h
    exact ⟨wait_created, by simp⟩
  | _ =>
    simp only [step, hpc, Option.some.injEq] at h
    subst h
    simp [begin, publish, send]

end Thread

namespace Parallel

section Open

variable {S : Solver N} {sch : Scheduler} {c : Container} {st st' : State N sch.numThreads.toNat}

theorem Inv.pending_eq (h : Inv sch st) (h' : Inv sch st') (new gone : Multiset N)
    (hc : st'.shared.created = st.shared.created + new) (hr : st'.shared.released = st.shared.released + gone) :
    st.pending + new = st'.pending + gone := by
  have hbal := h'.balance
  rw [hc, hr, h.balance, add_assoc, add_assoc] at hbal
  rw [add_left_cancel hbal, add_comm]

theorem Step.quiet (h : Inv sch st) (hstep : Step S sch c st st')
    (hr : st'.shared.released = st.shared.released) : st'.shared.created = st.shared.created ∧
      ∀ i a, (st.threads i).pc = .branch a → (st'.threads i).pc = .branch a := by
  have hmain := h.main
  cases hstep with
  | branch => simp at hr
  | clean => simp at hr
  | @hand nodes rest k n i hm =>
    refine ⟨rfl, fun j a hj => ?_⟩
    by_cases hji : j = i
    · subst hji
      simpa using hj
    · simpa [hji] using hj
  | @spawn i hm =>
    simp only [MainOk, hm] at hmain
    refine ⟨rfl, fun j a hj => ?_⟩
    by_cases hji : j = i
    · subst hji
      exact absurd hj (by simp [(hmain.2 j).mpr le_rfl])
    · simpa [hji] using hj
  | @thread i o hstep =>
    obtain ⟨hc, hpc⟩ := Thread.step_created hstep hr
    refine ⟨hc, fun j a hj => ?_⟩
    refine State.apply_of (P := fun t => t.pc = .branch a) (fun t ht => ?_) j (fun hji => ?_) fun _ => hj
    · simp [Thread.notified, ht]
    · exact absurd (hji ▸ hj) (hpc a)
  | _ => exact ⟨rfl, fun _ _ => id⟩

/-- A thread that has been interrupted gives up a node. -/
theorem Inv.drop (h : Inv sch st) {i : Fin sch.numThreads.toNat} {a : N} {rest : List N}
    (hpc : (st.threads i).pc = .loop) (hn : (st.threads i).nodes = a :: rest) :
    Inv sch { st with
      threads := Function.update st.threads i { st.threads i with nodes := rest }
      shared := { st.shared with released := st.shared.released + {a} } } := by
  have hsame {P : Thread N → Prop} (hP : P (st.threads i) → P { st.threads i with nodes := rest })
      (j : Fin sch.numThreads.toNat) (hj : P (st.threads j)) :
      P (Function.update st.threads i { st.threads i with nodes := rest } j) := by
    by_cases hji : j = i
    · subst hji
      rw [Function.update_self]
      exact hP hj
    · rwa [Function.update_of_ne hji]
  have hback {P : Thread N → Prop} (hP : P { st.threads i with nodes := rest } → P (st.threads i))
      (j : Fin sch.numThreads.toNat)
      (hj : P (Function.update st.threads i { st.threads i with nodes := rest } j)) : P (st.threads j) := by
    by_cases hji : j = i
    · subst hji
      rw [Function.update_self] at hj
      exact hP hj
    · rwa [Function.update_of_ne hji] at hj
  have hok := h.ok i
  simp only [Thread.Ok, hpc, hn] at hok
  refine ⟨?_, fun j => hsame (fun _ => ?_) j (h.ok j), fun j => hsame id j (h.statsOk j), ?_, fun j hj => ?_,
    fun j hj => ?_, ?_, ?_⟩
  · have hmain := h.main
    cases hm : st.main with
    | first f | decide nodes =>
      simp only [MainOk, hm] at hmain
      exact absurd (hmain.1 i).1 (by simp [hpc])
    | hand nodes k =>
      simp only [MainOk, hm] at hmain
      exact absurd (hmain i) (by simp [hpc])
    | spawn k =>
      simp only [MainOk, hm] at hmain ⊢
      exact ⟨hmain.1, fun j => hsame (P := fun t => t.pc = .idle ↔ k ≤ j.val) id j (hmain.2 j)⟩
    | join =>
      simp only [MainOk, hm] at hmain ⊢
      exact fun j => hsame (P := fun t => t.pc ≠ .idle) id j (hmain j)
    | clean nodes =>
      simp only [MainOk, hm] at hmain
      rcases hmain with hun | ⟨_, hall⟩
      · exact absurd (hun.1 i).1 (by simp [hpc])
      · exact absurd (hall i) (by simp [hpc])
    | returned sol =>
      simp only [MainOk, hm] at hmain
      rcases hmain with hun | hall
      · exact absurd (hun.1 i).1 (by simp [hpc])
      · exact absurd (hall i) (by simp [hpc])
  · simp only [Thread.Ok, hpc]
    exact ⟨hok.1, fun hc => absurd (hok.2 hc) (List.cons_ne_nil a rest)⟩
  · have hsum := State.sum_update st.threads i { st.threads i with nodes := rest } fun t =>
      if t.counted = true then 1 else 0
    exact h.counter.trans (congrArg _ (Nat.add_right_cancel hsum).symm)
  · exact h.done j (hback (P := Thread.Done) id j hj)
  · obtain ⟨hq, hlock⟩ := h.blocked j (hback (P := fun t => t.pc = .blocked) id j hj)
    refine ⟨hq, fun hf => ?_⟩
    obtain ⟨k, hk⟩ := hlock hf
    exact ⟨k, hsame (P := fun t => t.pc = .lock) id k hk⟩
  · have hsum := State.sum_update st.threads i { st.threads i with nodes := rest } Thread.pending
    have hpend : (st.threads i).pending = {a} + Thread.pending { st.threads i with nodes := rest } := by
      simp only [Thread.pending, hpc, hn, ← Multiset.cons_coe, ← Multiset.singleton_add]
      ac_rfl
    rw [hpend] at hsum
    have hbal := h.balance
    simp only [State.pending, State.sum] at hbal hsum ⊢
    rw [hbal]
    refine add_right_cancel (b := Thread.pending { st.threads i with nodes := rest }) ?_
    calc _ = st.shared.released + st.main.nodes + st.shared.queueSets +
          (∑ j, (st.threads j).pending + Thread.pending { st.threads i with nodes := rest }) := by ac_rfl
      _ = _ := by rw [← hsum]; ac_rfl
  · have h1 := State.sum_update st.threads i { st.threads i with nodes := rest } Thread.setsSent
    have h2 := State.sum_update st.threads i { st.threads i with nodes := rest } Thread.setsReceived
    have hold := h.stats
    simp only [State.sum, Thread.setsSent, Thread.setsReceived] at *
    omega

end Open

/-! ### The invariant of every run -/

variable {S : Solver N} {path : N → List D} {sch : Scheduler} {c : Container}
  {st st' : MemState D sch.numThreads.toNat} {a : ℕ}

theorem pop_through {node : ℕ → N} {new l rest : List ℕ} :
    c.Pop (S.through node new) id l a rest ↔ c.Pop S node l a rest := by
  cases c <;> rfl

/-- What every point of a run keeps, interrupted or not: only calls of `branch` under way have nodes that
are in no container. -/
structure MemInv (sch : Scheduler) (st : MemState D sch.numThreads.toNat) : Prop extends TreeInv st where
  inv : Inv sch st.state
  idle : ∀ i, (∀ a, (st.state.threads i).pc ≠ .branch a) → st.work (some i) = []
  main : st.work none = []

/-- Nothing that an open node or an ancestor of it holds has changed. -/
def Keeps {T : ℕ} (st st' : MemState D T) : Prop :=
  ∀ b ∈ st.state.pending, ∀ l, st.tree.ledger.Path b l → st'.tree.ledger.Path b l

variable [SetData D]

namespace MemInv

omit [SetData D] in
theorem books (h : MemInv sch st) : LedgerInv sch st.books := ⟨h.held, h.inv, h.idle, h.main⟩

omit [SetData D] in
theorem of_books (htree : st.tree.Inv) (h : LedgerInv sch st.books) : MemInv sch st :=
  ⟨⟨htree, h.held⟩, h.inv, h.idle, h.main⟩

omit [SetData D] in
/-- The steps that leave the tree alone. -/
theorem of_state (h : MemInv sch st) {state : State ℕ sch.numThreads.toNat} (hinv : Inv sch state)
    (hpend : state.pending = st.state.pending)
    (hpc : ∀ i a, (st.state.threads i).pc = .branch a → (state.threads i).pc = .branch a) :
    MemInv sch { st with state } :=
  of_books h.tree (h.books.of_state hinv hpend hpc)

/-- A node is given back outside of `branch`. -/
theorem of_release (h : MemInv sch st) {state : State ℕ sch.numThreads.toNat} (hinv : Inv sch state)
    (hpend : st.state.pending = state.pending + {a}) (hpc : ∀ i, (state.threads i).pc = (st.state.threads i).pc)
    {u : Option (Fin sch.numThreads.toNat)} {tree : MTRun (Option (Fin sch.numThreads.toNat)) D}
    (hr : st.tree.release u a = some tree) : MemInv sch { st with state, tree } := by
  obtain ⟨htree, hheld⟩ := h.release_kept (by rw [hpend]; simp) hr
  exact of_books htree (h.books.of_release hinv hpend hpc hheld)

/-- A call of `branch` ends: its nodes are put into containers, and the node it was about is given back. -/
theorem of_branch (h : MemInv sch st) {mid : MemState D sch.numThreads.toNat} (hmid : TreeInv mid)
    (hstate : mid.state = st.state) {u : Option (Fin sch.numThreads.toNat)}
    (hwork : ∀ v, v ≠ u → mid.work v = st.work v) (ha : a ∈ st.state.pending)
    {state : State ℕ sch.numThreads.toNat} {new : List ℕ} (hinv : Inv sch state)
    (hperm : (mid.work u).Perm new) (hpend : st.state.pending + new = state.pending + {a})
    (hpc : ∀ i, u ≠ some i → (state.threads i).pc = (st.state.threads i).pc)
    {tree : MTRun (Option (Fin sch.numThreads.toNat)) D} (hr : mid.tree.release u a = some tree) :
    MemInv sch { state, tree, work := Function.update mid.work u [] } := by
  obtain ⟨htree, hheld⟩ := hmid.release_kept (hstate ▸ ha) hr
  exact of_books htree (h.books.of_branch mid.books hstate hwork ha hinv hperm hpend hpc hheld)

end MemInv

theorem MemStep.memInv (hmin : 0 < sch.numMinimumNodes.toNat) (h : MemInv sch st)
    (hstep : MemStep S path sch c st st') : MemInv sch st' ∧ Keeps st st' := by
  cases hstep with
  | quiet _ hstep hkeep =>
    have hinv := hstep.inv hmin h.inv
    obtain ⟨hc, hpc⟩ := hstep.quiet h.inv hkeep
    have hpend := h.inv.pending_eq hinv 0 0 (by simpa using hc) (by simpa using hkeep)
    rw [add_zero, add_zero] at hpend
    exact ⟨h.of_state hinv hpend.symm hpc, fun _ _ _ => id⟩
  | @first mid node f a rest new tree _ hm hi hsize hp hcall hperm _ hr =>
    have ha : a ∈ st.state.pending := by
      have hmem : a ∈ f.nodes := hp.perm.mem_iff.mpr List.mem_cons_self
      simp [State.pending, hm, Main.nodes, hmem]
    obtain ⟨hmid, hstate, hwork, hpath⟩ := BranchCall.reaches h.toTreeInv ha hcall
    have hinv : Inv sch (round (S.through node new) st.state f a rest) :=
      Step.inv hmin h.inv (.branch hm hi hsize (pop_through.mpr hp))
    have hpend := h.inv.pending_eq hinv new {a}
      (by simp [round, Solver.through]) (by simp [round, Solver.through])
    exact ⟨h.of_branch hmid hstate hwork ha hinv hperm hpend (fun _ _ => rfl) hr,
      fun b hb l hl => MTRun.release_path hr (hpath b hb l hl)⟩
  | @branch node i a new tree _ hpc hperm _ hr =>
    have ha : a ∈ st.state.pending :=
      Multiset.mem_of_le (st.state.thread_pending_le i) (Thread.mem_pending hpc)
    have hstep : (st.state.threads i).step (S.through node new) sch st.state.shared =
        some ((st.state.threads i).branch (S.through node new) st.state.shared a) := by
      simp only [Thread.step, hpc]
    have hinv := Step.inv (c := c) hmin h.inv (.thread hstep)
    have hpend := h.inv.pending_eq hinv new {a}
      (by simp [State.apply, Thread.branch, Solver.through]) (by simp [State.apply, Thread.branch, Solver.through])
    refine ⟨h.of_branch h.toTreeInv rfl (fun _ _ => rfl) ha hinv hperm hpend (fun j hj => ?_) hr,
      fun b _ l => MTRun.release_path hr⟩
    rw [State.apply_of_ne (fun hji => hj (congrArg some hji.symm)) rfl]
  | @drop i a rest tree hpc hi hn hr =>
    have hinv := h.inv.drop hpc hn
    have hpend := h.inv.pending_eq hinv 0 {a} (by simp) rfl
    rw [add_zero] at hpend
    refine ⟨h.of_release hinv hpend (fun j => ?_) hr, fun b _ l => MTRun.release_path hr⟩
    by_cases hji : j = i
    · subst hji
      simp
    · simp [hji]
  | @clean node nodes rest a tree _ hm hp hr =>
    have hpop : c.Pop (S.through node []) id nodes a rest := pop_through.mpr hp
    have hinv := Step.inv hmin h.inv (.clean hm hpop)
    have hpend := h.inv.pending_eq hinv 0 {a} (by simp) rfl
    rw [add_zero] at hpend
    exact ⟨h.of_release hinv hpend (fun _ => rfl) hr, fun b _ l => MTRun.release_path hr⟩

theorem CallStep.memInv (h : MemInv sch st) (hstep : CallStep st st') :
    MemInv sch st' ∧ st'.state = st.state ∧ Keeps st st' := by
  obtain ⟨hpc, hcall⟩ := hstep
  rename_i i a
  have ha : a ∈ st.state.pending :=
    Multiset.mem_of_le (st.state.thread_pending_le i) (Thread.mem_pending hpc)
  obtain ⟨htree, hstate, hwork, hpath⟩ := hcall.treeInv h.toTreeInv ha
  refine ⟨⟨htree, hstate ▸ h.inv, fun j hj => ?_, (hwork none (by simp)).trans h.main⟩, hstate, hpath⟩
  rw [hstate] at hj
  by_cases hji : j = i
  · exact absurd hpc (hji ▸ hj a)
  · exact (hwork (some j) (by simpa using hji)).trans (h.idle j hj)

omit [SetData D] in
theorem wake_memInv (h : MemInv sch st) (hstep : Outside Wake st st') : MemInv sch st' ∧ Keeps st st' := by
  obtain ⟨hwake⟩ := hstep
  have hinv := hwake.inv h.inv
  obtain ⟨i⟩ := hwake
  refine ⟨h.of_state hinv (State.pending_update (by simp)) fun j b hj => ?_, fun _ _ _ => id⟩
  by_cases hji : j = i
  · subst hji
    simp [Thread.notified, hj]
  · simpa [hji] using hj

omit [SetData D] in
theorem signal_memInv (h : MemInv sch st) (hstep : Outside Signal st st') : MemInv sch st' ∧ Keeps st st' := by
  obtain ⟨hsignal⟩ := hstep
  have hinv := hsignal.inv h.inv
  obtain ⟨⟩ := hsignal
  exact ⟨h.of_state hinv rfl fun _ _ => id, fun _ _ _ => id⟩

theorem MemInterruptible.memInv (hmin : 0 < sch.numMinimumNodes.toNat) (h : MemInv sch st)
    (hstep : MemInterruptible S path sch c st st') : MemInv sch st' ∧ Keeps st st' := by
  rcases hstep with hstep | hcall | hwake | hsignal
  · exact hstep.memInv hmin h
  · obtain ⟨hinv, _, hkeeps⟩ := hcall.memInv h
    exact ⟨hinv, hkeeps⟩
  · exact wake_memInv h hwake
  · exact signal_memInv h hsignal

theorem rooted_spec (T : ℕ) (d : D) : (rooted T d).Inv ∧
    (rooted T d).ledger.Held {(MTRun.start (Option (Fin T)) D).created none 0} 0 ∧
    (rooted T d).ledger.Path ((MTRun.start (Option (Fin T)) D).created none 0) [d] := by
  have hstart : (MTRun.start (Option (Fin T)) D).Inv := MTRun.start_inv
  obtain ⟨hnew, hnew0, hroot⟩ := created_spec (u := none) hstart (.inl rfl)
  have hself : ((MTRun.start (Option (Fin T)) D).create none 0).ledger.Path
      ((MTRun.start (Option (Fin T)) D).created none 0) [default] :=
    Ledger.Path.create_self (l := []) rfl hstart.ledger hnew hnew0 (.inl rfl)
  have hinv : (rooted T d).Inv := MTRun.write_inv hroot d
  refine ⟨hinv, ⟨hinv.ledger, rfl, by simp⟩, ?_⟩
  exact hself.write_self hroot.ledger (Finset.mem_insert_self _ _)
    (.create_self hstart.ledger hnew hnew0 hnew0.symm) d

omit [SetData D] in
theorem start_pending (S : Solver N) (sch : Scheduler) (record : ValueType) :
    (start S sch (construct sch) record).pending = if S.rank > minRankValue then {S.initialNode} else 0 := by
  unfold start
  split <;> simp [State.pending, State.sum, Thread.pending, Main.nodes, firstStart, construct]

theorem memStart_pending (S : Solver N) (sch : Scheduler) (d : D) (record : ValueType) :
    (memStart S sch d record).state.pending =
      if S.rank > minRankValue then {(MTRun.start (Option (Fin sch.numThreads.toNat)) D).created none 0} else 0 :=
  start_pending ..

theorem memStart_inv (S : Solver N) (sch : Scheduler) (d : D) (record : ValueType) :
    MemInv sch (memStart S sch d record) := by
  have hwork : (memStart S sch d record).working = 0 := by simp [MemState.working, memStart]
  refine ⟨⟨?_, ?_⟩, .start _ rfl rfl rfl record, fun _ _ => rfl, rfl⟩
  · simp only [memStart]
    split
    exacts [(rooted_spec _ d).1, MTRun.start_inv]
  · rw [hwork, memStart_pending]
    by_cases hrank : S.rank > minRankValue
    · simp only [memStart, if_pos hrank]
      exact (rooted_spec _ d).2.1
    · have hinv : (MTRun.start (Option (Fin sch.numThreads.toNat)) D).Inv := MTRun.start_inv
      simp only [memStart, if_neg hrank]
      exact ⟨hinv.ledger, rfl, by simp⟩

/-! ### Memory safety -/

/-- What holds of the tree at every point of a run, between any two steps of any threads. -/
structure MemSafe {T : ℕ} (st : MemState D T) : Prop where
  /-- The nodes in use are the open nodes, those in the making and the ancestors of these. -/
  live_iff : ∀ a, a ∈ st.tree.live ↔
    ∃ b ∈ st.state.pending + st.working, ∃ l, Linked st.tree.mem.parent b l ∧ a ∈ l
  numNodes : st.tree.tree.numUnfreedNodes = st.tree.live.card
  /-- Any thread can give back any open node. -/
  release : ∀ a ∈ st.state.pending, ∀ u, (st.tree.release u a).isSome
  /-- After the return the nodes left are those in the queue of the scheduler. -/
  returned : ∀ sol, st.state.main = .returned sol →
    (st.tree.tree.numUnfreedNodes = 0 ↔ st.state.shared.queueSets = [])

omit [SetData D] in
theorem TreeInv.live_iff {T : ℕ} {st : MemState D T} (h : TreeInv st) : a ∈ st.tree.live ↔
    ∃ b ∈ st.state.pending + st.working, ∃ l, Linked st.tree.mem.parent b l ∧ a ∈ l := by
  obtain ⟨_, _, F, _⟩ := h.tree
  constructor
  · intro ha
    obtain ⟨b, hb, hl⟩ := F.exists_owner ha
    exact ⟨b, Multiset.mem_add.mpr (h.held.mem_owned.mp hb), hl⟩
  · rintro ⟨b, hb, l, hl, ha⟩
    obtain ⟨l', hl', hall⟩ := F.exists_linked (h.held.live (Multiset.mem_add.mp hb))
    exact hall a (hl'.unique hl ▸ ha)

theorem MemInv.safe (h : MemInv sch st) : MemSafe st := by
  obtain ⟨_, _, _, B⟩ := h.tree
  refine ⟨fun a => h.live_iff, B.numNodes, fun a ha u => ?_, fun sol hm => ?_⟩
  · obtain ⟨tree, hr⟩ := h.release (.inl ha) u
    exact hr ▸ rfl
  · obtain ⟨_, hqueue, hwork⟩ := h.books.returned hm
    change st.state.pending = (st.state.shared.queueSets : Multiset ℕ) at hqueue
    change st.working = 0 at hwork
    rw [B.numNodes, Nat.cast_eq_zero, Finset.card_eq_zero]
    constructor
    · intro hnone
      refine List.eq_nil_iff_forall_not_mem.mpr fun b hb => ?_
      have hlive := h.held.live (.inl (hqueue ▸ Multiset.mem_coe.mpr hb))
      exact absurd (hnone ▸ hlive) (Finset.notMem_empty b)
    · intro hnil
      refine Finset.eq_empty_of_forall_notMem fun a ha => ?_
      obtain ⟨b, hb, _⟩ := h.live_iff.mp ha
      rw [hqueue, hwork, hnil] at hb
      exact absurd hb (by simp)

theorem reaches_memInv (hmin : 0 < sch.numMinimumNodes.toNat) {d : D} {record : ValueType}
    (hr : Reaches (MemInterruptible S path sch c) (memStart S sch d record) st) : MemInv sch st := by
  induction hr with
  | refl => exact memStart_inv S sch d record
  | tail _ hstep ih => exact (hstep.memInv hmin ih).1

/-- Any solver and scheduler, any interleaving, interrupted or not: what is reachable from an open node is
in use, and no step of any thread changes what an open node or an ancestor of it holds. -/
theorem parallel_memory_safe (S : Solver N) (path : N → List D) (sch : Scheduler) (c : Container) (d : D)
    (record : ValueType) (hmin : 1 ≤ sch.numMinimumNodes.toNat) {st : MemState D sch.numThreads.toNat}
    (hr : Reaches (MemInterruptible S path sch c) (memStart S sch d record) st) :
    MemSafe st ∧ ∀ st', MemInterruptible S path sch c st st' →
      ∀ b ∈ st.state.pending, b ∈ st'.state.pending → ∀ l, st.tree.mem.Reads b l → st'.tree.mem.Reads b l := by
  have hinv := reaches_memInv hmin hr
  refine ⟨hinv.safe, fun st' hstep b hb hb' l hl => ?_⟩
  obtain ⟨hinv', hkeeps⟩ := hstep.memInv hmin hinv
  rw [hinv.tree.reads_iff (hinv.held.live (.inl hb))] at hl
  exact (hinv'.tree.reads_iff (hinv'.held.live (.inl hb'))).mpr (hkeeps b hb l hl)

/-! ### Two threads -/

/-- A step that releases no node. -/
def QuietStep (S : Solver N) (sch : Scheduler) (c : Container) (st st' : State N sch.numThreads.toNat) : Prop :=
  Step S sch c st st' ∧ st'.shared.released = st.shared.released

theorem quiet_pending {S : Solver N} {st st' : State N sch.numThreads.toNat} (hmin : 0 < sch.numMinimumNodes.toNat)
    (hinv : Inv sch st) (hr : Reaches (QuietStep S sch c) st st') : Inv sch st' ∧ st'.pending = st.pending := by
  induction hr with
  | refl => exact ⟨hinv, rfl⟩
  | tail _ hstep ih =>
    obtain ⟨hs, hpend⟩ := ih
    obtain ⟨hstep, hkeep⟩ := hstep
    have hs' := hstep.inv hmin hs
    obtain ⟨hcreated, _⟩ := hstep.quiet hs hkeep
    have hpend' := hs.pending_eq hs' 0 0 (by rw [hcreated, add_zero]) (by rw [hkeep, add_zero])
    rw [add_zero, add_zero] at hpend'
    exact ⟨hs', hpend'.symm.trans hpend⟩

theorem reaches_quietTick (S : Solver N) (c : Container) (is : List (Fin sch.numThreads.toNat))
    (st : State N sch.numThreads.toNat)
    (h : ∀ js ∈ is.inits, (js.foldl (fun st i => tick S sch i st) st).shared.released = st.shared.released) :
    Reaches (QuietStep S sch c) st (is.foldl (fun st i => tick S sch i st) st) := by
  induction is generalizing st with
  | nil => exact .refl
  | cons i is ih =>
    have hstays : ∀ js ∈ is.inits,
        (js.foldl (fun st i => tick S sch i st) (tick S sch i st)).shared.released = st.shared.released := by
      intro js hjs
      refine h (i :: js) ?_
      rw [List.inits_cons]
      exact List.mem_cons_of_mem _ (List.mem_map_of_mem hjs)
    have hfirst := hstays [] (List.mem_inits _ _ |>.mpr List.nil_prefix)
    have hrest := ih (tick S sch i st) fun js hjs => (hstays js hjs).trans hfirst.symm
    rw [List.foldl_cons]
    cases hstep : (st.threads i).step S sch st.shared with
    | none =>
      have htick : tick S sch i st = st := by simp [tick, hstep]
      rwa [htick] at hrest ⊢
    | some o => exact .head ⟨step_tick c hstep, hfirst⟩ hrest

/-- Steps that release no node, while the tree stays. -/
theorem reaches_quiet (node : ℕ → N) (hmin : 0 < sch.numMinimumNodes.toNat) (hinv : Inv sch st.state)
    (hnode : Stands path st node) {state : State ℕ sch.numThreads.toNat}
    (hr : Reaches (QuietStep (S.through node []) sch c) st.state state) :
    Reaches (MemInterruptible S path sch c) st { st with state } := by
  induction hr with
  | refl => exact .refl
  | tail hr hstep ih =>
    obtain ⟨_, hpend⟩ := quiet_pending hmin hinv hr
    obtain ⟨hstep, hkeep⟩ := hstep
    exact ih.tail (.inl (.quiet (fun a ha => hnode a (hpend ▸ ha)) hstep hkeep))

/-- `branch` makes a node and fills it in. -/
theorem BranchCall.make {T : ℕ} {st : MemState D T} {u : Option (Fin T)} {x : ℕ} (hx : st.tree.created u a = x)
    (d : D) :
    Reaches (BranchCall u a) st { st with
      tree := (st.tree.create u a).write x d
      work := Function.update st.work u (x :: st.work u) } := by
  subst hx
  refine (Relation.ReflTransGen.single .create).tail (.write ?_ d)
  change _ ∈ Function.update st.work u _ u
  rw [Function.update_self]
  exact List.mem_cons_self

/-- What the addresses of the search tree with two leaves stand for. -/
def pairNode (a : ℕ) : Option Bool := if a = 1 then none else some (a == 3)

theorem quiet_pairStarted (S : Solver N) (f : First N) (sh : Shared N) {x y : N} (hf : f.nodes = [x, y])
    (hi : sh.interrupted = false) :
    Reaches (QuietStep S pairScheduler .lifo) { main := .first f, threads := fun _ => {}, shared := sh }
      (pairStarted f.record x y sh) :=
  Relation.ReflTransGen.mono (fun _ _ hstep => ⟨hstep.1, hstep.2.1⟩) _ _ (reaches_pairStarted S f sh hf hi)

/-- The first phase on the search tree with two leaves, after `get_initial_node`. -/
def pairFirst : First ℕ := firstStart { pairSolver.through (fun _ => none) [] with initialNode := 1 } mVal

def pairRoot : MemState ℕ pairScheduler.numThreads.toNat where
  state :=
    { main := .first pairFirst
      threads := fun _ => {}
      shared := { construct pairScheduler with created := {1} } }
  tree := rooted _ 0
  work _ := []

theorem memStart_pair : memStart pairSolver pairScheduler 0 mVal = pairRoot := by
  have hcreated : (MTRun.start (Option (Fin pairScheduler.numThreads.toNat)) ℕ).created none 0 = 1 := by
    decide +kernel
  rw [memStart, hcreated, start, if_pos (by decide), if_pos (by decide)]
  rfl

/-- The first phase has branched on the root, with the addresses `3` and `2` for the leaves. -/
def pairRound : State ℕ pairScheduler.numThreads.toNat :=
  round (pairSolver.through pairNode [2, 3]) pairRoot.state pairFirst 1 []

/-- Both threads have begun `branch` on their leaves. -/
def pairBegun : State ℕ pairScheduler.numThreads.toNat :=
  [⟨0, by decide⟩, ⟨0, by decide⟩, ⟨0, by decide⟩, ⟨1, by decide⟩, ⟨1, by decide⟩, ⟨1, by decide⟩].foldl
    (fun st i => tick (pairSolver.through pairNode []) pairScheduler i st) (pairStarted 7 3 2 pairRound.shared)

theorem quiet_pairBegun :
    Reaches (QuietStep (pairSolver.through pairNode []) pairScheduler .lifo) pairRound pairBegun := by
  have hstarted := quiet_pairStarted (pairSolver.through pairNode [])
    (First.body (pairSolver.through pairNode [2, 3]) pairFirst 1 []) pairRound.shared (x := 3) (y := 2) rfl rfl
  exact hstarted.trans (reaches_quietTick _ _ _ _ (by decide +kernel))

/-- Thread `0` is in a call of `branch` and has made a node, while thread `1` has given its leaf back. -/
theorem parallel_memory_safe_pair : ∃ st, Reaches (MemInterruptible pairSolver pairPath pairScheduler .lifo)
      (memStart pairSolver pairScheduler 0 mVal) st ∧
    (∃ i, st.work (some i) = [1025]) ∧ (∃ i, (st.state.threads i).pc = .check) ∧
    MemSafe st ∧ ∀ st', MemInterruptible pairSolver pairPath pairScheduler .lifo st st' →
      ∀ b ∈ st.state.pending, b ∈ st'.state.pending → ∀ l, st.tree.mem.Reads b l → st'.tree.mem.Reads b l := by
  let first : Fin pairScheduler.numThreads.toNat := ⟨0, by decide⟩
  let second : Fin pairScheduler.numThreads.toNat := ⟨1, by decide⟩
  -- the first phase branches on the root
  have hcall : Reaches (BranchCall none 1) pairRoot _ :=
    (BranchCall.make (x := 2) (by decide +kernel) 1).trans (BranchCall.make (x := 3) (by decide +kernel) 2)
  have hnode : Stands pairPath pairRoot pairNode := by decide +kernel
  have hpop : Container.lifo.Pop pairSolver pairNode [1] 1 [] := rfl
  have hnew : List.Perm [3, 2] [2, 3] := by decide
  have hfirst := MemStep.first hnode rfl rfl (by decide +kernel) hpop hcall hnew (by decide +kernel)
    (Option.some_get (by decide +kernel)).symm
  have hstart : Reaches (MemInterruptible pairSolver pairPath pairScheduler .lifo)
      (memStart pairSolver pairScheduler 0 mVal) pairRoot := memStart_pair ▸ .refl
  have hleaves := hstart.tail (.inl hfirst)
  -- both threads are started and begin their leaves
  have hcalls := hleaves.trans (reaches_quiet pairNode (by decide) (reaches_memInv (by decide) hleaves).inv
    (by decide +kernel) quiet_pairBegun)
  -- thread `0` makes a node, and thread `1` ends its call
  have hmade := (hcalls.tail (.inr (.inl (.call (i := first) (a := 3) rfl .create)))).tail
    (.inr (.inl (.call (i := first) (a := 3) rfl (.write (x := 1025) (by decide +kernel) 5))))
  have hr := hmade.tail (.inl (.branch (i := second) (a := 2)
    (show Stands pairPath _ pairNode by decide +kernel) rfl (.refl _) .nil
    (Option.some_get (by decide +kernel)).symm))
  exact ⟨_, hr, ⟨first, by decide +kernel⟩, ⟨second, by decide +kernel⟩,
    parallel_memory_safe pairSolver pairPath pairScheduler .lifo 0 mVal (by decide) hr⟩

end Parallel

end Optimer
