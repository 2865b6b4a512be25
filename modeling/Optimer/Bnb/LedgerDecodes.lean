import Optimer.Bnb.Renaming

/-! What a step of `solve` that is not interrupted does to its ledger is what the step on the nodes does, whichever
way the trees keep their counts. -/

namespace Optimer

variable {D N : Type*}

namespace Parallel

/-- What the open addresses stand for: `path` is the data of a node and its ancestors. -/
def LedgerState.Stands {T : ℕ} (path : N → List D) (st : LedgerState D T) (node : ℕ → N) : Prop :=
  ∀ a ∈ st.state.pending, st.ledger.Path a (path (node a))

/-- The state on addresses and the state on nodes are at the same point. -/
structure LedgerDecodes (path : N → List D) (sch : Scheduler) (st : LedgerState D sch.numThreads.toNat)
    (s : State N sch.numThreads.toNat) : Prop where
  inv : LedgerInv sch st
  eq_map : ∃ node created released, st.Stands path node ∧ s = st.state.map node created released

variable {S : Solver N} {path : N → List D} {sch : Scheduler} {c : Container}
  {st st' mid : LedgerState D sch.numThreads.toNat} {s s' : State N sch.numThreads.toNat} {node : ℕ → N}
  {ledger : Ledger D} {a : ℕ} {rest new : List ℕ} {u : Option (Fin sch.numThreads.toNat)}

namespace LedgerState.Stands

/-- What an open address stands for is determined, also after further steps. -/
theorem eq (hinj : Function.Injective path) (hnode : st.Stands path node) (ha : a ∈ st.state.pending) {n : N}
    (hl : st.ledger.Path a (path n)) : node a = n :=
  hinj ((hnode a ha).unique hl)

/-- The open nodes stand for the same after a step that keeps them. -/
theorem keeps (hnode : st.Stands path node) (hkeeps : st.Keeps st')
    (hsub : ∀ b ∈ st'.state.pending, b ∈ st.state.pending) : st'.Stands path node :=
  fun b hb => hkeeps b (hsub b hb) _ (hnode b (hsub b hb))

/-- At the end of a call of `branch` the new nodes stand for those that `branch` has to return. -/
theorem branched (st' : LedgerState D sch.numThreads.toNat) (hinj : Function.Injective path)
    (hnode : st.Stands path node) (hmid : mid.Held) (hstate : mid.state = st.state)
    (hkeeps : st.Keeps mid) (hperm : (mid.work u).Perm new) {nodes : List N}
    (hnew : List.Forall₂ (fun x n => mid.ledger.Path x (path n)) new nodes)
    (hpend : st.state.pending + new = st'.state.pending + {a})
    (hgiven : ∀ b l, mid.ledger.Path b l → st'.ledger.Path b l) :
    ∃ node', (∀ b ∈ st.state.pending, node' b = node b) ∧ new.map node' = nodes ∧ st'.Stands path node' := by
  have hall : ∀ x, ∃ n, x ∈ new → mid.ledger.Path x (path n) := by
    intro x
    by_cases hx : x ∈ new
    · obtain ⟨n, _, hn⟩ := hnew.exists_right hx
      exact ⟨n, fun _ => hn⟩
    · exact ⟨node x, fun hmem => absurd hmem hx⟩
  choose child hchild using hall
  have hold : ∀ b ∈ st.state.pending, b ∉ new := by
    intro b hb hx
    have hwork : b ∈ mid.working := mem_working (hperm.mem_iff.mpr hx)
    exact Ledger.Held.ne hmid (hstate.symm ▸ hb) hwork rfl
  refine ⟨fun x => if x ∈ new then child x else node x, fun b hb => if_neg (hold b hb), ?_, ?_⟩
  · rw [← List.forall₂_eq_eq_eq, List.forall₂_map_left_iff]
    refine hnew.with_mem.imp fun x n hxn => ?_
    rw [if_pos hxn.1.1]
    exact hinj ((hchild x hxn.1.1).unique hxn.2)
  · intro b hb
    apply hgiven
    by_cases hx : b ∈ new
    · simp only [if_pos hx]
      exact hchild b hx
    · have hmem : b ∈ st.state.pending + new := hpend ▸ Multiset.mem_add.mpr (.inl hb)
      have hb' := (Multiset.mem_add.mp hmem).resolve_right hx
      simp only [if_neg hx]
      exact hkeeps b hb' _ (hnode b hb')

end LedgerState.Stands

namespace LedgerDecodes

/-- The nodes are those that any reading of the open addresses gives. -/
theorem exists_eq (hinj : Function.Injective path) (h : LedgerDecodes path sch st s) (hnode : st.Stands path node) :
    ∃ created released, s = st.state.map node created released := by
  obtain ⟨node', created, released, hnode', rfl⟩ := h.eq_map
  exact ⟨created, released, State.map_congr fun b hb => (hnode.eq hinj hb (hnode' b hb)).symm⟩

theorem of_eq (hinv : LedgerInv sch st) (hnode : st.Stands path node)
    (heq : s = st.state.map node s.shared.created s.shared.released) : LedgerDecodes path sch st s :=
  ⟨hinv, node, _, _, hnode, heq⟩

/-- Steps within a call of `branch`, and of the trees. -/
theorem keeps (h : LedgerDecodes path sch st s) (hinv : LedgerInv sch st') (hstate : st'.state = st.state)
    (hkeeps : st.Keeps st') : LedgerDecodes path sch st' s := by
  obtain ⟨node, created, released, hnode, rfl⟩ := h.eq_map
  exact ⟨hinv, node, created, released, hnode.keeps hkeeps fun b hb => hstate ▸ hb, by rw [hstate]⟩

theorem wake (h : LedgerDecodes path sch st s) {state : State ℕ sch.numThreads.toNat} (hwake : Wake st.state state)
    (hinv : LedgerInv sch { st with state }) : ∃ s', Wake s s' ∧ LedgerDecodes path sch { st with state } s' := by
  obtain ⟨node, created, released, hnode, rfl⟩ := h.eq_map
  cases hwake with
  | wake i =>
    have hpend : State.pending { st.state with
        threads := Function.update st.state.threads i (st.state.threads i).notified } = st.state.pending :=
      State.pending_update (by simp)
    refine ⟨_, .wake i, hinv, node, created, released, hnode.keeps (fun _ _ _ => id) fun b hb => hpend ▸ hb, ?_⟩
    rw [State.map_update]
    simp only [State.map, Thread.map_notified]

/-- A step that releases no node. -/
theorem quiet (h : LedgerDecodes path sch st s) (hi : st.state.shared.interrupted = false)
    (hnode : st.Stands path node) {state : State ℕ sch.numThreads.toNat}
    (hstep : Step (S.through node []) sch c st.state state)
    (hkeep : state.shared.released = st.state.shared.released) (hinv : LedgerInv sch { st with state })
    {created released : Multiset N} (hs : s = st.state.map node created released) :
    Step S sch c s (state.map node created released) ∧
      LedgerDecodes path sch { st with state } (state.map node created released) := by
  have hpend := h.inv.inv.pending_eq hinv.inv 0 0
    (by simpa using (hstep.quiet h.inv.inv hkeep).1) (by simpa using hkeep)
  rw [add_zero, add_zero] at hpend
  refine ⟨hs ▸ hstep.map pop_through.mp hi hkeep, hinv, node, created, released, ?_, rfl⟩
  exact hnode.keeps (fun _ _ _ => id) fun b hb => hpend ▸ hb

/-- A round of the first phase. -/
theorem first (mid : LedgerState D sch.numThreads.toNat) (hinj : Function.Injective path)
    (h : LedgerDecodes path sch st s) (hnode : st.Stands path node) {f : First ℕ}
    (hm : st.state.main = .first f) (hi : st.state.shared.interrupted = false)
    (hsize : f.nodes.length < bound sch) (hp : c.Pop S node f.nodes a rest) (hmid : mid.Held)
    (hstate : mid.state = st.state) (hkeeps : st.Keeps mid) (hperm : (mid.work none).Perm new)
    (hnew : List.Forall₂ (fun x n => mid.ledger.Path x (path n)) new (S.branch (node a) f.record f.sol).nodes)
    (hgiven : ∀ b l, mid.ledger.Path b l → ledger.Path b l)
    (hinv : LedgerInv sch ⟨round (S.through node new) st.state f a rest, ledger, Function.update mid.work none []⟩)
    {created released : Multiset N} (hs : s = st.state.map node created released) :
    Step S sch c s (round S s (f.map node) (node a) (rest.map node)) ∧
      LedgerDecodes path sch
        ⟨round (S.through node new) st.state f a rest, ledger, Function.update mid.work none []⟩
        (round S s (f.map node) (node a) (rest.map node)) := by
  subst hs
  have hmem : ∀ b ∈ f.nodes, b ∈ st.state.pending := fun b hb => by
    simp [State.pending, hm, Main.nodes, hb]
  have hpend := h.inv.inv.pending_eq hinv.inv new {a}
    (by simp [round, Solver.through]) (by simp [round, Solver.through])
  obtain ⟨node', hsame, hmap, hnode'⟩ := hnode.branched
    ⟨round (S.through node new) st.state f a rest, ledger,
      Function.update mid.work none []⟩ hinj hmid hstate hkeeps hperm hnew hpend hgiven
  refine ⟨.branch (Main.map_eq_first.mpr ⟨f, hm, rfl⟩) hi (by simpa [First.map] using hsize) hp.map,
    of_eq hinv hnode' ?_⟩
  have hrest : rest.map node' = rest.map node := List.map_congr_left fun b hb =>
    hsame b (hmem b (hp.perm.mem_iff.mpr (List.mem_cons_of_mem _ hb)))
  rw [State.map_congr fun b hb => (hsame b hb).symm]
  simp only [round, State.map, Main.map, First.map, First.body, Solver.through, pushAll_map, hmap, hrest, Shared.map]

/-- The end of a call of `branch` in a thread. -/
theorem branch (hinj : Function.Injective path) (h : LedgerDecodes path sch st s) (hnode : st.Stands path node)
    {i : Fin sch.numThreads.toNat} (hpc : (st.state.threads i).pc = .branch a) (hperm : (st.work (some i)).Perm new)
    (hnew : List.Forall₂ (fun x n => st.ledger.Path x (path n)) new
      (S.branch (node a) (st.state.threads i).record (st.state.threads i).sol).nodes)
    (hgiven : ∀ b l, st.ledger.Path b l → ledger.Path b l)
    (hinv : LedgerInv sch
      ⟨st.state.apply i ((st.state.threads i).branch (S.through node new) st.state.shared a), ledger,
        Function.update st.work (some i) []⟩)
    {created released : Multiset N} (hs : s = st.state.map node created released) :
    Step S sch c s (s.apply i ((s.threads i).branch S s.shared (node a))) ∧
      LedgerDecodes path sch
        ⟨st.state.apply i ((st.state.threads i).branch (S.through node new) st.state.shared a), ledger,
          Function.update st.work (some i) []⟩
        (s.apply i ((s.threads i).branch S s.shared (node a))) := by
  subst hs
  have hpend := h.inv.inv.pending_eq hinv.inv new {a}
    (by simp [State.apply, Thread.branch, Solver.through]) (by simp [State.apply, Thread.branch, Solver.through])
  obtain ⟨node', hsame, hmap, hnode'⟩ := hnode.branched
    ⟨st.state.apply i ((st.state.threads i).branch (S.through node new) st.state.shared a), ledger,
      Function.update st.work (some i) []⟩ hinj h.inv.held rfl (fun _ _ _ => id) hperm hnew hpend hgiven
  have hstep : ((st.state.map node created released).threads i).step S sch
      (st.state.map node created released).shared = some (((st.state.map node created released).threads i).branch S
        (st.state.map node created released).shared (node a)) := by
    simp [Thread.step, State.map, Thread.map, hpc, Pc.map]
  refine ⟨.thread hstep, of_eq hinv hnode' ?_⟩
  rw [State.map_apply created released, State.map_congr fun b hb => (hsame b hb).symm]
  simp only [State.map, Thread.branch, Outcome.map, Thread.map, Shared.map, Solver.through, pushAll_map, hmap, Pc.map]
  rfl

/-- `clean_nodes` in `solve`. -/
theorem clean (h : LedgerDecodes path sch st s) (hnode : st.Stands path node) {nodes : List ℕ}
    (hm : st.state.main = .clean nodes) (hp : c.Pop S node nodes a rest)
    (hgiven : ∀ b l, st.ledger.Path b l → ledger.Path b l)
    (hinv : LedgerInv sch { st with
      state := { st.state with
        main := .clean rest
        shared := { st.state.shared with released := st.state.shared.released + {a} } }
      ledger })
    {created released : Multiset N} (hs : s = st.state.map node created released) :
    Step S sch c s { s with
      main := .clean (rest.map node)
      shared := { s.shared with released := s.shared.released + {node a} } } ∧
    LedgerDecodes path sch { st with
        state := { st.state with
          main := .clean rest
          shared := { st.state.shared with released := st.state.shared.released + {a} } }
        ledger }
      { s with
        main := .clean (rest.map node)
        shared := { s.shared with released := s.shared.released + {node a} } } := by
  subst hs
  have hpend := h.inv.inv.pending_eq hinv.inv 0 {a} (by simp) rfl
  rw [add_zero] at hpend
  refine ⟨.clean (Main.map_eq_clean.mpr ⟨nodes, hm, rfl⟩) hp.map, hinv, node, _, _,
    hnode.keeps (fun b _ l => hgiven b l) fun b hb => ?_, rfl⟩
  rw [hpend]
  exact Multiset.mem_add.mpr (.inl hb)

end LedgerDecodes

end Parallel

end Optimer
