import Optimer.Bnb.LedgerDecodes

/-! The uninterrupted `ParallelBNB::solve` on an `MTSearchTree` does what `solve` on the nodes themselves
does: the steps between the calls of `branch` correspond, and the calls may be interleaved in any way. -/

namespace Optimer
open Transition

variable {D N : Type*} [SetData D]

namespace Parallel

/-! ### A call that makes given nodes -/

section Calls

variable {T : ℕ} {st : MemState D T} {u : Option (Fin T)} {a : ℕ} {l : List D}

/-- A call can give back what it has made so far. -/
theorem exists_dropped (h : TreeInv st) (ha : a ∈ st.state.pending) (u : Option (Fin T)) :
    ∃ st', Reaches (BranchCall u a) st st' ∧ st'.work u = [] := by
  generalize hk : (st.work u).length = k
  induction k generalizing st with
  | zero => exact ⟨st, .refl, List.length_eq_zero_iff.mp hk⟩
  | succ k ih =>
    obtain ⟨x, rest, hwork⟩ := List.exists_cons_of_length_eq_add_one hk
    have hx : x ∈ st.work u := hwork ▸ List.mem_cons_self
    obtain ⟨tree, hr⟩ := h.release (.inr (MemState.mem_working hx)) u
    have hstep : BranchCall u a st _ := .release hx hr
    obtain ⟨hinv, hstate, _⟩ := hstep.treeInv h ha
    obtain ⟨st', hr', hnil⟩ := ih hinv (hstate ▸ ha) (by simp [List.length_erase_of_mem hx, hk])
    exact ⟨st', .head hstep hr', hnil⟩

/-- A call without nodes can make nodes with any data. -/
theorem exists_made (h : TreeInv st) (ha : a ∈ st.state.pending) (hl : st.tree.ledger.Path a l)
    (hnil : st.work u = []) (ds : List D) : ∃ st', Reaches (BranchCall u a) st st' ∧
      List.Forall₂ (fun x d => st'.tree.ledger.Path x (d :: l)) (st'.work u) ds := by
  induction ds with
  | nil => exact ⟨st, .refl, hnil ▸ .nil⟩
  | cons d ds ih =>
    obtain ⟨st₁, hr₁, hnew₁⟩ := ih
    obtain ⟨h₁, hstate₁, _, hkeeps₁⟩ := BranchCall.reaches h ha hr₁
    have ha₁ : a ∈ st₁.state.pending := hstate₁ ▸ ha
    have hl₁ := hkeeps₁ a ha l hl
    obtain ⟨hnew, hnew0, _⟩ := created_spec (u := u) h₁.tree (.inr (h₁.held.live (.inl ha₁)))
    let st₂ : MemState D T := { st₁ with
      tree := st₁.tree.create u a
      work := Function.update st₁.work u (st₁.tree.created u a :: st₁.work u) }
    have hcreate : BranchCall u a st₁ st₂ := .create
    obtain ⟨h₂, _⟩ := hcreate.treeInv h₁ ha₁
    have hself : st₂.tree.ledger.Path (st₁.tree.created u a) (default :: l) :=
      hl₁.create_self h₁.tree.ledger hnew hnew0 (.inr (h₁.held.live (.inl ha₁)))
    have hwork : st₂.work u = st₁.tree.created u a :: st₁.work u := Function.update_self ..
    have hmem : st₁.tree.created u a ∈ st₂.work u := hwork ▸ List.mem_cons_self
    have hfresh := MemState.mem_working hmem
    refine ⟨{ st₂ with tree := st₂.tree.write (st₁.tree.created u a) d },
      (hr₁.tail hcreate).tail (.write hmem d), ?_⟩
    simp only [hwork]
    refine .cons ?_ (hnew₁.with_mem.imp fun x d' hxd => ?_)
    · exact hself.write_self h₂.tree.ledger (h₂.held.live (.inr hfresh)) (h₂.held.leaf _ hfresh) d
    · have hx' := MemState.mem_working hxd.1.1
      have hold : x ∈ st₂.work u := hwork ▸ List.mem_cons_of_mem _ hxd.1.1
      exact h₂.held.path_write (.inr (MemState.mem_working hold)) hfresh
        (ne_of_mem_of_not_mem (h₁.held.live (.inr hx')) hnew) d (h₁.held.path_create hnew (.inr hx') hxd.2)

theorem exists_branchCall (h : TreeInv st) (ha : a ∈ st.state.pending) (hl : st.tree.ledger.Path a l)
    (u : Option (Fin T)) (ds : List D) : ∃ st', Reaches (BranchCall u a) st st' ∧
      List.Forall₂ (fun x d => st'.tree.ledger.Path x (d :: l)) (st'.work u) ds := by
  obtain ⟨st₁, hr₁, hnil⟩ := exists_dropped h ha u
  obtain ⟨h₁, hstate₁, _, hkeeps₁⟩ := BranchCall.reaches h ha hr₁
  obtain ⟨st', hr, hnew⟩ := exists_made h₁ (hstate₁ ▸ ha) (hkeeps₁ a ha l hl) hnil ds
  exact ⟨st', hr₁.trans hr, hnew⟩

/-- The steps of a call of a thread. -/
theorem callStep_reaches {st' : MemState D T} {i : Fin T} (hpc : (st.state.threads i).pc = .branch a)
    (hr : Reaches (BranchCall (some i) a) st st') : Reaches CallStep st st' ∧ st'.state = st.state := by
  induction hr with
  | refl => exact ⟨.refl, rfl⟩
  | tail _ hstep ih =>
    obtain ⟨hr, hstate⟩ := ih
    refine ⟨hr.tail (.call (hstate.symm ▸ hpc) hstep), Eq.trans ?_ hstate⟩
    cases hstep <;> rfl

end Calls

/-! ### The simulation -/

variable {S : Solver N} {path : N → List D} {sch : Scheduler} {c : Container}
  {st st' mid : MemState D sch.numThreads.toNat} {s s' : State N sch.numThreads.toNat} {node : ℕ → N}
  {a : ℕ} {rest new : List ℕ}

/-- The state on addresses and the state on nodes are at the same point. -/
structure Decodes (path : N → List D) (sch : Scheduler) (st : MemState D sch.numThreads.toNat)
    (s : State N sch.numThreads.toNat) : Prop where
  inv : MemInv sch st
  eq_map : ∃ node created released, Stands path st node ∧ s = st.state.map node created released

omit [SetData D] in
theorem MemInv.path_iff (h : MemInv sch st) (ha : a ∈ st.state.pending) (l : List D) :
    st.tree.mem.Reads a l ↔ st.tree.ledger.Path a l :=
  h.tree.reads_iff (h.held.live (.inl ha))

omit [SetData D] in
/-- What is read from the open nodes is what the ledger says. -/
theorem MemInv.stands_iff (h : MemInv sch st) : Stands path st node ↔ st.books.Stands path node :=
  forall₂_congr fun _ ha => h.path_iff ha _

namespace Decodes

omit [SetData D] in
theorem books (h : Decodes path sch st s) : LedgerDecodes path sch st.books s := by
  obtain ⟨hinv, node, created, released, hnode, rfl⟩ := h
  exact ⟨hinv.books, node, created, released, hinv.stands_iff.mp hnode, rfl⟩

omit [SetData D] in
theorem of_books (hinv : MemInv sch st) (h : LedgerDecodes path sch st.books s) : Decodes path sch st s := by
  obtain ⟨_, node, created, released, hnode, rfl⟩ := h
  exact ⟨hinv, node, created, released, hinv.stands_iff.mpr hnode, rfl⟩

omit [SetData D] in
/-- The nodes are those that any reading of the open addresses gives. -/
theorem exists_eq (hinj : Function.Injective path) (h : Decodes path sch st s) (hnode : Stands path st node) :
    ∃ created released, s = st.state.map node created released :=
  h.books.exists_eq hinj (h.inv.stands_iff.mp hnode)

theorem callStep (h : Decodes path sch st s) (hstep : CallStep st st') : Decodes path sch st' s := by
  obtain ⟨hinv, hstate, hkeeps⟩ := hstep.memInv h.inv
  exact of_books hinv (h.books.keeps hinv.books hstate hkeeps)

theorem callSteps (h : Decodes path sch st s) (hr : Reaches CallStep st st') : Decodes path sch st' s := by
  induction hr with
  | refl => exact h
  | tail _ hstep ih => exact ih.callStep hstep

omit [SetData D] in
theorem wake (h : Decodes path sch st s) (hstep : Outside Wake st st') :
    ∃ s', Wake s s' ∧ Decodes path sch st' s' := by
  obtain ⟨hinv, _⟩ := wake_memInv h.inv hstep
  obtain ⟨hwake⟩ := hstep
  obtain ⟨s', hwake', h'⟩ := h.books.wake hwake hinv.books
  exact ⟨s', hwake', of_books hinv h'⟩

/-- A step that releases no node. -/
theorem quiet (hmin : 0 < sch.numMinimumNodes.toNat) (h : Decodes path sch st s)
    (hi : st.state.shared.interrupted = false) (hnode : Stands path st node) {state : State ℕ sch.numThreads.toNat}
    (hstep : Step (S.through node []) sch c st.state state)
    (hkeep : state.shared.released = st.state.shared.released) {created released : Multiset N}
    (hs : s = st.state.map node created released) :
    Step S sch c s (state.map node created released) ∧
      Decodes path sch { st with state } (state.map node created released) := by
  obtain ⟨hinv, _⟩ := MemStep.memInv hmin h.inv (.quiet hnode hstep hkeep)
  have hbooks := h.books.quiet hi (h.inv.stands_iff.mp hnode) hstep hkeep hinv.books hs
  exact ⟨hbooks.1, of_books hinv hbooks.2⟩

omit [SetData D] in
theorem of_eq (hinv : MemInv sch st) (hnode : Stands path st node)
    (heq : s = st.state.map node s.shared.created s.shared.released) : Decodes path sch st s :=
  ⟨hinv, node, _, _, hnode, heq⟩

omit [SetData D] in
/-- What is read of the nodes in the making is what the ledger says. -/
theorem made_path (hmid : TreeInv mid) {u : Option (Fin sch.numThreads.toNat)} (hperm : (mid.work u).Perm new)
    {nodes : List N} (hnew : List.Forall₂ (fun x n => mid.tree.mem.Reads x (path n)) new nodes) :
    List.Forall₂ (fun x n => mid.tree.ledger.Path x (path n)) new nodes := by
  refine hnew.with_mem.imp fun x n hxn => ?_
  have hwork : x ∈ mid.working := MemState.mem_working (hperm.mem_iff.mpr hxn.1.1)
  exact (hmid.tree.reads_iff (hmid.held.live (.inr hwork))).mp hxn.2

/-- A round of the first phase. -/
theorem first (hinj : Function.Injective path) (hmin : 0 < sch.numMinimumNodes.toNat) (h : Decodes path sch st s)
    (hnode : Stands path st node) {f : First ℕ} {tree : MTRun (Option (Fin sch.numThreads.toNat)) D}
    (hm : st.state.main = .first f) (hi : st.state.shared.interrupted = false)
    (hsize : f.nodes.length < bound sch) (hp : c.Pop S node f.nodes a rest)
    (hcall : Reaches (BranchCall none a) st mid) (hperm : (mid.work none).Perm new)
    (hnew : List.Forall₂ (fun x n => mid.tree.mem.Reads x (path n)) new (S.branch (node a) f.record f.sol).nodes)
    (hr : mid.tree.release none a = some tree) {created released : Multiset N}
    (hs : s = st.state.map node created released) :
    Step S sch c s (round S s (f.map node) (node a) (rest.map node)) ∧
      Decodes path sch ⟨round (S.through node new) st.state f a rest, tree, Function.update mid.work none []⟩
        (round S s (f.map node) (node a) (rest.map node)) := by
  obtain ⟨hinv, _⟩ := MemStep.memInv (c := c) hmin h.inv (.first hnode hm hi hsize hp hcall hperm hnew hr)
  have ha : a ∈ st.state.pending := by
    simp [State.pending, hm, Main.nodes, hp.perm.mem_iff.mpr List.mem_cons_self]
  obtain ⟨hmid, hstate, _, hkeeps⟩ := BranchCall.reaches h.inv.toTreeInv ha hcall
  have hbooks := h.books.first mid.books hinj (h.inv.stands_iff.mp hnode) hm hi hsize hp hmid.held hstate
    hkeeps hperm (made_path hmid hperm hnew) (fun b l => MTRun.release_path hr) hinv.books hs
  exact ⟨hbooks.1, of_books hinv hbooks.2⟩

/-- The end of a call of `branch` in a thread. -/
theorem branch (hinj : Function.Injective path) (hmin : 0 < sch.numMinimumNodes.toNat) (h : Decodes path sch st s)
    (hnode : Stands path st node) {i : Fin sch.numThreads.toNat}
    {tree : MTRun (Option (Fin sch.numThreads.toNat)) D} (hpc : (st.state.threads i).pc = .branch a)
    (hperm : (st.work (some i)).Perm new)
    (hnew : List.Forall₂ (fun x n => st.tree.mem.Reads x (path n)) new
      (S.branch (node a) (st.state.threads i).record (st.state.threads i).sol).nodes)
    (hr : st.tree.release (some i) a = some tree) {created released : Multiset N}
    (hs : s = st.state.map node created released) :
    Step S sch c s (s.apply i ((s.threads i).branch S s.shared (node a))) ∧
      Decodes path sch ⟨st.state.apply i ((st.state.threads i).branch (S.through node new) st.state.shared a), tree,
        Function.update st.work (some i) []⟩ (s.apply i ((s.threads i).branch S s.shared (node a))) := by
  obtain ⟨hinv, _⟩ := MemStep.memInv (c := c) hmin h.inv (.branch hnode hpc hperm hnew hr)
  have hbooks := h.books.branch (c := c) hinj (h.inv.stands_iff.mp hnode) hpc hperm
    (made_path h.inv.toTreeInv hperm hnew) (fun b l => MTRun.release_path hr) hinv.books hs
  exact ⟨hbooks.1, of_books hinv hbooks.2⟩

/-- `clean_nodes` in `solve`. -/
theorem clean (hmin : 0 < sch.numMinimumNodes.toNat) (h : Decodes path sch st s) (hnode : Stands path st node)
    {nodes : List ℕ} {tree : MTRun (Option (Fin sch.numThreads.toNat)) D} (hm : st.state.main = .clean nodes)
    (hp : c.Pop S node nodes a rest) (hr : st.tree.release none a = some tree) {created released : Multiset N}
    (hs : s = st.state.map node created released) :
    Step S sch c s { s with
      main := .clean (rest.map node)
      shared := { s.shared with released := s.shared.released + {node a} } } ∧
    Decodes path sch { st with
        state := { st.state with
          main := .clean rest
          shared := { st.state.shared with released := st.state.shared.released + {a} } }
        tree }
      { s with
        main := .clean (rest.map node)
        shared := { s.shared with released := s.shared.released + {node a} } } := by
  obtain ⟨hinv, _⟩ := MemStep.memInv (c := c) hmin h.inv (.clean hnode hm hp hr)
  have hbooks := h.books.clean (h.inv.stands_iff.mp hnode) hm hp (fun b l => MTRun.release_path hr) hinv.books hs
  exact ⟨hbooks.1, of_books hinv hbooks.2⟩

end Decodes

/-- The steps of `solve` and its threads outside of `branch`, after any steps of the calls under way. -/
def Coarse (S : Solver N) (path : N → List D) (sch : Scheduler) (c : Container)
    (st st' : MemState D sch.numThreads.toNat) : Prop :=
  ∃ mid, Reaches CallStep st mid ∧ MemStep S path sch c mid st'

/-- Each step on the tree is a step on the nodes, or within a call of `branch`. -/
theorem Decodes.simulated (hinj : Function.Injective path) (hmin : 0 < sch.numMinimumNodes.toNat)
    (h : Decodes path sch st s)
    (hi : s.shared.interrupted = false) (hstep : MemStep S path sch c st st') :
    ∃ s', Step S sch c s s' ∧ Decodes path sch st' s' := by
  have hi' : st.state.shared.interrupted = false := by
    obtain ⟨_, _, _, _, rfl⟩ := h.eq_map
    exact hi
  cases hstep with
  | quiet hnode hstep hkeep =>
    obtain ⟨_, _, hs⟩ := h.exists_eq hinj hnode
    exact ⟨_, h.quiet hmin hi' hnode hstep hkeep hs⟩
  | first hnode hm _ hsize hp hcall hperm hnew hr =>
    obtain ⟨_, _, hs⟩ := h.exists_eq hinj hnode
    exact ⟨_, h.first hinj hmin hnode hm hi' hsize hp hcall hperm hnew hr hs⟩
  | branch hnode hpc hperm hnew hr =>
    obtain ⟨_, _, hs⟩ := h.exists_eq hinj hnode
    exact ⟨_, h.branch hinj hmin hnode hpc hperm hnew hr hs⟩
  | drop _ hint => exact absurd (hint.symm.trans hi') (by simp)
  | clean hnode hm hp hr =>
    obtain ⟨_, _, hs⟩ := h.exists_eq hinj hnode
    exact ⟨_, h.clean hmin hnode hm hp hr hs⟩

/-- A call of `branch` can make the nodes that it has to return. -/
theorem exists_branched (P : S.Stored path) (h : MemInv sch st) (hnode : Stands path st node)
    (ha : a ∈ st.state.pending) (hexp : S.Explored (node a)) (r : ValueType) (sol : Solution)
    (u : Option (Fin sch.numThreads.toNat)) : ∃ mid, Reaches (BranchCall u a) st mid ∧
      List.Forall₂ (fun x n => mid.tree.mem.Reads x (path n)) (mid.work u) (S.branch (node a) r sol).nodes := by
  have hchild : ∀ m, ∃ d, m ∈ (S.branch (node a) r sol).nodes → path m = d :: path (node a) := fun m => by
    by_cases hm : m ∈ (S.branch (node a) r sol).nodes
    · obtain ⟨d, hd⟩ := P.child hexp r sol m hm
      exact ⟨d, fun _ => hd⟩
    · exact ⟨default, fun hmem => absurd hmem hm⟩
  choose data hdata using hchild
  obtain ⟨mid, hr, hnew⟩ := exists_branchCall h.toTreeInv ha ((h.path_iff ha _).mp (hnode a ha)) u
    ((S.branch (node a) r sol).nodes.map data)
  obtain ⟨hmid, _⟩ := BranchCall.reaches h.toTreeInv ha hr
  rw [List.forall₂_map_right_iff] at hnew
  refine ⟨mid, hr, hnew.with_mem.imp fun x m hxm => ?_⟩
  exact (hmid.tree.reads_iff (hmid.held.live (.inr (MemState.mem_working hxm.1.1)))).mpr (hdata m hxm.1.2 ▸ hxm.2)

/-- Each step on the nodes can be done on the tree. -/
theorem Decodes.follows (P : S.Stored path) (hmin : 0 < sch.numMinimumNodes.toNat) (h : Decodes path sch st s)
    (hi : s.shared.interrupted = false) (hexp : ∀ n ∈ s.pending, S.Explored n) (hstep : Step S sch c s s') :
    ∃ st', Coarse S path sch c st st' ∧ Decodes path sch st' s' := by
  obtain ⟨node, created, released, hnode, rfl⟩ := h.eq_map
  have hpop : ∀ {l rest : List ℕ} {a : ℕ}, c.Pop S node l a rest → c.Pop (S.through node []) id l a rest :=
    pop_through.mpr
  cases hstep.origin hpop hi with
  | quiet hquiet hr => exact ⟨_, ⟨st, .refl, .quiet hnode hquiet hr⟩, (h.quiet hmin hi hnode hquiet hr rfl).2⟩
  | @first f a rest hm hsize hp =>
    have ha : a ∈ st.state.pending := by
      simp [State.pending, hm, Main.nodes, hp.perm.mem_iff.mpr List.mem_cons_self]
    have hexp : S.Explored (node a) := hexp _ (by
      have hmem : node a ∈ f.nodes.map node :=
        List.mem_map_of_mem (hp.perm.mem_iff.mpr List.mem_cons_self)
      have hnodes : (st.state.map node created released).main.nodes = f.nodes.map node := by
        simp [State.map, hm, Main.map, Main.nodes, First.map]
      simp only [State.pending, Multiset.mem_add, Multiset.mem_coe, hnodes]
      exact .inl (.inl hmem))
    obtain ⟨mid, hcall, hnew⟩ := exists_branched P h.inv hnode ha hexp f.record f.sol none
    obtain ⟨hmid, hstate, _⟩ := BranchCall.reaches h.inv.toTreeInv ha hcall
    obtain ⟨tree, hr⟩ := hmid.release (.inl (hstate.symm ▸ ha)) none
    exact ⟨_, ⟨st, .refl, .first hnode hm hi hsize hp hcall (.refl _) hnew hr⟩,
      (h.first P.injective hmin hnode hm hi hsize hp hcall (.refl _) hnew hr rfl).2⟩
  | @branch i a hpc =>
    have ha : a ∈ st.state.pending :=
      Multiset.mem_of_le (st.state.thread_pending_le i) (Thread.mem_pending hpc)
    have hexp : S.Explored (node a) := hexp _ (Multiset.mem_of_le (State.thread_pending_le _ i)
      (Thread.mem_pending (Thread.pc_map_branch.mpr ⟨a, hpc, rfl⟩)))
    obtain ⟨mid, hcall, hnew⟩ := exists_branched P h.inv hnode ha hexp (st.state.threads i).record
      (st.state.threads i).sol (some i)
    obtain ⟨hsteps, hstate⟩ := callStep_reaches hpc hcall
    obtain ⟨_, _, _, hkeeps⟩ := BranchCall.reaches h.inv.toTreeInv ha hcall
    have hmid := h.callSteps hsteps
    have hsub : ∀ b ∈ mid.state.pending, b ∈ st.state.pending := fun b hb => hstate ▸ hb
    have hnode' := hmid.inv.stands_iff.mpr ((h.inv.stands_iff.mp hnode).keeps hkeeps hsub)
    obtain ⟨tree, hr⟩ := hmid.inv.release (.inl (hstate.symm ▸ ha)) (some i)
    rw [← hstate] at hpc hnew hmid
    have hend := hmid.branch (c := c) P.injective hmin hnode' hpc (.refl _) hnew hr rfl
    rw [hstate] at hend
    refine ⟨_, ⟨mid, hsteps, .branch hnode' hpc (.refl _) hnew hr⟩, ?_⟩
    rw [hstate]
    exact hend.2
  | @clean nodes rest a hm hp =>
    have ha : a ∈ st.state.pending := by
      simp [State.pending, hm, Main.nodes, hp.perm.mem_iff.mpr List.mem_cons_self]
    obtain ⟨tree, hr⟩ := h.inv.release (.inl ha) none
    exact ⟨_, ⟨st, .refl, .clean hnode hm hp hr⟩, (h.clean hmin hnode hm hp hr rfl).2⟩

/-! ### Total correctness -/

/-- A step of an uninterrupted run. -/
def MemUninterrupted (S : Solver N) (path : N → List D) (sch : Scheduler) (c : Container)
    (st st' : MemState D sch.numThreads.toNat) : Prop :=
  MemStep S path sch c st st' ∨ CallStep st st' ∨ Outside Wake st st'

theorem memStart_decodes {d : D} (hrank : S.rank > minRankValue) (hroot : path S.initialNode = [d])
    (record : ValueType) :
    Decodes path sch (memStart S sch d record) (start S sch (construct sch) record) := by
  have hinv := memStart_inv S sch d record
  have hnode : Stands path (memStart S sch d record) fun _ => S.initialNode := fun a ha => by
    refine (hinv.path_iff ha _).mpr ?_
    rw [memStart_pending, if_pos hrank, Multiset.mem_singleton] at ha
    simp only [memStart, if_pos hrank, ha, hroot]
    exact (rooted_spec _ d).2.2
  refine .of_eq hinv hnode ?_
  rw [start, if_pos hrank, memStart, start]
  simp only
  rw [if_pos (by exact hrank)]
  rfl

variable {X : Type*} {cost : X → ValueType} {sols : N → Set X} {init v : ValueType}

/-- `solve` on the tree and on the nodes: related states, the one on nodes in an uninterrupted search. -/
def Refines (S : Solver N) (path : N → List D) (sch : Scheduler) (c : Container) (cost : X → ValueType)
    (sols : N → Set X) (init : ValueType) (st : MemState D sch.numThreads.toNat)
    (s : State N sch.numThreads.toNat) : Prop :=
  Decodes path sch st s ∧ Searching S sch c (Even sch) cost sols init s

theorem refines_coarse (C : S.Contract cost sols) (P : S.Stored path) (hmin : 0 < sch.numMinimumNodes.toNat) :
    Simulates (Refines S path sch c cost sols init) (Coarse S path sch c) (Step S sch c) := by
  rintro st s st' ⟨h, hs⟩ ⟨mid, hr, hstep⟩
  obtain ⟨s', hstep', h'⟩ := (h.callSteps hr).simulated P.injective hmin hs.running.uninterrupted hstep
  exact ⟨s', hstep', h', Searching.step C hmin hs hstep'⟩

theorem coarse_refines (C : S.Contract cost sols) (P : S.Stored path) (hmin : 0 < sch.numMinimumNodes.toNat) :
    Simulates (fun s st => Refines S path sch c cost sols init st s) (Step S sch c) (Coarse S path sch c) := by
  rintro s st s' ⟨h, hs⟩ hstep
  obtain ⟨st', hstep', h'⟩ := h.follows P hmin hs.running.uninterrupted hs.explored hstep
  exact ⟨st', hstep', h', Searching.step C hmin hs hstep⟩

/-- What `solve` on the tree has done at its return. -/
def MemReturns (v : ValueType) {T : ℕ} (st : MemState D T) : Prop :=
  ∃ sol, st.state.main = .returned sol ∧ sol.value = v ∧ sol.route = [] ∧ st.tree.live = ∅ ∧
    st.tree.tree.numUnfreedNodes = 0

/-- At the return no node is left in the trees. -/
theorem Decodes.freed (h : Decodes path sch st s) {Q : ℕ → Prop} (hs : Running S sch c Q s) {sol : Solution}
    (hsol : s.main = .returned sol) : st.state.main = .returned sol ∧ sol.route = [] ∧ st.tree.live = ∅ ∧
      st.tree.tree.numUnfreedNodes = 0 := by
  have hhand := hs.handed
  simp only [MainHanded, hsol] at hhand
  have hpend := hs.pending_returned hsol
  obtain ⟨node, created, released, _, rfl⟩ := h.eq_map
  have hm : st.state.main = .returned sol := Main.map_eq_returned.mp hsol
  have hqueue : st.state.shared.queueSets = [] := by
    have hq : ((st.state.shared.queueSets.map node : List N) : Multiset N) = 0 :=
      (add_eq_zero.mp hpend).2
    exact List.map_eq_nil_iff.mp ((Multiset.coe_eq_zero _).mp hq)
  obtain ⟨_, hnum, _, hunfreed⟩ := h.inv.safe
  have hzero := (hunfreed sol hm).mpr hqueue
  refine ⟨hm, hhand.1.2, ?_, hzero⟩
  rw [hnum] at hzero
  exact Finset.card_eq_zero.mp (by exact_mod_cast hzero)

theorem Refines.returns (hT : 0 < sch.numThreads.toNat) (hmin : 0 < sch.numMinimumNodes.toNat)
    (hv : S.Optimal cost sols init v) (h : Refines S path sch c cost sols init st s)
    (hstuck : Stuck (Step S sch c) s) : MemReturns v st := by
  obtain ⟨hdec, hs⟩ := h
  obtain ⟨sol, hsol⟩ := hs.running.returned_of_stuck hT hmin hstuck
  obtain ⟨hm, hroute, hlive, hunfreed⟩ := hdec.freed hs.running hsol
  exact ⟨sol, hm, (hs.optimal hsol).unique hv, hroute, hlive, hunfreed⟩

/-- From related states the steps outside of `branch` lead to the return. -/
theorem Refines.correct (C : S.Contract cost sols) (P : S.Stored path) (hT : 0 < sch.numThreads.toNat)
    (hmin : 0 < sch.numMinimumNodes.toNat) (hv : S.Optimal cost sols init v)
    (h : Refines S path sch c cost sols init st s) : TotallyCorrect (Coarse S path sch c) st (MemReturns v) := by
  have hnodes : TotallyCorrect (Step S sch c) s (Stuck (Step S sch c)) :=
    ⟨(Searching.returns C hT hmin hv h.2).terminates s .refl, fun _ _ => id⟩
  exact .of_simulates (refines_coarse C P hmin) (coarse_refines C P hmin) h
    (fun _ _ h' hstuck => h'.returns hT hmin hv hstuck) hnodes

/-- Every point of a run stands for one of a run on the nodes. -/
theorem exists_refines (C : S.Contract cost sols) (P : S.Stored path) (hrank : S.rank > minRankValue)
    (hmin : 1 ≤ sch.numMinimumNodes.toNat)
    (hprod : sch.numThreads.toNat * sch.numMinimumNodes.toNat < 2 ^ 32) {d : D} (hroot : path S.initialNode = [d])
    (record : ValueType) (hr : Reaches (MemUninterrupted S path sch c) (memStart S sch d record) st) :
    ∃ s, Refines S path sch c cost sols (min record S.initialSolution.value) st s := by
  induction hr with
  | refl =>
    have hfirst := firstLeaves_even (S := S) (c := c) hprod hmin record
    exact ⟨_, memStart_decodes hrank hroot record, .start hrank rfl rfl rfl hfirst⟩
  | tail _ hstep ih =>
    obtain ⟨s, h, hs⟩ := ih
    rcases hstep with hstep | hcall | hwake
    · obtain ⟨s', hstep', h'⟩ := h.simulated P.injective hmin hs.running.uninterrupted hstep
      exact ⟨s', h', Searching.step C hmin hs hstep'⟩
    · exact ⟨s, h.callStep hcall, hs⟩
    · obtain ⟨s', hwake', h'⟩ := h.wake hwake
      exact ⟨s', h', Searching.preserved C hmin hs (.inr hwake')⟩

/-- `ParallelBNB::solve` over the reference counted trees of its threads, with calls of `branch` interleaved
in any way: wherever a run gets, the steps outside of `branch` come to an end, and the end is the return of
the optimum with no node left in any tree, so that the `CHECK` passes. -/
theorem parallel_memory_correct (C : S.Contract cost sols) (P : S.Stored path) (hrank : S.rank > minRankValue)
    (hT : 1 ≤ sch.numThreads.toNat) (hmin : 1 ≤ sch.numMinimumNodes.toNat)
    (hprod : sch.numThreads.toNat * sch.numMinimumNodes.toNat < 2 ^ 32) {d : D} (hroot : path S.initialNode = [d])
    (c : Container) (record : ValueType) :
    ∃ v, S.Optimal cost sols (min record S.initialSolution.value) v ∧
      ∀ st, Reaches (MemUninterrupted S path sch c) (memStart S sch d record) st →
        TotallyCorrect (Coarse S path sch c) st (MemReturns v) := by
  obtain ⟨_, _, _, v, hv, _⟩ := (serial_correct C hrank .lifo record).exists_end
  refine ⟨v, hv, fun st hr => ?_⟩
  obtain ⟨s, h⟩ := exists_refines C P hrank hmin hprod hroot record hr
  exact h.correct C P hT hmin hv

/-- Two threads over the search tree with two leaves. -/
theorem parallel_memory_correct_pair :
    ∃ v, pairSolver.Optimal pairCost pairSols (min mVal pairSolver.initialSolution.value) v ∧
      ∀ st, Reaches (MemUninterrupted pairSolver pairPath (.giving ⟨2, 1, 3⟩) .lifo)
        (memStart pairSolver (.giving ⟨2, 1, 3⟩) 0 mVal) st →
        TotallyCorrect (Coarse pairSolver pairPath (.giving ⟨2, 1, 3⟩) .lifo) st (MemReturns v) :=
  parallel_memory_correct pairSolver_contract pairPath_stored (by decide) (by decide) (by decide)
    (by decide) rfl .lifo mVal

end Parallel

end Optimer
