import Optimer.Bnb.ParallelMemoryCorrect
import Optimer.Bnb.WordMemory

/-! The uninterrupted `ParallelBNB::solve` finds the optimum also where the counts of its trees are kept word by
word. What a lost write costs is a node that is never freed. -/

namespace Optimer
open Transition

variable {D N : Type*} [SetData D]

namespace Parallel

/-! ### Calls that come to their end -/

section Calls

variable {T : ℕ} {st : WordState D T} {holder : ℕ → Option (Option (Fin T))} {u : Option (Fin T)} {a : ℕ} {l : List D}

/-- `u` has gone on with the call it is in. -/
structure Advanced (u : Option (Fin T)) (st : WordState D T) (tree : MTCounts (Option (Option (Fin T))) D) :
    Prop where
  call : ∀ a, Reaches (WordCall u a) st { st with tree }
  steps : Reaches WordCallStep st { st with tree }
  idle : ∀ p, st.tree.Idle p → tree.Idle p
  made : tree.made = st.tree.made

theorem Advanced.path {tree : MTCounts (Option (Option (Fin T))) D} (h : Advanced u st tree)
    (hl : st.tree.ledger.Path a l) : tree.ledger.Path a l := by
  simp only [MTCounts.ledger, MTRun.ledger, Ledger.Path, h.made] at hl ⊢
  exact hl

theorem advanced_iterate (st : WordState D T) (u : Option (Fin T)) (k : ℕ) :
    Advanced u st ((fun r => r.advance (some u))^[k] st.tree) := by
  induction k with
  | zero => exact ⟨fun _ => .refl, .refl, fun _ => id, rfl⟩
  | succ k ih =>
    rw [Function.iterate_succ_apply']
    have hadv := ((fun r => r.advance (some u))^[k] st.tree).advanced (some u)
    refine ⟨fun a => (ih.call a).tail .advance, ih.steps.tail (.advance u), fun p hp => ?_, hadv.made.trans ih.made⟩
    by_cases hpu : p = some u
    · subst hpu
      rw [hadv.idle (ih.idle _ hp)]
      exact ih.idle _ hp
    · exact (hadv.access p hpu).trans (ih.idle p hp)

/-- The call that `u` is in goes on to its end. -/
theorem exists_settled (h : WordTree st holder) (u : Option (Fin T)) :
    ∃ tree, Advanced u st tree ∧ tree.Idle (some u) := by
  obtain ⟨k, hk⟩ := h.inv.exists_idle (some u)
  have hsame : (fun r => r.advance (some u))^[k] (st.tree.heldBy holder) =
      ((fun r => r.advance (some u))^[k] st.tree).heldBy holder := by
    clear hk
    induction k with
    | zero => rfl
    | succ k ih => rw [Function.iterate_succ_apply', ih, MTCounts.heldBy_advance, Function.iterate_succ_apply']
  rw [hsame] at hk
  exact ⟨_, advanced_iterate st u k, hk⟩

/-- A call can give back what it has made so far. -/
theorem WordCall.exists_dropped (h : WordTree st holder) (ha : a ∈ st.state.pending) (hu : holder a = some u)
    (hbelow : ∀ x ∈ st.work u, st.tree.mem.parent x = a) :
    ∃ st', Reaches (WordCall u a) st st' ∧ st'.work u = [] ∧ st'.tree.Idle (some u) := by
  generalize hk : (st.work u).length = k
  induction k generalizing st holder with
  | zero =>
    obtain ⟨tree, hadv, hidle⟩ := exists_settled h u
    exact ⟨_, hadv.call a, List.length_eq_zero_iff.mp hk, hidle⟩
  | succ k ih =>
    obtain ⟨tree, hadv, hidle⟩ := exists_settled h u
    obtain ⟨holder', h', hu', hkeeps⟩ := WordCall.reaches h ha hu hbelow (hadv.call a)
    obtain ⟨x, rest, hwork⟩ := List.exists_cons_of_length_eq_add_one hk
    have hx : x ∈ st.work u := hwork ▸ List.mem_cons_self
    have hstep : WordCall u a { st with tree } _ := .release hidle hx
    obtain ⟨holder'', h'', hu'', hkeeps'⟩ := WordCall.tree h' ha hu' hkeeps.below hstep
    obtain ⟨st', hr', hnil, hend⟩ := ih h'' ha hu'' hkeeps'.below (by simp [List.length_erase_of_mem hx, hk])
    exact ⟨st', ((hadv.call a).tail hstep).trans hr', hnil, hend⟩

/-- A call can make one more node, with any data. -/
theorem WordCall.exists_child (h : WordTree st holder) (ha : a ∈ st.state.pending) (hu : holder a = some u)
    (hbelow : ∀ x ∈ st.work u, st.tree.mem.parent x = a) (hl : st.tree.ledger.Path a l)
    (hidle : st.tree.Idle (some u))
    (d : D) : ∃ st' x, Reaches (WordCall u a) st st' ∧ st'.tree.Idle (some u) ∧ st'.work u = x :: st.work u ∧
      st'.tree.ledger.Path x (d :: l) ∧ ∀ y ∈ st.work u, ∀ l, st.tree.ledger.Path y l → st'.tree.ledger.Path y l := by
  obtain ⟨hnew, hnew0⟩ : st.tree.created (some u) ∉ st.tree.live ∧ st.tree.created (some u) ≠ 0 :=
    h.inv.created (some u)
  let made : WordState D T := { st with
    tree := st.tree.create (some u) a
    work := Function.update st.work u (st.tree.created (some u) :: st.work u) }
  have hcreate : WordCall u a st made := .create hidle
  obtain ⟨holder', h', hu', hkeeps⟩ := WordCall.tree h ha hu hbelow hcreate
  obtain ⟨tree, hadv, hend⟩ := exists_settled h' u
  obtain ⟨_, h'', _, _⟩ := WordCall.reaches h' ha hu' hkeeps.below (hadv.call a)
  let settled : WordState D T := { made with tree }
  have hwork : settled.work u = st.tree.created (some u) :: st.work u := Function.update_self ..
  have hmem : st.tree.created (some u) ∈ settled.work u := hwork ▸ List.mem_cons_self
  have hfresh : st.tree.created (some u) ∈ settled.books.working := LedgerState.mem_working hmem
  have hidle' : settled.tree.Idle (some u) := hend
  have hwrite : WordCall u a settled _ := .write hidle' hmem d
  have hself : settled.tree.ledger.Path (st.tree.created (some u)) (default :: l) :=
    hadv.path (hl.create_self h.held.inv hnew hnew0 (.inr (h.live (.inl ha))))
  refine ⟨_, st.tree.created (some u), ((hadv.call a).head hcreate).tail hwrite, hend, hwork, ?_,
    fun y hy l' hl' => ?_⟩
  · exact hself.write_self h''.held.inv (h''.live (.inr hfresh)) (h''.held.leaf _ hfresh) d
  · have hy' : y ∈ st.books.working := LedgerState.mem_working hy
    have hold : y ∈ settled.books.working := LedgerState.mem_working (hwork ▸ List.mem_cons_of_mem _ hy)
    exact h''.held.path_write (.inr hold) hfresh (ne_of_mem_of_not_mem (h.live (.inr hy')) hnew) d
      (hadv.path (h.held.path_create hnew (.inr hy') hl'))

/-- A call without nodes can make nodes with any data. -/
theorem WordCall.exists_made (h : WordTree st holder) (ha : a ∈ st.state.pending) (hu : holder a = some u)
    (hl : st.tree.ledger.Path a l) (hnil : st.work u = []) (hidle : st.tree.Idle (some u)) (ds : List D) :
    ∃ st', Reaches (WordCall u a) st st' ∧ st'.tree.Idle (some u) ∧
      List.Forall₂ (fun x d => st'.tree.ledger.Path x (d :: l)) (st'.work u) ds := by
  have hbelow : ∀ x ∈ st.work u, st.tree.mem.parent x = a := by
    intro x hx
    rw [hnil] at hx
    cases hx
  induction ds with
  | nil => exact ⟨st, .refl, hidle, hnil ▸ .nil⟩
  | cons d ds ih =>
    obtain ⟨mid, hr, hidle', hnew⟩ := ih
    obtain ⟨holder', h', hu', hkeeps⟩ := WordCall.reaches h ha hu hbelow hr
    have ha' : a ∈ mid.state.pending := hkeeps.state ▸ ha
    obtain ⟨st', x, hr', hend, hwork, hself, hold⟩ :=
      WordCall.exists_child h' ha' hu' hkeeps.below (hkeeps.keeps a ha l hl) hidle' d
    refine ⟨st', hr.trans hr', hend, ?_⟩
    rw [hwork]
    exact .cons hself (hnew.with_mem.imp fun y d' hyd => hold y hyd.1.1 _ hyd.2)

/-- A call can make just the nodes with the given data. -/
theorem WordCall.exists_call (h : WordTree st holder) (ha : a ∈ st.state.pending) (hu : holder a = some u)
    (hbelow : ∀ x ∈ st.work u, st.tree.mem.parent x = a) (hl : st.tree.ledger.Path a l) (ds : List D) :
    ∃ st', Reaches (WordCall u a) st st' ∧ st'.tree.Idle (some u) ∧
      List.Forall₂ (fun x d => st'.tree.ledger.Path x (d :: l)) (st'.work u) ds := by
  obtain ⟨mid, hr, hnil, hidle⟩ := WordCall.exists_dropped h ha hu hbelow
  obtain ⟨holder', h', hu', hkeeps⟩ := WordCall.reaches h ha hu hbelow hr
  obtain ⟨st', hr', hend, hnew⟩ :=
    WordCall.exists_made h' (hkeeps.state ▸ ha) hu' (hkeeps.keeps a ha l hl) hnil hidle ds
  exact ⟨st', hr.trans hr', hend, hnew⟩

end Calls

/-! ### The simulation -/

variable {S : Solver N} {path : N → List D} {sch : Scheduler} {c : Container}
  {st st' mid : WordState D sch.numThreads.toNat} {s s' : State N sch.numThreads.toNat} {node : ℕ → N} {a : ℕ}
  {new : List ℕ}

/-- The state on addresses and the state on nodes are at the same point. -/
structure WordDecodes (path : N → List D) (sch : Scheduler) (st : WordState D sch.numThreads.toNat)
    (s : State N sch.numThreads.toNat) : Prop where
  inv : WordInv sch st
  books : LedgerDecodes path sch st.books s

omit [SetData D] in
/-- What is read from the open nodes is what the ledger says. -/
theorem WordInv.stands_iff (h : WordInv sch st) : WordStands path st node ↔ st.books.Stands path node := by
  obtain ⟨holder, htree⟩ := h.tree
  exact forall₂_congr fun _ ha => htree.reads_iff (htree.live (.inl ha))

omit [SetData D] in
/-- What is read of the nodes in the making is what the ledger says. -/
theorem WordTree.made_iff {holder : ℕ → Option (Option (Fin sch.numThreads.toNat))} (h : WordTree mid holder)
    {u : Option (Fin sch.numThreads.toNat)} (hperm : (mid.work u).Perm new) {nodes : List N} :
    List.Forall₂ (fun x n => mid.tree.mem.Reads x (path n)) new nodes ↔
      List.Forall₂ (fun x n => mid.tree.ledger.Path x (path n)) new nodes := by
  have hlive : ∀ x ∈ new, x ∈ mid.tree.live := by
    intro x hx
    have hwork : x ∈ mid.books.working := LedgerState.mem_working (hperm.mem_iff.mpr hx)
    exact h.live (.inr hwork)
  constructor
  · exact fun hnew => hnew.with_mem.imp fun x n hxn => (h.reads_iff (hlive x hxn.1.1)).mp hxn.2
  · exact fun hnew => hnew.with_mem.imp fun x n hxn => (h.reads_iff (hlive x hxn.1.1)).mpr hxn.2

namespace WordDecodes

theorem callStep (h : WordDecodes path sch st s) (hstep : WordCallStep st st') : WordDecodes path sch st' s := by
  obtain ⟨hinv, hstate, hkeeps⟩ := hstep.wordInv h.inv
  exact ⟨hinv, h.books.keeps hinv.books hstate hkeeps⟩

theorem callSteps (h : WordDecodes path sch st s) (hr : Reaches WordCallStep st st') :
    WordDecodes path sch st' s := by
  induction hr with
  | refl => exact h
  | tail _ hstep ih => exact ih.callStep hstep

omit [SetData D] in
theorem wake (h : WordDecodes path sch st s) (hstep : WordOutside Wake st st') :
    ∃ s', Wake s s' ∧ WordDecodes path sch st' s' := by
  obtain ⟨hinv, _⟩ := wake_wordInv h.inv hstep
  obtain ⟨hwake⟩ := hstep
  obtain ⟨s', hwake', h'⟩ := h.books.wake hwake hinv.books
  exact ⟨s', hwake', hinv, h'⟩

/-- Each step on the trees is a step on the nodes, or within a call. -/
theorem simulated (hinj : Function.Injective path) (hmin : 0 < sch.numMinimumNodes.toNat)
    (h : WordDecodes path sch st s) (hi : s.shared.interrupted = false) (hstep : WordStep S path sch c st st') :
    ∃ s', Step S sch c s s' ∧ WordDecodes path sch st' s' := by
  have hi' : st.state.shared.interrupted = false := by
    obtain ⟨_, _, _, _, rfl⟩ := h.books.eq_map
    exact hi
  obtain ⟨hinv, _⟩ := hstep.wordInv hmin h.inv
  obtain ⟨holder, htree⟩ := h.inv.tree
  cases hstep with
  | quiet hnode hstep hkeep =>
    have hnode := h.inv.stands_iff.mp hnode
    obtain ⟨_, _, hs⟩ := h.books.exists_eq hinj hnode
    obtain ⟨hstep', h'⟩ := h.books.quiet hi' hnode hstep hkeep hinv.books hs
    exact ⟨_, hstep', hinv, h'⟩
  | @first mid node f a rest new hnode hm _ hsize hp _ hcall _ hperm hnew =>
    have hnode := h.inv.stands_iff.mp hnode
    obtain ⟨_, _, hs⟩ := h.books.exists_eq hinj hnode
    have hself : a ∈ st.state.main.nodes := by
      rw [hm]
      exact hp.perm.mem_iff.mpr List.mem_cons_self
    have ha : a ∈ st.state.pending := by simp [State.pending, hself]
    have hnil : st.work none = [] := h.inv.books.main
    obtain ⟨holder', hmid, _, hkeeps⟩ := WordCall.reaches htree ha
      (htree.located (some none) a (LedgerState.mem_place_main hself)) (CallKeeps.refl hnil).below hcall
    have hgiven : ∀ b l, mid.tree.ledger.Path b l → (mid.tree.release (some none) a).ledger.Path b l := fun _ _ => id
    obtain ⟨hstep', h'⟩ := h.books.first mid.books hinj hnode hm hi' hsize hp hmid.held hkeeps.state hkeeps.keeps hperm
      ((hmid.made_iff hperm).mp hnew) hgiven hinv.books hs
    exact ⟨_, hstep', hinv, h'⟩
  | @branch node i a new hnode hpc _ hperm hnew =>
    have hnode := h.inv.stands_iff.mp hnode
    obtain ⟨_, _, hs⟩ := h.books.exists_eq hinj hnode
    have hgiven : ∀ b l, st.tree.ledger.Path b l → (st.tree.release (some (some i)) a).ledger.Path b l :=
      fun _ _ => id
    obtain ⟨hstep', h'⟩ := h.books.branch (c := c) hinj hnode hpc hperm
      ((htree.made_iff hperm).mp hnew) hgiven hinv.books hs
    exact ⟨_, hstep', hinv, h'⟩
  | drop _ hint => exact absurd (hint.symm.trans hi') (by simp)
  | @clean node nodes rest a hnode hm hp =>
    have hnode := h.inv.stands_iff.mp hnode
    obtain ⟨_, _, hs⟩ := h.books.exists_eq hinj hnode
    have hgiven : ∀ b l, st.tree.ledger.Path b l → (st.tree.release (some none) a).ledger.Path b l := fun _ _ => id
    obtain ⟨hstep', h'⟩ := h.books.clean hnode hm hp hgiven hinv.books hs
    exact ⟨_, hstep', hinv, h'⟩

end WordDecodes

/-- All calls under way can go on to their end. -/
theorem WordInv.exists_calm (h : WordInv sch st) :
    ∃ mid, Reaches WordCallStep st mid ∧ mid.state = st.state ∧ ∀ p, mid.tree.Idle p := by
  have hsome : ∀ l : List (Option (Fin sch.numThreads.toNat)),
      ∃ mid, Reaches WordCallStep st mid ∧ mid.state = st.state ∧ ∀ u ∈ l, mid.tree.Idle (some u) := by
    intro l
    induction l with
    | nil => exact ⟨st, .refl, rfl, fun _ hu => by cases hu⟩
    | cons u l ih =>
      obtain ⟨mid, hr, hstate, hidle⟩ := ih
      have hinv : WordInv sch mid := by
        clear hstate hidle
        induction hr with
        | refl => exact h
        | tail _ hstep ih => exact (hstep.wordInv ih).1
      obtain ⟨holder, htree⟩ := hinv.tree
      obtain ⟨tree, hadv, hend⟩ := exists_settled htree u
      refine ⟨_, hr.trans hadv.steps, hstate, fun v hv => ?_⟩
      rcases List.mem_cons.mp hv with rfl | hv
      · exact hend
      · exact hadv.idle _ (hidle v hv)
  obtain ⟨mid, hr, hstate, hidle⟩ := hsome Finset.univ.toList
  have hinv : WordInv sch mid := by
    clear hstate hidle
    induction hr with
    | refl => exact h
    | tail _ hstep ih => exact (hstep.wordInv ih).1
  refine ⟨mid, hr, hstate, fun p => ?_⟩
  cases p with
  | none => exact hinv.queue
  | some u => exact hidle u (Finset.mem_toList.mpr (Finset.mem_univ u))

/-- A call of `branch` can make the nodes that it has to return. -/
theorem WordTree.exists_branched {holder : ℕ → Option (Option (Fin sch.numThreads.toNat))} (P : S.Stored path)
    (h : WordTree st holder) (ha : a ∈ st.state.pending) {u : Option (Fin sch.numThreads.toNat)}
    (hu : holder a = some u)
    (hbelow : ∀ x ∈ st.work u, st.tree.mem.parent x = a) (hnode : st.books.Stands path node)
    (hexp : S.Explored (node a)) (r : ValueType) (sol : Solution) :
    ∃ mid, Reaches (WordCall u a) st mid ∧ mid.tree.Idle (some u) ∧
      List.Forall₂ (fun x n => mid.tree.ledger.Path x (path n)) (mid.work u) (S.branch (node a) r sol).nodes := by
  have hchild : ∀ m, ∃ d, m ∈ (S.branch (node a) r sol).nodes → path m = d :: path (node a) := by
    intro m
    by_cases hm : m ∈ (S.branch (node a) r sol).nodes
    · obtain ⟨d, hd⟩ := P.child hexp r sol m hm
      exact ⟨d, fun _ => hd⟩
    · exact ⟨default, fun hmem => absurd hmem hm⟩
  choose data hdata using hchild
  obtain ⟨mid, hr, hend, hnew⟩ := WordCall.exists_call h ha hu hbelow (hnode a ha)
    ((S.branch (node a) r sol).nodes.map data)
  rw [List.forall₂_map_right_iff] at hnew
  exact ⟨mid, hr, hend, hnew.with_mem.imp fun x m hxm => hdata m hxm.1.2 ▸ hxm.2⟩

/-- The steps of `solve` and its threads, after any steps of the calls under way. -/
def WordCoarse (S : Solver N) (path : N → List D) (sch : Scheduler) (c : Container)
    (st st' : WordState D sch.numThreads.toNat) : Prop :=
  ∃ mid, Reaches WordCallStep st mid ∧ WordStep S path sch c mid st'

/-- The steps of a call of a thread. -/
theorem wordCall_reaches {i : Fin sch.numThreads.toNat} (hpc : (st.state.threads i).pc = .branch a)
    (hr : Reaches (WordCall (some i) a) st st') : Reaches WordCallStep st st' ∧ st'.state = st.state := by
  induction hr with
  | refl => exact ⟨.refl, rfl⟩
  | tail _ hstep ih =>
    obtain ⟨hr, hstate⟩ := ih
    refine ⟨hr.tail (.call (hstate.symm ▸ hpc) hstep), Eq.trans ?_ hstate⟩
    cases hstep <;> rfl

/-- Each step on the nodes can be done on the trees between two calls. -/
theorem WordDecodes.follows_calm (P : S.Stored path) (hmin : 0 < sch.numMinimumNodes.toNat)
    (h : WordDecodes path sch st s) (hcalm : ∀ p, st.tree.Idle p) (hi : s.shared.interrupted = false)
    (hexp : ∀ n ∈ s.pending, S.Explored n) (hstep : Step S sch c s s') :
    ∃ st', WordCoarse S path sch c st st' ∧ WordDecodes path sch st' s' := by
  obtain ⟨node, created, released, hnode, rfl⟩ := h.books.eq_map
  have hreads := h.inv.stands_iff.mpr hnode
  obtain ⟨holder, htree⟩ := h.inv.tree
  have hpop : ∀ {l rest : List ℕ} {a : ℕ}, c.Pop S node l a rest → c.Pop (S.through node []) id l a rest :=
    pop_through.mpr
  cases hstep.origin hpop hi with
  | quiet hquiet hr =>
    have hstep : WordStep S path sch c st _ := .quiet hreads hquiet hr (fun _ => hcalm _) fun _ _ => hcalm _
    obtain ⟨hinv, _⟩ := hstep.wordInv hmin h.inv
    exact ⟨_, ⟨st, .refl, hstep⟩, hinv, (h.books.quiet hi hnode hquiet hr hinv.books rfl).2⟩
  | @first f a rest hm hsize hp =>
    have hm : st.state.main = .first f := hm
    have hself : a ∈ st.state.main.nodes := by
      rw [hm]
      exact hp.perm.mem_iff.mpr List.mem_cons_self
    have ha : a ∈ st.state.pending := by simp [State.pending, hself]
    have hexp : S.Explored (node a) := hexp _ (by
      have hnodes : (st.books.state.map node created released).main.nodes = f.nodes.map node := by
        change (st.state.main.map node).nodes = _
        rw [hm]
        rfl
      simp only [State.pending, Multiset.mem_add, Multiset.mem_coe, hnodes]
      exact .inl (.inl (List.mem_map_of_mem (hp.perm.mem_iff.mpr List.mem_cons_self))))
    have hu := htree.located (some none) a (LedgerState.mem_place_main hself)
    have hnil : st.work none = [] := h.inv.books.main
    obtain ⟨mid, hcall, hend, hnew⟩ :=
      htree.exists_branched P ha hu (CallKeeps.refl hnil).below hnode hexp f.record f.sol
    obtain ⟨holder', hmid, _, hkeeps⟩ := WordCall.reaches htree ha hu (CallKeeps.refl hnil).below hcall
    have hstep : WordStep S path sch c st _ :=
      .first hreads hm hi hsize hp (hcalm _) hcall hend (.refl _) ((hmid.made_iff (.refl _)).mpr hnew)
    obtain ⟨hinv, _⟩ := hstep.wordInv hmin h.inv
    have hgiven : ∀ b l, mid.tree.ledger.Path b l → (mid.tree.release (some none) a).ledger.Path b l := fun _ _ => id
    exact ⟨_, ⟨st, .refl, hstep⟩, hinv, (h.books.first mid.books P.injective hnode hm hi hsize hp hmid.held hkeeps.state
      hkeeps.keeps (.refl _) hnew hgiven hinv.books rfl).2⟩
  | @branch i a hpc =>
    have hpc : (st.state.threads i).pc = .branch a := hpc
    have hself : a ∈ (st.state.threads i).pending := Thread.mem_pending hpc
    have ha : a ∈ st.state.pending := Multiset.mem_of_le (st.state.thread_pending_le i) hself
    have hexp : S.Explored (node a) := hexp _ (Multiset.mem_of_le (State.thread_pending_le _ i)
      (Thread.mem_pending (Thread.pc_map_branch.mpr ⟨a, hpc, rfl⟩)))
    have hu := htree.located _ a (LedgerState.mem_place_thread hself)
    obtain ⟨mid, hcall, hend, hnew⟩ := htree.exists_branched P ha hu (h.inv.below i a hpc) hnode hexp
      (st.state.threads i).record (st.state.threads i).sol
    obtain ⟨holder', hmid, _, hkeeps⟩ := WordCall.reaches htree ha hu (h.inv.below i a hpc) hcall
    obtain ⟨hsteps, hstate⟩ := wordCall_reaches hpc hcall
    have h' := h.callSteps hsteps
    have hsub : ∀ b ∈ mid.state.pending, b ∈ st.state.pending := fun b hb => hstate ▸ hb
    have hnode' : mid.books.Stands path node := hnode.keeps hkeeps.keeps hsub
    have hpc' : (mid.state.threads i).pc = .branch a := hstate.symm ▸ hpc
    have hnew' : List.Forall₂ (fun x n => mid.tree.ledger.Path x (path n)) (mid.work (some i))
        (S.branch (node a) (mid.state.threads i).record (mid.state.threads i).sol).nodes := hstate.symm ▸ hnew
    have hstep : WordStep S path sch c mid _ := .branch (h'.inv.stands_iff.mpr hnode') hpc' hend (.refl _)
      ((hmid.made_iff (.refl _)).mpr hnew')
    obtain ⟨hinv, _⟩ := hstep.wordInv hmin h'.inv
    have hgiven : ∀ b l, mid.tree.ledger.Path b l → (mid.tree.release (some (some i)) a).ledger.Path b l :=
      fun _ _ => id
    have hsame : st.books.state.map node created released = mid.books.state.map node created released :=
      congrArg (State.map node created released) hstate.symm
    exact ⟨_, ⟨mid, hsteps, hstep⟩, hinv,
      (h'.books.branch (c := c) P.injective hnode' hpc' (.refl _) hnew' hgiven hinv.books hsame).2⟩
  | @clean nodes rest a hm hp =>
    have hm : st.state.main = .clean nodes := hm
    have hstep : WordStep S path sch c st _ := .clean hreads hm hp (hcalm _)
    obtain ⟨hinv, _⟩ := hstep.wordInv hmin h.inv
    have hgiven : ∀ b l, st.tree.ledger.Path b l → (st.tree.release (some none) a).ledger.Path b l := fun _ _ => id
    exact ⟨_, ⟨st, .refl, hstep⟩, hinv, (h.books.clean hnode hm hp hgiven hinv.books rfl).2⟩

/-- Each step on the nodes can be done on the trees, once the calls under way have ended. -/
theorem WordDecodes.follows (P : S.Stored path) (hmin : 0 < sch.numMinimumNodes.toNat) (h : WordDecodes path sch st s)
    (hi : s.shared.interrupted = false) (hexp : ∀ n ∈ s.pending, S.Explored n) (hstep : Step S sch c s s') :
    ∃ st', WordCoarse S path sch c st st' ∧ WordDecodes path sch st' s' := by
  obtain ⟨calm, hr, _, hcalm⟩ := h.inv.exists_calm
  obtain ⟨st', ⟨mid, hr', hstep'⟩, h'⟩ := (h.callSteps hr).follows_calm P hmin hcalm hi hexp hstep
  exact ⟨st', ⟨mid, hr.trans hr', hstep'⟩, h'⟩

/-! ### Total correctness -/

/-- A step of an uninterrupted run. -/
def WordUninterrupted (S : Solver N) (path : N → List D) (sch : Scheduler) (c : Container)
    (st st' : WordState D sch.numThreads.toNat) : Prop :=
  WordStep S path sch c st st' ∨ WordCallStep st st' ∨ WordOutside Wake st st'

theorem wordStart_decodes {d : D} (hrank : S.rank > minRankValue) (hroot : path S.initialNode = [d])
    (record : ValueType) :
    WordDecodes path sch (wordStart S sch d record) (start S sch (construct sch) record) := by
  have hinv := wordStart_inv S sch d record
  have hnode : (wordStart S sch d record).books.Stands path fun _ => S.initialNode := by
    intro a ha
    change a ∈ (wordStart S sch d record).state.pending at ha
    rw [wordStart_pending, if_pos hrank, Multiset.mem_singleton] at ha
    have htree : (wordStart S sch d record).tree = wordRooted _ d := if_pos hrank
    change (wordStart S sch d record).tree.ledger.Path a _
    rw [htree, ha, hroot]
    exact (wordRooted_spec _ d).path
  refine ⟨hinv, .of_eq hinv.books hnode ?_⟩
  rw [start, if_pos hrank, WordState.books, wordStart, start]
  simp only
  rw [if_pos (by exact hrank)]
  rfl

variable {X : Type*} {cost : X → ValueType} {sols : N → Set X} {init v : ValueType}

/-- Related states, the one on nodes in an uninterrupted search. -/
def WordRefines (S : Solver N) (path : N → List D) (sch : Scheduler) (c : Container) (cost : X → ValueType)
    (sols : N → Set X) (init : ValueType) (st : WordState D sch.numThreads.toNat)
    (s : State N sch.numThreads.toNat) : Prop :=
  WordDecodes path sch st s ∧ Searching S sch c (Even sch) cost sols init s

/-- What `solve` on the trees has done at its return: the nodes left are those whose count has lost a write, and
those above them. -/
def WordReturns (v : ValueType) {T : ℕ} (st : WordState D T) : Prop :=
  ∃ sol, st.state.main = .returned sol ∧ sol.value = v ∧ sol.route = [] ∧
    (∀ a, a ∈ st.tree.live ↔ ∃ b ∈ st.tree.raced, st.tree.Above a b) ∧
    (st.tree.tree.numUnfreedNodes = 0 ↔ st.tree.raced = ∅)

namespace WordRefines

theorem coarse (C : S.Contract cost sols) (P : S.Stored path) (hmin : 0 < sch.numMinimumNodes.toNat) :
    Simulates (WordRefines S path sch c cost sols init) (WordCoarse S path sch c) (Step S sch c) := by
  rintro st s st' ⟨h, hs⟩ ⟨mid, hr, hstep⟩
  obtain ⟨s', hstep', h'⟩ := (h.callSteps hr).simulated P.injective hmin hs.running.uninterrupted hstep
  exact ⟨s', hstep', h', Searching.step C hmin hs hstep'⟩

theorem follows (C : S.Contract cost sols) (P : S.Stored path) (hmin : 0 < sch.numMinimumNodes.toNat) :
    Simulates (fun s st => WordRefines S path sch c cost sols init st s) (Step S sch c)
      (WordCoarse S path sch c) := by
  rintro s st s' ⟨h, hs⟩ hstep
  obtain ⟨st', hstep', h'⟩ := h.follows P hmin hs.running.uninterrupted hs.explored hstep
  exact ⟨st', hstep', h', Searching.step C hmin hs hstep⟩

theorem returns (hT : 0 < sch.numThreads.toNat) (hmin : 0 < sch.numMinimumNodes.toNat)
    (hv : S.Optimal cost sols init v) (h : WordRefines S path sch c cost sols init st s)
    (hstuck : Stuck (Step S sch c) s) : WordReturns v st := by
  obtain ⟨h, hs⟩ := h
  obtain ⟨sol, hsol⟩ := hs.running.returned_of_stuck hT hmin hstuck
  have hhand := hs.running.handed
  simp only [MainHanded, hsol] at hhand
  have hpend := hs.running.pending_returned hsol
  have hvalue := (hs.optimal hsol).unique hv
  obtain ⟨node, created, released, _, rfl⟩ := h.books.eq_map
  have hm : st.state.main = .returned sol := Main.map_eq_returned.mp hsol
  have hqueue : st.state.shared.queueSets = [] := by
    have hq : ((st.state.shared.queueSets.map node : List N) : Multiset N) = 0 := (add_eq_zero.mp hpend).2
    exact List.map_eq_nil_iff.mp ((Multiset.coe_eq_zero _).mp hq)
  obtain ⟨hlive, hunfreed⟩ := h.inv.safe.returned sol hm hqueue
  exact ⟨sol, hm, hvalue, hhand.1.2, hlive, hunfreed⟩

/-- Every point of a run stands for one of a run on the nodes. -/
theorem of_reaches (C : S.Contract cost sols) (P : S.Stored path) (hrank : S.rank > minRankValue)
    (hmin : 1 ≤ sch.numMinimumNodes.toNat) (hprod : sch.numThreads.toNat * sch.numMinimumNodes.toNat < 2 ^ 32) {d : D}
    (hroot : path S.initialNode = [d]) (record : ValueType)
    (hr : Reaches (WordUninterrupted S path sch c) (wordStart S sch d record) st) :
    ∃ s, WordRefines S path sch c cost sols (min record S.initialSolution.value) st s := by
  induction hr with
  | refl =>
    have hfirst := firstLeaves_even (S := S) (c := c) hprod hmin record
    exact ⟨_, wordStart_decodes hrank hroot record, .start hrank rfl rfl rfl hfirst⟩
  | tail _ hstep ih =>
    obtain ⟨s, h, hs⟩ := ih
    rcases hstep with hstep | hcall | hwake
    · obtain ⟨s', hstep', h'⟩ := h.simulated P.injective hmin hs.running.uninterrupted hstep
      exact ⟨s', h', Searching.step C hmin hs hstep'⟩
    · exact ⟨s, h.callStep hcall, hs⟩
    · obtain ⟨s', hwake', h'⟩ := h.wake hwake
      exact ⟨s', h', Searching.preserved C hmin hs (.inr hwake')⟩

end WordRefines

/-- `ParallelBNB::solve` with the counts of its trees kept word by word and the reads and writes of its threads
interleaved in any way: wherever a run gets, it comes to its end, and the end is the return of the optimum. Lost
writes do no more than leave nodes behind: the `CHECK` passes just where none was lost. -/
theorem parallel_words_correct (C : S.Contract cost sols) (P : S.Stored path) (hrank : S.rank > minRankValue)
    (hT : 1 ≤ sch.numThreads.toNat) (hmin : 1 ≤ sch.numMinimumNodes.toNat)
    (hprod : sch.numThreads.toNat * sch.numMinimumNodes.toNat < 2 ^ 32) {d : D} (hroot : path S.initialNode = [d])
    (c : Container) (record : ValueType) :
    ∃ v, S.Optimal cost sols (min record S.initialSolution.value) v ∧
      ∀ st, Reaches (WordUninterrupted S path sch c) (wordStart S sch d record) st →
        TotallyCorrect (WordCoarse S path sch c) st (WordReturns v) := by
  obtain ⟨_, _, _, v, hv, _⟩ := (serial_correct C hrank .lifo record).exists_end
  refine ⟨v, hv, fun st hr => ?_⟩
  obtain ⟨s, h⟩ := WordRefines.of_reaches C P hrank hmin hprod hroot record hr
  have hnodes : TotallyCorrect (Step S sch c) s (Stuck (Step S sch c)) :=
    ⟨(Searching.returns C hT hmin hv h.2).terminates s .refl, fun _ _ => id⟩
  exact .of_simulates (WordRefines.coarse C P hmin) (WordRefines.follows C P hmin) h
    (fun _ _ h' hstuck => h'.returns hT hmin hv hstuck) hnodes

/-- Two threads over the search tree with two leaves. -/
theorem parallel_words_correct_pair :
    ∃ v, pairSolver.Optimal pairCost pairSols (min mVal pairSolver.initialSolution.value) v ∧
      ∀ st, Reaches (WordUninterrupted pairSolver pairPath (.giving ⟨2, 1, 3⟩) .lifo)
        (wordStart pairSolver (.giving ⟨2, 1, 3⟩) 0 mVal) st →
        TotallyCorrect (WordCoarse pairSolver pairPath (.giving ⟨2, 1, 3⟩) .lifo) st (WordReturns v) :=
  parallel_words_correct pairSolver_contract pairPath_stored (by decide) (by decide) (by decide) (by decide) rfl .lifo
    mVal

end Parallel

end Optimer
