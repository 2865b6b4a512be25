import Optimer.Bnb.MTCountsLedger
import Optimer.Bnb.ParallelMemory

/-! `ParallelBNB::solve` where the counts of its trees are kept word by word: `create_node` and `release_node` are
many steps, and those of different threads run into each other. Writes of a count can be lost. -/

namespace Optimer
open Transition

variable {D N : Type*}

/-- Where a call of `create_node` or `release_node` can be under way. -/
def Pc.Calls : Pc N → Prop
  | .branch _ | .check | .loop => True
  | _ => False

theorem Thread.mem_pending_of_mem {t : Thread N} {n : N} (h : n ∈ t.listNodes ∨ n ∈ t.nodes) : n ∈ t.pending := by
  rw [Thread.pending, Multiset.mem_add, Multiset.mem_add]
  exact .inl h

namespace Parallel

/-- The state of `solve` with its trees. The thread `some u` of the trees is `u`, where `none` is that of `solve`;
`none` stands for the queue of the scheduler, which makes no calls. -/
structure WordState (D : Type*) (T : ℕ) where
  state : State ℕ T
  tree : MTCounts (Option (Option (Fin T))) D
  work : Option (Fin T) → List ℕ

def WordState.books {T : ℕ} (st : WordState D T) : LedgerState D T := ⟨st.state, st.tree.ledger, st.work⟩

section Model

variable [SetData D]

/-- What `branch` does with the tree on the node `a` in the thread `u`. -/
inductive WordCall {T : ℕ} (u : Option (Fin T)) (a : ℕ) : WordState D T → WordState D T → Prop
  | create {st : WordState D T} (hi : st.tree.Idle (some u)) : WordCall u a st { st with
      tree := st.tree.create (some u) a
      work := Function.update st.work u (st.tree.created (some u) :: st.work u) }
  | write {st : WordState D T} {x : ℕ} (hi : st.tree.Idle (some u)) (hx : x ∈ st.work u) (d : D) :
      WordCall u a st { st with tree := { st.tree with toMTRun := st.tree.toMTRun.write x d } }
  | release {st : WordState D T} {x : ℕ} (hi : st.tree.Idle (some u)) (hx : x ∈ st.work u) :
      WordCall u a st { st with
        tree := st.tree.release (some u) x
        work := Function.update st.work u ((st.work u).erase x) }
  | advance {st : WordState D T} : WordCall u a st { st with tree := st.tree.advance (some u) }

/-- What the open addresses stand for. -/
def WordStands {T : ℕ} (path : N → List D) (st : WordState D T) (node : ℕ → N) : Prop :=
  ∀ a ∈ st.state.pending, st.tree.mem.Reads a (path (node a))

instance {T : ℕ} [DecidableEq D] {path : N → List D} {st : WordState D T} {node : ℕ → N} :
    Decidable (WordStands path st node) :=
  inferInstanceAs (Decidable (∀ a ∈ st.state.pending, _))

/-- The steps of `solve` and its threads outside of the calls of the trees. Who takes one is between two calls;
`release_node` is started and goes on afterwards. -/
inductive WordStep (S : Solver N) (path : N → List D) (sch : Scheduler) (c : Container) :
    WordState D sch.numThreads.toNat → WordState D sch.numThreads.toNat → Prop
  /-- A step that releases no node. -/
  | quiet {st : WordState D sch.numThreads.toNat} {node : ℕ → N} {state : State ℕ sch.numThreads.toNat}
      (hnode : WordStands path st node) (h : Step (S.through node []) sch c st.state state)
      (hkeep : state.shared.released = st.state.shared.released)
      (hmain : state.main ≠ st.state.main → st.tree.Idle (some none))
      (hthreads : ∀ i, state.threads i ≠ st.state.threads i → st.tree.Idle (some (some i))) :
      WordStep S path sch c st { st with state }
  /-- A round of the first phase; the other threads do not exist yet. -/
  | first {st mid : WordState D sch.numThreads.toNat} {node : ℕ → N} {f : First ℕ} {a : ℕ} {rest new : List ℕ}
      (hnode : WordStands path st node) (hm : st.state.main = .first f)
      (hi : st.state.shared.interrupted = false) (hsize : f.nodes.length < bound sch)
      (hp : c.Pop S node f.nodes a rest) (hidle : st.tree.Idle (some none)) (hcall : Reaches (WordCall none a) st mid)
      (hend : mid.tree.Idle (some none)) (hperm : (mid.work none).Perm new)
      (hnew : List.Forall₂ (fun x n => mid.tree.mem.Reads x (path n)) new
        (S.branch (node a) f.record f.sol).nodes) :
      WordStep S path sch c st
        { state := round (S.through node new) st.state f a rest
          tree := mid.tree.release (some none) a
          work := Function.update mid.work none [] }
  /-- The end of a call of `branch`. -/
  | branch {st : WordState D sch.numThreads.toNat} {node : ℕ → N} {i : Fin sch.numThreads.toNat} {a : ℕ}
      {new : List ℕ} (hnode : WordStands path st node) (hpc : (st.state.threads i).pc = .branch a)
      (hidle : st.tree.Idle (some (some i))) (hperm : (st.work (some i)).Perm new)
      (hnew : List.Forall₂ (fun x n => st.tree.mem.Reads x (path n)) new
        (S.branch (node a) (st.state.threads i).record (st.state.threads i).sol).nodes) :
      WordStep S path sch c st
        { state := st.state.apply i ((st.state.threads i).branch (S.through node new) st.state.shared a)
          tree := st.tree.release (some (some i)) a
          work := Function.update st.work (some i) [] }
  /-- `clean_nodes` in a thread that has been interrupted. -/
  | drop {st : WordState D sch.numThreads.toNat} {i : Fin sch.numThreads.toNat} {a : ℕ} {rest : List ℕ}
      (hpc : (st.state.threads i).pc = .loop) (hi : st.state.shared.interrupted = true)
      (hn : (st.state.threads i).nodes = a :: rest) (hidle : st.tree.Idle (some (some i))) :
      WordStep S path sch c st { st with
        state := { st.state with
          threads := Function.update st.state.threads i { st.state.threads i with nodes := rest }
          shared := { st.state.shared with released := st.state.shared.released + {a} } }
        tree := st.tree.release (some (some i)) a }
  /-- `clean_nodes` in `solve`. -/
  | clean {st : WordState D sch.numThreads.toNat} {node : ℕ → N} {nodes rest : List ℕ} {a : ℕ}
      (hnode : WordStands path st node) (hm : st.state.main = .clean nodes) (hp : c.Pop S node nodes a rest)
      (hidle : st.tree.Idle (some none)) :
      WordStep S path sch c st { st with
        state := { st.state with
          main := .clean rest
          shared := { st.state.shared with released := st.state.shared.released + {a} } }
        tree := st.tree.release (some none) a }

/-- A step within a call of `branch` of a started thread, and the next read or write of a call under way. -/
inductive WordCallStep {T : ℕ} : WordState D T → WordState D T → Prop
  | call {st st' : WordState D T} {i : Fin T} {a : ℕ} (hpc : (st.state.threads i).pc = .branch a)
      (h : WordCall (some i) a st st') : WordCallStep st st'
  | advance {st : WordState D T} (u : Option (Fin T)) :
      WordCallStep st { st with tree := st.tree.advance (some u) }

/-- What `notify_all`, spurious wake-ups and the signal do. -/
inductive WordOutside {T : ℕ} (R : State ℕ T → State ℕ T → Prop) : WordState D T → WordState D T → Prop
  | outside {st : WordState D T} {state : State ℕ T} (h : R st.state state) : WordOutside R st { st with state }

/-- A step of a run during which the signal may arrive. -/
def WordInterruptible (S : Solver N) (path : N → List D) (sch : Scheduler) (c : Container)
    (st st' : WordState D sch.numThreads.toNat) : Prop :=
  WordStep S path sch c st st' ∨ WordCallStep st st' ∨ WordOutside Wake st st' ∨ WordOutside Signal st st'

/-- The trees before the first call; nobody holds a node. -/
def wordTrees (D : Type*) [SetData D] (T : ℕ) : MTCounts (Option (Option (Fin T))) D := MTCounts.start _ D none

/-- The tree with the root, which `get_initial_node` has filled in. -/
def wordRooted (T : ℕ) (d : D) : MTCounts (Option (Option (Fin T))) D :=
  let made := (wordTrees D T).create (some none) 0
  { made with toMTRun := made.toMTRun.write ((wordTrees D T).created (some none)) d }

/-- `solve` up to its first loop, on a fresh object. -/
def wordStart (S : Solver N) (sch : Scheduler) (d : D) (record : ValueType) :
    WordState D sch.numThreads.toNat where
  state := start { S.through (fun _ => S.initialNode) [] with
    initialNode := (wordTrees D sch.numThreads.toNat).created (some none) } sch (construct sch) record
  tree := if S.rank > minRankValue then wordRooted _ d else wordTrees D _
  work _ := []

end Model

/-! ### Who holds the nodes -/

section Places

variable {T : ℕ} {st : LedgerState D T} {holder : ℕ → Option (Option (Fin T))} {a : ℕ}

/-- The nodes that each thread and the queue have. -/
def LedgerState.place (st : LedgerState D T) : Option (Option (Fin T)) → Multiset ℕ
  | none => st.state.shared.queueSets
  | some none => st.state.main.nodes + st.work none
  | some (some i) => (st.state.threads i).pending + st.work (some i)

/-- Each node belongs to the one who has it. -/
def LedgerState.Located (st : LedgerState D T) (holder : ℕ → Option (Option (Fin T))) : Prop :=
  ∀ p, ∀ a ∈ st.place p, holder a = p

namespace LedgerState

theorem sum_place (st : LedgerState D T) : ∑ p, st.place p = st.state.pending + st.working := by
  simp only [Fintype.sum_option, place, Finset.sum_add_distrib, State.pending, State.sum, working]
  ac_rfl

theorem mem_place : a ∈ st.state.pending + st.working ↔ ∃ p, a ∈ st.place p := by
  rw [← sum_place, Multiset.mem_sum]
  simp only [Finset.mem_univ, true_and]

theorem mem_place_work {u : Option (Fin T)} (ha : a ∈ st.work u) : a ∈ st.place (some u) := by
  cases u <;> exact Multiset.mem_add.mpr (.inr (Multiset.mem_coe.mpr ha))

theorem mem_place_thread {i : Fin T} (ha : a ∈ (st.state.threads i).pending) : a ∈ st.place (some (some i)) :=
  Multiset.mem_add.mpr (.inl ha)

theorem mem_place_main (ha : a ∈ st.state.main.nodes) : a ∈ st.place (some none) :=
  Multiset.mem_add.mpr (.inl (Multiset.mem_coe.mpr ha))

/-- A node is in one place. -/
theorem place_unique (h : st.Held) {p q : Option (Option (Fin T))} (hp : a ∈ st.place p) (hq : a ∈ st.place q) :
    p = q := by
  by_contra hne
  have hnodup : (∑ p, st.place p).Nodup := by
    rw [sum_place, ← h.owned]
    exact st.ledger.owned.nodup
  have hone := Multiset.nodup_iff_count_le_one.mp hnodup a
  rw [Multiset.count_sum'] at hone
  have htwo : Multiset.count a (st.place p) + Multiset.count a (st.place q) ≤ ∑ p, Multiset.count a (st.place p) :=
    Finset.add_le_sum (f := fun p => Multiset.count a (st.place p)) (fun _ _ => Nat.zero_le _) (Finset.mem_univ p)
      (Finset.mem_univ q) hne
  have hp := Multiset.one_le_count_iff_mem.mpr hp
  have hq := Multiset.one_le_count_iff_mem.mpr hq
  omega

theorem exists_located (h : st.Held) : ∃ holder, st.Located holder := by
  have hall : ∀ a, ∃ p, ∀ q, a ∈ st.place q → p = q := by
    intro a
    by_cases ha : ∃ p, a ∈ st.place p
    · obtain ⟨p, hp⟩ := ha
      exact ⟨p, fun q hq => place_unique h hp hq⟩
    · exact ⟨none, fun q hq => absurd ⟨q, hq⟩ ha⟩
  choose holder hholder using hall
  exact ⟨holder, fun p a ha => hholder a p ha⟩

theorem mem_place_update (st : LedgerState D T) {ledger : Ledger D} {u : Option (Fin T)} {l : List ℕ}
    {p : Option (Option (Fin T))}
    (ha : a ∈ LedgerState.place ⟨st.state, ledger, Function.update st.work u l⟩ p) :
    a ∈ st.place p ∨ p = some u ∧ a ∈ l := by
  have hwork : ∀ v, a ∈ Function.update st.work u l v → a ∈ st.work v ∨ some v = some u ∧ a ∈ l := by
    intro v hv
    by_cases hvu : v = u
    · subst hvu
      rw [Function.update_self] at hv
      exact .inr ⟨rfl, hv⟩
    · rw [Function.update_of_ne hvu] at hv
      exact .inl hv
  cases p with
  | none => exact .inl ha
  | some v =>
    have hv : a ∈ Function.update st.work u l v → a ∈ st.place (some v) ∨ some v = some u ∧ a ∈ l :=
      fun hmem => (hwork v hmem).imp_left mem_place_work
    cases v with
    | none => exact (Multiset.mem_add.mp ha).elim (fun hnodes => .inl (Multiset.mem_add.mpr (.inl hnodes))) hv
    | some i => exact (Multiset.mem_add.mp ha).elim (fun hnodes => .inl (Multiset.mem_add.mpr (.inl hnodes))) hv

/-- A thread that has put what it has made into its container has the nodes in there. -/
theorem mem_main_of_place {state : State ℕ T} {ledger : Ledger D} {work : Option (Fin T) → List ℕ}
    (ha : a ∈ LedgerState.place ⟨state, ledger, Function.update work none []⟩ (some none)) :
    a ∈ state.main.nodes := by
  refine (Multiset.mem_add.mp ha).elim Multiset.mem_coe.mp fun hwork => ?_
  change a ∈ (Function.update work none [] none : Multiset ℕ) at hwork
  rw [Function.update_self] at hwork
  cases hwork

theorem mem_thread_of_place {state : State ℕ T} {ledger : Ledger D} {work : Option (Fin T) → List ℕ} {i : Fin T}
    (ha : a ∈ LedgerState.place ⟨state, ledger, Function.update work (some i) []⟩ (some (some i))) :
    a ∈ (state.threads i).pending := by
  refine (Multiset.mem_add.mp ha).elim id fun hwork => ?_
  change a ∈ (Function.update work (some i) [] (some i) : Multiset ℕ) at hwork
  rw [Function.update_self] at hwork
  cases hwork

end LedgerState

end Places

/-! ### The invariant -/

section Tree

variable {T : ℕ} {st st' : WordState D T} {holder : ℕ → Option (Option (Fin T))} {u : Option (Fin T)} {a b x : ℕ}

/-- The trees with the holders of the nodes. The nodes in containers have lost their parents: these have been
branched on. -/
structure WordTree (st : WordState D T) (holder : ℕ → Option (Option (Fin T))) : Prop where
  inv : (st.tree.heldBy holder).Inv
  held : st.books.Held
  located : st.books.Located holder
  root : ∀ a ∈ st.state.pending, st.tree.mem.parent a ∉ st.tree.owned

namespace WordTree

theorem mem_owned (h : WordTree st holder) : a ∈ st.tree.owned ↔ a ∈ st.state.pending ∨ a ∈ st.books.working :=
  h.held.mem_owned

theorem live (h : WordTree st holder) (ha : a ∈ st.state.pending ∨ a ∈ st.books.working) : a ∈ st.tree.live :=
  h.inv.shape.owned_subset (h.mem_owned.mpr ha)

theorem reads_iff (h : WordTree st holder) (ha : a ∈ st.tree.live) {l : List D} :
    st.tree.mem.Reads a l ↔ st.tree.ledger.Path a l :=
  h.inv.reads_iff ha

/-- A node below an owned one is in the making, while the holder of that is between two calls. -/
theorem child (h : WordTree st holder) {c : ℕ} (hc : c ∈ st.tree.live) (hp : st.tree.mem.parent c ∈ st.tree.owned)
    (hidle : st.tree.Idle (holder (st.tree.mem.parent c))) :
    ∃ u, c ∈ st.work u ∧ holder (st.tree.mem.parent c) = some u := by
  have hholds : c ∈ st.tree.owned ∧ holder c = holder (st.tree.mem.parent c) := by
    refine (h.inv.use.child c hc hp).resolve_right fun hpos => ?_
    have hzero : (st.tree.access (holder (st.tree.mem.parent c))).drops c = 0 := by
      rw [show st.tree.access _ = .idle from hidle, Access.drops_idle]
    exact hpos.ne' hzero
  rcases h.mem_owned.mp hholds.1 with hpend | hwork
  · exact absurd hp (h.root c hpend)
  · obtain ⟨u, _, hu⟩ := Multiset.mem_sum.mp hwork
    have hcu := h.located (some u) c (LedgerState.mem_place_work (Multiset.mem_coe.mp hu))
    exact ⟨u, Multiset.mem_coe.mp hu, hholds.2.symm.trans hcu⟩

/-- The nodes move between containers, while their holders are between two calls. -/
theorem moved (h : WordTree st holder) {state : State ℕ T} (hpend : state.pending = st.state.pending)
    (hheld : LedgerState.Held { st.books with state }) (hqueue : st.tree.Idle none)
    (hmain : state.main ≠ st.state.main → st.tree.Idle (some none))
    (hthreads : ∀ i, state.threads i ≠ st.state.threads i → st.tree.Idle (some (some i)))
    (hwork : ∀ u, ∀ c ∈ st.work u, ∃ i, u = some i ∧ (state.threads i).pc = .branch (st.tree.mem.parent c)) :
    ∃ holder', WordTree { st with state } holder' := by
  obtain ⟨holder', hlocated⟩ := LedgerState.exists_located hheld
  refine ⟨holder', ?_, hheld, hlocated, fun a ha => h.root a (hpend ▸ ha)⟩
  refine h.inv.hands fun a ha hne => ?_
  -- only nodes in containers can have moved
  have hstays : ∀ p, a ∈ LedgerState.place { st.books with state } p → holder a ≠ p :=
    fun p hp heq => hne ((hlocated p a hp).trans heq.symm)
  have hfree : ∀ u, a ∉ st.work u := fun u hu =>
    hstays (some u) (LedgerState.mem_place_work hu) (h.located (some u) a (LedgerState.mem_place_work hu))
  have hpend : a ∈ st.state.pending := by
    refine (h.mem_owned.mp ha).resolve_right fun hw => ?_
    obtain ⟨u, _, hu⟩ := Multiset.mem_sum.mp hw
    exact hfree u (Multiset.mem_coe.mp hu)
  obtain ⟨p, hp⟩ := LedgerState.mem_place.mp (Multiset.mem_add.mpr (.inl hpend) : a ∈ st.books.state.pending + _)
  have hself := h.located p a hp
  have hidle : st.tree.Idle (holder a) := by
    rw [hself]
    cases p with
    | none => exact hqueue
    | some u =>
      cases u with
      | none =>
        have hnodes : a ∈ st.state.main.nodes :=
          Multiset.mem_coe.mp ((Multiset.mem_add.mp hp).resolve_right (mt Multiset.mem_coe.mp (hfree none)))
        refine hmain fun heq => hstays (some none) (LedgerState.mem_place_main ?_) hself
        exact heq ▸ hnodes
      | some i =>
        have hnodes : a ∈ (st.state.threads i).pending :=
          (Multiset.mem_add.mp hp).resolve_right (mt Multiset.mem_coe.mp (hfree (some i)))
        refine hthreads i fun heq => hstays (some (some i)) (LedgerState.mem_place_thread ?_) hself
        exact heq ▸ hnodes
  refine ⟨hidle, h.root a hpend, fun c hc hca => ?_⟩
  obtain ⟨u, hu, hcu⟩ := h.child hc (hca.symm ▸ ha) (hca.symm ▸ hidle)
  obtain ⟨i, rfl, hpc⟩ := hwork u c hu
  exact hstays (some (some i)) (LedgerState.mem_place_thread (Thread.mem_pending (hca ▸ hpc))) (hca ▸ hcu)

end WordTree

variable [SetData D]

/-- What a step within a call of `branch` on the node `a` leaves, and of what other threads have. -/
structure CallKeeps (u : Option (Fin T)) (a : ℕ) (st st' : WordState D T) : Prop where
  state : st'.state = st.state
  work : ∀ v, v ≠ u → st'.work v = st.work v
  below : ∀ x ∈ st'.work u, st'.tree.mem.parent x = a
  parent : ∀ v, v ≠ u → ∀ x ∈ st.work v, st'.tree.mem.parent x = st.tree.mem.parent x
  access : ∀ p, p ≠ some u → st'.tree.access p = st.tree.access p
  keeps : st.books.Keeps st'.books

theorem WordCall.create_tree (h : WordTree st holder) (ha : a ∈ st.state.pending) (hu : holder a = some u)
    (hbelow : ∀ x ∈ st.work u, st.tree.mem.parent x = a) (hi : st.tree.Idle (some u)) :
    WordTree { st with
      tree := st.tree.create (some u) a
      work := Function.update st.work u (st.tree.created (some u) :: st.work u) }
      (Function.update holder (st.tree.created (some u)) (some u)) ∧
    CallKeeps u a st { st with
      tree := st.tree.create (some u) a
      work := Function.update st.work u (st.tree.created (some u) :: st.work u) } := by
  obtain ⟨rest, hrest, hupdate⟩ := st.books.working_update u
  obtain ⟨hnew, hnew0⟩ : st.tree.created (some u) ∉ st.tree.live ∧ st.tree.created (some u) ≠ 0 :=
    h.inv.created (some u)
  have hne : ∀ {b}, b ∈ st.state.pending ∨ b ∈ st.books.working → b ≠ st.tree.created (some u) :=
    fun hb => ne_of_mem_of_not_mem (h.live hb) hnew
  have hparent : ∀ b, b ≠ st.tree.created (some u) →
      (st.tree.create (some u) a).mem.parent b = st.tree.mem.parent b := fun b hb => by
    rw [MTCounts.create_parent]
    exact Function.update_of_ne hb ..
  have hself : (st.tree.create (some u) a).mem.parent (st.tree.created (some u)) = a := by
    rw [MTCounts.create_parent]
    exact Function.update_self ..
  refine ⟨⟨?_, ?_, fun p b hb => ?_, fun b hb hmem => ?_⟩,
    ⟨rfl, fun v hv => Function.update_of_ne hv .., ?_, ?_, ?_, ?_⟩⟩
  · rw [← MTCounts.heldBy_create]
    exact h.inv.create hi (.inr ⟨⟨h.mem_owned.mpr (.inl ha), hu⟩, h.root a ha⟩)
  · have hheld := h.held.create hnew hnew0 ha
    rw [hrest, ← Multiset.cons_add, Multiset.cons_coe, ← hupdate] at hheld
    exact hheld
  · rcases st.books.mem_place_update hb with hold | ⟨rfl, hnodes⟩
    · have hmem := Multiset.mem_add.mp (LedgerState.mem_place.mpr ⟨p, hold⟩)
      exact (Function.update_of_ne (hne hmem) ..).trans (h.located p b hold)
    · rcases List.mem_cons.mp hnodes with rfl | hold
      · exact Function.update_self ..
      · have hmem : b ∈ st.books.working := LedgerState.mem_working hold
        exact (Function.update_of_ne (hne (.inr hmem)) ..).trans
          (h.located _ b (LedgerState.mem_place_work hold))
  · have hmem : st.tree.mem.parent b ∈ insert (st.tree.created (some u)) st.tree.owned :=
      hparent b (hne (.inl hb)) ▸ hmem
    refine (Finset.mem_insert.mp hmem).elim (fun heq => ?_) (h.root b hb)
    have h0 : st.tree.mem.parent b ≠ 0 := fun h0 => hnew0 (heq.symm.trans h0)
    exact hnew (heq ▸ h.inv.shape.parent_mem b (h.live (.inl hb)) h0)
  · intro x hx
    change x ∈ Function.update st.work u (st.tree.created (some u) :: st.work u) u at hx
    rw [Function.update_self] at hx
    rcases List.mem_cons.mp hx with rfl | hx
    · exact hself
    · have hmem : x ∈ st.books.working := LedgerState.mem_working hx
      exact (hparent x (hne (.inr hmem))).trans (hbelow x hx)
  · intro v _ x hx
    have hmem : x ∈ st.books.working := LedgerState.mem_working hx
    exact hparent x (hne (.inr hmem))
  · exact fun p hp => MTCounts.create_access_of_ne hp
  · exact fun b hb l hl => h.held.path_create hnew (.inl hb) hl

/-- The next read or write of a call, of whichever thread. -/
theorem WordTree.advance (h : WordTree st holder) (p : Option (Option (Fin T))) :
    WordTree { st with tree := st.tree.advance p } holder := by
  have hadv := st.tree.advanced p
  have hinv : ((st.tree.advance p).heldBy holder).Inv := by
    rw [← MTCounts.heldBy_advance]
    exact h.inv.advance p
  refine ⟨hinv, ?_, h.located, fun b hb hmem => ?_⟩
  · have hledger := hinv.ledger
    change (st.tree.advance p).ledger.Inv at hledger
    rw [MTCounts.advance_ledger] at hledger
    have hheld := h.held.shrink hadv.live hledger
    rw [LedgerState.Held, WordState.books, MTCounts.advance_ledger]
    exact hheld
  · change (st.tree.advance p).mem.parent b ∈ (st.tree.advance p).owned at hmem
    rw [hadv.parent, hadv.owned] at hmem
    exact h.root b hb hmem

theorem CallKeeps.advance (hbelow : ∀ x ∈ st.work u, st.tree.mem.parent x = a) :
    CallKeeps u a st { st with tree := st.tree.advance (some u) } := by
  have hadv := st.tree.advanced (some u)
  refine ⟨rfl, fun _ _ => rfl, ?_, ?_, hadv.access, fun b _ l hl => ?_⟩
  · exact fun x hx => (congrFun hadv.parent x).trans (hbelow x hx)
  · exact fun v _ x _ => congrFun hadv.parent x
  · simp only [WordState.books, MTCounts.advance_ledger] at hl ⊢
    exact hl

omit [SetData D] in
/-- `release_node` of a node in the making. -/
theorem WordCall.release_tree (h : WordTree st holder) (hi : st.tree.Idle (some u)) (hx : x ∈ st.work u)
    (hbelow : ∀ x ∈ st.work u, st.tree.mem.parent x = a) :
    WordTree { st with
      tree := st.tree.release (some u) x
      work := Function.update st.work u ((st.work u).erase x) } holder ∧
    CallKeeps u a st { st with
      tree := st.tree.release (some u) x
      work := Function.update st.work u ((st.work u).erase x) } := by
  obtain ⟨rest, hrest, hupdate⟩ := st.books.working_update u
  have hwork : x ∈ st.books.working := LedgerState.mem_working hx
  have howned := h.mem_owned.mpr (.inr hwork)
  have hinv : ((st.tree.release (some u) x).heldBy holder).Inv :=
    h.inv.release hi ⟨howned, h.located (some u) x (LedgerState.mem_place_work hx)⟩
  refine ⟨⟨hinv, ?_, fun p b hb => ?_, fun b hb hmem => ?_⟩,
    ⟨rfl, fun v hv => Function.update_of_ne hv .., ?_, ?_, ?_, ?_⟩⟩
  · have hheld := h.held.release hwork subset_rfl hinv.ledger
    have hmem : x ∈ (st.books.work u : Multiset ℕ) := Multiset.mem_coe.mpr hx
    rw [hrest, Multiset.erase_add_left_pos _ hmem, Multiset.coe_erase, ← hupdate] at hheld
    exact hheld
  · rcases st.books.mem_place_update hb with hold | ⟨rfl, hnodes⟩
    · exact h.located p b hold
    · exact h.located _ b (LedgerState.mem_place_work (List.mem_of_mem_erase hnodes))
  · exact h.root b hb (Finset.mem_of_mem_erase hmem)
  · intro y hy
    change y ∈ Function.update st.work u ((st.work u).erase x) u at hy
    rw [Function.update_self] at hy
    exact hbelow y (List.mem_of_mem_erase hy)
  · exact fun _ _ _ _ => rfl
  · exact fun p hp => MTCounts.release_access_of_ne hp
  · exact fun _ _ _ hl => hl

/-- One step of a call keeps all open nodes and what they and their ancestors hold. -/
theorem WordCall.tree (h : WordTree st holder) (ha : a ∈ st.state.pending) (hu : holder a = some u)
    (hbelow : ∀ x ∈ st.work u, st.tree.mem.parent x = a) (hcall : WordCall u a st st') :
    ∃ holder', WordTree st' holder' ∧ holder' a = some u ∧ CallKeeps u a st st' := by
  cases hcall with
  | create hi =>
    obtain ⟨htree, hkeeps⟩ := WordCall.create_tree h ha hu hbelow hi
    refine ⟨_, htree, ?_, hkeeps⟩
    have hnew : st.tree.created (some u) ∉ st.tree.live := (h.inv.created (some u)).1
    exact (Function.update_of_ne (ne_of_mem_of_not_mem (h.live (.inl ha)) hnew) ..).trans hu
  | @write x hi hx d =>
    have hwork : x ∈ st.books.working := LedgerState.mem_working hx
    refine ⟨holder, ⟨h.inv.write x d, h.held.write x d, h.located, h.root⟩, hu,
      ⟨rfl, fun _ _ => rfl, hbelow, fun _ _ _ _ => rfl, fun _ _ => rfl, fun b hb l hl => ?_⟩⟩
    exact h.held.path_write (.inl hb) hwork (h.held.ne hb hwork) d hl
  | release hi hx =>
    obtain ⟨htree, hkeeps⟩ := WordCall.release_tree h hi hx hbelow
    exact ⟨holder, htree, hu, hkeeps⟩
  | advance => exact ⟨holder, h.advance (some u), hu, .advance hbelow⟩

omit [SetData D] in
theorem CallKeeps.trans {st'' : WordState D T} (h : CallKeeps u a st st') (h' : CallKeeps u a st' st'') :
    CallKeeps u a st st'' where
  state := h'.state.trans h.state
  work v hv := (h'.work v hv).trans (h.work v hv)
  below := h'.below
  parent v hv x hx := (h'.parent v hv x ((h.work v hv).symm ▸ hx)).trans (h.parent v hv x hx)
  access p hp := (h'.access p hp).trans (h.access p hp)
  keeps b hb l hl := by
    have hmem : b ∈ st'.state.pending := h.state.symm ▸ hb
    exact h'.keeps b hmem l (h.keeps b hb l hl)

theorem WordCall.reaches (h : WordTree st holder) (ha : a ∈ st.state.pending) (hu : holder a = some u)
    (hbelow : ∀ x ∈ st.work u, st.tree.mem.parent x = a) (hcall : Reaches (WordCall u a) st st') :
    ∃ holder', WordTree st' holder' ∧ holder' a = some u ∧ CallKeeps u a st st' := by
  induction hcall with
  | refl => exact ⟨holder, h, hu, ⟨rfl, fun _ _ => rfl, hbelow, fun _ _ _ _ => rfl, fun _ _ => rfl, fun _ _ _ => id⟩⟩
  | tail _ hstep ih =>
    obtain ⟨holder', h', hu', hkeeps⟩ := ih
    obtain ⟨holder'', h'', hu'', hkeeps'⟩ := WordCall.tree h' (hkeeps.state.symm ▸ ha) hu' hkeeps.below hstep
    exact ⟨holder'', h'', hu'', hkeeps.trans hkeeps'⟩

omit [SetData D] in
/-- A node in a container is given back by the one who has it. -/
theorem WordTree.release (h : WordTree st holder) (ha : a ∈ st.state.pending) {p : Option (Option (Fin T))}
    (hp : holder a = p) (hi : st.tree.Idle p) : ((st.tree.release p a).heldBy holder).Inv ∧
      (st.tree.release p a).ledger.Held (st.state.pending.erase a) st.books.working := by
  have hinv : ((st.tree.release p a).heldBy holder).Inv := h.inv.release hi ⟨h.mem_owned.mpr (.inl ha), hp⟩
  exact ⟨hinv, h.held.release_kept ha subset_rfl hinv.ledger⟩

end Tree

/-! ### The invariant of every run -/

/-- What every point of a run keeps, interrupted or not. -/
structure WordInv (sch : Scheduler) (st : WordState D sch.numThreads.toNat) : Prop where
  books : LedgerInv sch st.books
  tree : ∃ holder, WordTree st holder
  below : ∀ i a, (st.state.threads i).pc = .branch a → ∀ x ∈ st.work (some i), st.tree.mem.parent x = a
  calm : ∀ i, ¬ (st.state.threads i).pc.Calls → st.tree.Idle (some (some i))
  main : (∀ f, st.state.main ≠ .first f) → (∀ l, st.state.main ≠ .clean l) → st.tree.Idle (some none)
  queue : st.tree.Idle none

section Invariant

variable {S : Solver N} {path : N → List D} {sch : Scheduler} {c : Container}
  {st st' mid : WordState D sch.numThreads.toNat} {state : State ℕ sch.numThreads.toNat}
  {holder : ℕ → Option (Option (Fin sch.numThreads.toNat))} {u : Option (Fin sch.numThreads.toNat)} {a b : ℕ}
  {new : List ℕ}

namespace WordInv

/-- A node in the making is below the one that its thread branches on. -/
theorem working (h : WordInv sch st) (u : Option (Fin sch.numThreads.toNat)) (x : ℕ) (hx : x ∈ st.work u) :
    ∃ i, u = some i ∧ (st.state.threads i).pc = .branch (st.tree.mem.parent x) := by
  cases u with
  | none =>
    have hnil : st.work none = [] := h.books.main
    rw [hnil] at hx
    cases hx
  | some i =>
    refine ⟨i, rfl, ?_⟩
    by_contra hpc
    have hnil : st.work (some i) = [] := h.books.idle i fun b hb => hpc (h.below i b hb x hx ▸ hb)
    rw [hnil] at hx
    cases hx

/-- The steps that leave the trees alone. -/
theorem of_state (h : WordInv sch st) (hinv : Inv sch state) (hpend : state.pending = st.state.pending)
    (hpc : ∀ i a, (st.state.threads i).pc = .branch a → (state.threads i).pc = .branch a)
    (hmain : state.main ≠ st.state.main → st.tree.Idle (some none))
    (hthreads : ∀ i, state.threads i ≠ st.state.threads i → st.tree.Idle (some (some i))) :
    WordInv sch { st with state } := by
  have hbooks := h.books.of_state hinv hpend hpc
  obtain ⟨holder, htree⟩ := h.tree
  refine ⟨hbooks, ?_, fun i a hi x hx => ?_, fun i hi => ?_, fun hf hl => ?_, h.queue⟩
  · refine htree.moved hpend hbooks.held h.queue hmain hthreads fun u x hx => ?_
    obtain ⟨i, rfl, hi⟩ := h.working u x hx
    exact ⟨i, rfl, hpc i _ hi⟩
  · obtain ⟨j, heq, hj⟩ := h.working (some i) x hx
    obtain rfl := Option.some.inj heq
    exact Pc.branch.inj ((hpc i _ hj).symm.trans hi)
  · by_cases heq : state.threads i = st.state.threads i
    · exact h.calm i (heq ▸ hi)
    · exact hthreads i heq
  · by_cases heq : state.main = st.state.main
    · exact h.main (heq ▸ hf) (heq ▸ hl)
    · exact hmain heq

/-- A thread gives back the node it has branched on, or another one of its nodes, and puts those it has made into
its container. -/
theorem of_branch (h : WordInv sch st) (htree : WordTree mid holder) (hu : holder a = some u)
    (hkeeps : CallKeeps u a st mid) (ha : a ∈ st.state.pending) (hend : mid.tree.Idle (some u)) (hinv : Inv sch state)
    (hperm : (mid.work u).Perm new) (hpend : st.state.pending + new = state.pending + {a})
    (hthreads : ∀ i, u ≠ some i → state.threads i = st.state.threads i)
    (hmain : u ≠ none → state.main = st.state.main)
    (hqueue : state.shared.queueSets = st.state.shared.queueSets)
    (hplace : ∀ b ∈ LedgerState.place ⟨state, mid.tree.ledger, Function.update mid.work u []⟩ (some u),
      b ∈ mid.books.place (some u))
    (hcalls : ∀ i, ¬ (state.threads i).pc.Calls → u ≠ some i)
    (hfirst : (∀ f, state.main ≠ .first f) → (∀ l, state.main ≠ .clean l) → u ≠ none) :
    WordInv sch { state, tree := mid.tree.release (some u) a, work := Function.update mid.work u [] } := by
  obtain ⟨htinv, hheld⟩ := htree.release (hkeeps.state.symm ▸ ha) hu hend
  have hbooks := h.books.of_branch mid.books hkeeps.state hkeeps.work ha hinv hperm hpend
    (fun i hi => congrArg Thread.pc (hthreads i hi)) hheld
  have haccess : ∀ p, p ≠ some u → (mid.tree.release (some u) a).access p = st.tree.access p := fun p hp =>
    (MTCounts.release_access_of_ne hp).trans (hkeeps.access p hp)
  have hwork : ∀ v, v ≠ u → Function.update mid.work u [] v = mid.work v := fun v hv => Function.update_of_ne hv ..
  refine ⟨hbooks, ⟨holder, htinv, hbooks.held, fun p b hb => ?_, fun b hb hmem => ?_⟩, fun i b hi x hx => ?_,
    fun i hi => ?_, fun hf hl => ?_, (haccess none (by simp)).trans h.queue⟩
  · refine htree.located p b ?_
    by_cases hp : p = some u
    · subst hp
      exact hplace b hb
    · cases p with
      | none =>
        have hq : state.shared.queueSets = mid.state.shared.queueSets :=
          hqueue.trans (congrArg (·.shared.queueSets) hkeeps.state).symm
        change b ∈ (state.shared.queueSets : Multiset ℕ) at hb
        rw [hq] at hb
        exact hb
      | some v =>
        have hv : v ≠ u := fun hvu => hp (congrArg some hvu)
        cases v with
        | none =>
          have hm : state.main = mid.state.main := (hmain hv.symm).trans (congrArg State.main hkeeps.state).symm
          change b ∈ (state.main.nodes : Multiset ℕ) + (Function.update mid.work u [] none : Multiset ℕ) at hb
          rw [hm, hwork none hv] at hb
          exact hb
        | some i =>
          have ht : state.threads i = mid.state.threads i :=
            (hthreads i hv.symm).trans (congrFun (congrArg State.threads hkeeps.state) i).symm
          change b ∈ (state.threads i).pending + (Function.update mid.work u [] (some i) : Multiset ℕ) at hb
          rw [ht, hwork (some i) hv] at hb
          exact hb
  · have hb' : b ∈ st.state.pending + new := hpend ▸ Multiset.mem_add.mpr (.inl hb)
    change mid.tree.mem.parent b ∈ mid.tree.owned.erase a at hmem
    rcases Multiset.mem_add.mp hb' with hold | hnew
    · exact htree.root b (hkeeps.state.symm ▸ hold) (Finset.mem_of_mem_erase hmem)
    · rw [hkeeps.below b (hperm.mem_iff.mpr (Multiset.mem_coe.mp hnew))] at hmem
      exact Finset.notMem_erase a _ hmem
  · by_cases hui : u = some i
    · subst hui
      change x ∈ Function.update mid.work (some i) [] (some i) at hx
      rw [Function.update_self] at hx
      cases hx
    · have hold : x ∈ st.work (some i) := by
        change x ∈ Function.update mid.work u [] (some i) at hx
        rwa [hwork (some i) (Ne.symm hui), hkeeps.work (some i) (Ne.symm hui)] at hx
      exact (hkeeps.parent (some i) (Ne.symm hui) x hold).trans (h.below i b (hthreads i hui ▸ hi) x hold)
  · have hui := hcalls i hi
    exact (haccess (some (some i)) fun heq => hui (Option.some.inj heq).symm).trans
      (h.calm i (hthreads i hui ▸ hi))
  · have hun := hfirst hf hl
    have hm := hmain hun
    exact (haccess (some none) fun heq => hun (Option.some.inj heq).symm).trans (h.main (hm ▸ hf) (hm ▸ hl))

end WordInv

/-- A call in which nothing has been made yet. -/
theorem CallKeeps.refl (hnil : st.work u = []) : CallKeeps u a st st where
  state := rfl
  work _ _ := rfl
  below x hx := by
    rw [hnil] at hx
    cases hx
  parent _ _ _ _ := rfl
  access _ _ := rfl
  keeps _ _ _ := id

variable [SetData D]

theorem WordStep.wordInv (hmin : 0 < sch.numMinimumNodes.toNat) (h : WordInv sch st)
    (hstep : WordStep S path sch c st st') : WordInv sch st' ∧ st.books.Keeps st'.books := by
  have hold : Inv sch st.state := h.books.inv
  cases hstep with
  | quiet _ hstep hkeep hmain hthreads =>
    have hinv := hstep.inv hmin hold
    obtain ⟨hc, hpc⟩ := hstep.quiet hold hkeep
    have hpend := hold.pending_eq hinv 0 0 (by simpa using hc) (by simpa using hkeep)
    rw [add_zero, add_zero] at hpend
    exact ⟨h.of_state hinv hpend.symm hpc hmain hthreads, fun _ _ _ => id⟩
  | @first mid node f a rest new _ hm hi hsize hp _ hcall hend hperm _ =>
    have hmem : ∀ b ∈ f.nodes, b ∈ st.state.main.nodes := by
      intro b hb
      rw [hm]
      exact hb
    have hself : a ∈ f.nodes := hp.perm.mem_iff.mpr List.mem_cons_self
    have ha : a ∈ st.state.pending := by simp [State.pending, hmem a hself]
    obtain ⟨holder, htree⟩ := h.tree
    have hnil : st.work none = [] := h.books.main
    obtain ⟨holder', hmid, hu, hkeeps⟩ := WordCall.reaches htree ha
      (htree.located (some none) a (LedgerState.mem_place_main (hmem a hself))) (CallKeeps.refl hnil).below hcall
    have hinv : Inv sch (round (S.through node new) st.state f a rest) :=
      Step.inv hmin hold (.branch hm hi hsize (pop_through.mpr hp))
    have hpend := hold.pending_eq hinv new {a}
      (by simp [round, Solver.through]) (by simp [round, Solver.through])
    refine ⟨h.of_branch hmid hu hkeeps ha hend hinv hperm hpend (fun _ _ => rfl) (fun hne => absurd rfl hne) rfl
      (fun b hb => ?_) (fun _ _ => by simp) (fun hf _ => absurd rfl (hf _)), hkeeps.keeps⟩
    have hnodes : b ∈ Container.pushAll rest new := LedgerState.mem_main_of_place hb
    rw [Container.pushAll_eq, List.mem_append, List.mem_reverse] at hnodes
    rcases hnodes with hnew | hrest
    · exact LedgerState.mem_place_work (hperm.mem_iff.mpr hnew)
    · refine LedgerState.mem_place_main ?_
      have hnodes := hmem b (hp.perm.mem_iff.mpr (List.mem_cons_of_mem _ hrest))
      exact (congrArg State.main hkeeps.state).symm ▸ hnodes
  | @branch node i a new _ hpc hidle hperm _ =>
    have ha : a ∈ (st.state.threads i).pending := Thread.mem_pending hpc
    have hpend : a ∈ st.state.pending := Multiset.mem_of_le (st.state.thread_pending_le i) ha
    obtain ⟨holder, htree⟩ := h.tree
    have hstep : (st.state.threads i).step (S.through node new) sch st.state.shared =
        some ((st.state.threads i).branch (S.through node new) st.state.shared a) := by
      simp only [Thread.step, hpc]
    have hinv := Step.inv (c := c) hmin hold (.thread hstep)
    have hbal := hold.pending_eq hinv new {a}
      (by simp [State.apply, Thread.branch, Solver.through]) (by simp [State.apply, Thread.branch, Solver.through])
    have hkeeps : CallKeeps (some i) a st st :=
      ⟨rfl, fun _ _ => rfl, h.below i a hpc, fun _ _ _ _ => rfl, fun _ _ => rfl, fun _ _ _ => id⟩
    refine ⟨h.of_branch htree (htree.located _ a (LedgerState.mem_place_thread ha)) hkeeps hpend hidle hinv hperm hbal
      (fun j hj => State.apply_of_ne (fun hji => hj (congrArg some hji.symm)) rfl) (fun _ => rfl) rfl (fun b hb => ?_)
      (fun j hj hji => ?_) (fun _ _ => by simp), fun _ _ _ => id⟩
    · have hnodes := LedgerState.mem_thread_of_place hb
      rw [State.apply_self rfl] at hnodes
      simp only [Thread.branch, Thread.pending, Solver.through, Container.pushAll_eq, add_zero, Multiset.mem_add,
        Multiset.mem_coe, List.mem_append, List.mem_reverse] at hnodes
      rcases hnodes with hlist | hnew | hnodes
      · exact LedgerState.mem_place_thread (Thread.mem_pending_of_mem (.inl hlist))
      · exact LedgerState.mem_place_work (hperm.mem_iff.mpr hnew)
      · exact LedgerState.mem_place_thread (Thread.mem_pending_of_mem (.inr hnodes))
    · obtain rfl := Option.some.inj hji
      rw [State.apply_self rfl] at hj
      exact hj trivial
  | @drop i a rest hpc hi hn hidle =>
    have ha : a ∈ (st.state.threads i).pending := Thread.mem_pending_of_mem (.inr (hn ▸ List.mem_cons_self))
    have hpend : a ∈ st.state.pending := Multiset.mem_of_le (st.state.thread_pending_le i) ha
    obtain ⟨holder, htree⟩ := h.tree
    have hinv := hold.drop hpc hn
    have hbal := hold.pending_eq hinv 0 {a} (by simp) rfl
    have hnil : st.work (some i) = [] := h.books.idle i fun b hb => by
      change (st.state.threads i).pc = .branch b at hb
      simp [hpc] at hb
    have hself : Function.update st.work (some i) [] = st.work := Function.update_eq_self_iff.mpr hnil.symm
    have hnew := h.of_branch htree (htree.located _ a (LedgerState.mem_place_thread ha)) (.refl hnil) hpend hidle hinv
      (List.perm_nil.mpr hnil) hbal (fun j hj => Function.update_of_ne (fun hji => hj (congrArg some hji.symm)) ..)
      (fun _ => rfl) rfl (fun b hb => ?_) (fun j hj hji => ?_) (fun _ _ => by simp)
    · rw [hself] at hnew
      exact ⟨hnew, fun _ _ _ => id⟩
    · have hnodes := LedgerState.mem_thread_of_place hb
      simp only [Function.update_self, Thread.pending, hpc, add_zero, Multiset.mem_add, Multiset.mem_coe] at hnodes
      refine LedgerState.mem_place_thread (Thread.mem_pending_of_mem (hnodes.imp_right fun hrest => ?_))
      exact hn.symm ▸ List.mem_cons_of_mem a hrest
    · obtain rfl := Option.some.inj hji
      refine hj ?_
      change (Function.update st.state.threads i { st.state.threads i with nodes := rest } i).pc.Calls
      rw [Function.update_self]
      simp only [hpc]
      trivial
  | @clean node nodes rest a _ hm hp hidle =>
    have hpop : c.Pop (S.through node []) id nodes a rest := pop_through.mpr hp
    have hinv := Step.inv hmin hold (.clean hm hpop)
    have hbal := hold.pending_eq hinv 0 {a} (by simp) rfl
    have hmem : ∀ b ∈ nodes, b ∈ st.state.main.nodes := by
      intro b hb
      rw [hm]
      exact hb
    have hself : a ∈ nodes := hp.perm.mem_iff.mpr List.mem_cons_self
    have ha : a ∈ st.state.pending := by simp [State.pending, hmem a hself]
    obtain ⟨holder, htree⟩ := h.tree
    have hnil : st.work none = [] := h.books.main
    have hupd : Function.update st.work none [] = st.work := Function.update_eq_self_iff.mpr hnil.symm
    have hnew := h.of_branch htree (htree.located (some none) a (LedgerState.mem_place_main (hmem a hself)))
      (.refl hnil)
      ha hidle hinv (List.perm_nil.mpr hnil) hbal (fun _ _ => rfl) (fun hne => absurd rfl hne) rfl (fun b hb => ?_)
      (fun _ _ => by simp) (fun _ hl => absurd rfl (hl _))
    · rw [hupd] at hnew
      exact ⟨hnew, fun _ _ _ => id⟩
    · have hrest : b ∈ rest := LedgerState.mem_main_of_place hb
      exact LedgerState.mem_place_main (hmem b (hp.perm.mem_iff.mpr (List.mem_cons_of_mem _ hrest)))

theorem WordCallStep.wordInv (h : WordInv sch st) (hstep : WordCallStep st st') :
    WordInv sch st' ∧ st'.state = st.state ∧ st.books.Keeps st'.books := by
  obtain ⟨holder, htree⟩ := h.tree
  cases hstep with
  | @call _ i a hpc hcall =>
    have ha : a ∈ (st.state.threads i).pending := Thread.mem_pending hpc
    have hpend : a ∈ st.state.pending := Multiset.mem_of_le (st.state.thread_pending_le i) ha
    obtain ⟨holder', htree', _, hkeeps⟩ := WordCall.tree htree hpend
      (htree.located _ a (LedgerState.mem_place_thread ha)) (h.below i a hpc) hcall
    refine ⟨⟨⟨htree'.held, ?_, fun j hj => ?_, ?_⟩, ⟨holder', htree'⟩, fun j b hj x hx => ?_, fun j hj => ?_, ?_, ?_⟩,
      hkeeps.state, hkeeps.keeps⟩
    · change Inv sch st'.state
      rw [hkeeps.state]
      exact h.books.inv
    · have hji : (some j : Option (Fin sch.numThreads.toNat)) ≠ some i := by
        rintro heq
        obtain rfl := Option.some.inj heq
        change ∀ b, (st'.state.threads j).pc ≠ .branch b at hj
        rw [hkeeps.state] at hj
        exact hj a hpc
      refine (hkeeps.work (some j) hji).trans (h.books.idle j fun b hb => hj b ?_)
      change (st'.state.threads j).pc = .branch b
      rw [hkeeps.state]
      exact hb
    · exact (hkeeps.work none (by simp)).trans h.books.main
    · rw [hkeeps.state] at hj
      by_cases hji : (some j : Option (Fin sch.numThreads.toNat)) = some i
      · obtain rfl := Option.some.inj hji
        obtain rfl := Pc.branch.inj (hpc.symm.trans hj)
        exact hkeeps.below x hx
      · have hold : x ∈ st.work (some j) := hkeeps.work (some j) hji ▸ hx
        exact (hkeeps.parent (some j) hji x hold).trans (h.below j b hj x hold)
    · rw [hkeeps.state] at hj
      have hji : some (some j) ≠ some (some i) := by
        rintro heq
        obtain rfl := Option.some.inj (Option.some.inj heq)
        rw [hpc] at hj
        exact hj trivial
      exact (hkeeps.access _ hji).trans (h.calm j hj)
    · rw [hkeeps.state]
      exact fun hf hl => (hkeeps.access (some none) (by simp)).trans (h.main hf hl)
    · exact (hkeeps.access none (by simp)).trans h.queue
  | advance u =>
    have hadv := st.tree.advanced (some u)
    have htree' := htree.advance (some u)
    have hidle : ∀ p, st.tree.Idle p → (st.tree.advance (some u)).Idle p := by
      intro p hp
      by_cases hpu : p = some u
      · subst hpu
        rwa [hadv.idle hp]
      · exact (hadv.access p hpu).trans hp
    refine ⟨⟨⟨htree'.held, h.books.inv, h.books.idle, h.books.main⟩, ⟨holder, htree'⟩, fun i b hi x hx => ?_,
      fun i hi => hidle _ (h.calm i hi), fun hf hl => hidle _ (h.main hf hl), hidle _ h.queue⟩, rfl,
        fun b _ l hl => ?_⟩
    · exact (congrFun hadv.parent x).trans (h.below i b hi x hx)
    · simp only [WordState.books, MTCounts.advance_ledger] at hl ⊢
      exact hl

omit [SetData D] in
theorem wake_wordInv (h : WordInv sch st) (hstep : WordOutside Wake st st') :
    WordInv sch st' ∧ st.books.Keeps st'.books := by
  obtain ⟨hwake⟩ := hstep
  have hinv := hwake.inv h.books.inv
  obtain ⟨i⟩ := hwake
  refine ⟨h.of_state hinv (State.pending_update (by simp)) (fun j b hj => ?_) (fun hne => absurd rfl hne)
    (fun j hj => ?_),
    fun _ _ _ => id⟩
  · by_cases hji : j = i
    · subst hji
      simp [Thread.notified, hj]
    · simpa [hji] using hj
  · refine h.calm j fun hcalls => hj ?_
    by_cases hji : j = i
    · subst hji
      have hsame : (st.state.threads j).notified = st.state.threads j := by
        rw [Thread.notified]
        split
        · next hpc => simp [hpc, Pc.Calls] at hcalls
        · rfl
      simp [hsame]
    · simp [hji]

omit [SetData D] in
theorem signal_wordInv (h : WordInv sch st) (hstep : WordOutside Signal st st') :
    WordInv sch st' ∧ st.books.Keeps st'.books := by
  obtain ⟨hsignal⟩ := hstep
  have hinv := hsignal.inv h.books.inv
  obtain ⟨⟩ := hsignal
  exact ⟨h.of_state hinv rfl (fun _ _ => id) (fun hne => absurd rfl hne) (fun _ hne => absurd rfl hne),
    fun _ _ _ => id⟩

theorem WordInterruptible.wordInv (hmin : 0 < sch.numMinimumNodes.toNat) (h : WordInv sch st)
    (hstep : WordInterruptible S path sch c st st') : WordInv sch st' ∧ st.books.Keeps st'.books := by
  rcases hstep with hstep | hcall | hwake | hsignal
  · exact hstep.wordInv hmin h
  · obtain ⟨hinv, _, hkeeps⟩ := hcall.wordInv h
    exact ⟨hinv, hkeeps⟩
  · exact wake_wordInv h hwake
  · exact signal_wordInv h hsignal

end Invariant

/-! ### The start -/

section Start

variable [SetData D]

theorem wordTrees_inv (D : Type*) [SetData D] (T : ℕ) : (wordTrees D T).Inv := MTCounts.start_inv none

/-- What the tree is at the start of the first loop. -/
structure Rooted {T : ℕ} (r : MTCounts (Option (Option (Fin T))) D) (a : ℕ) (d : D) : Prop where
  inv : r.Inv
  held : r.ledger.Held {a} 0
  path : r.ledger.Path a [d]
  parent : r.mem.parent a = 0
  holder : r.holder a = some none
  idle : ∀ p, r.Idle p

theorem wordRooted_spec (T : ℕ) (d : D) : Rooted (wordRooted T d) ((wordTrees D T).created (some none)) d := by
  have hstart := wordTrees_inv D T
  obtain ⟨hnew, hnew0⟩ := hstart.created (some none)
  have hroot : ((wordTrees D T).create (some none) 0).Inv := hstart.create rfl (.inl rfl)
  have hself : ((wordTrees D T).create (some none) 0).ledger.Path ((wordTrees D T).created (some none)) [default] :=
    Ledger.Path.create_self (l := []) rfl hstart.ledger hnew hnew0 (.inl rfl)
  have hinv : (wordRooted T d).Inv := hroot.write ((wordTrees D T).created (some none)) d
  have hparent : (wordRooted T d).mem.parent = ((wordTrees D T).create (some none) 0).mem.parent := rfl
  have hholder : (wordRooted T d).holder =
    Function.update (wordTrees D T).holder ((wordTrees D T).created (some none)) (some none) := rfl
  have haccess : (wordRooted T d).access = Function.update (wordTrees D T).access (some none) .idle := rfl
  refine ⟨hinv, ⟨hinv.ledger, rfl, by simp⟩, ?_, ?_, ?_, fun p => ?_⟩
  · exact hself.write_self hroot.ledger (Finset.mem_insert_self _ _)
      (.create_self hstart.ledger hnew hnew0 hnew0.symm) d
  · rw [hparent, MTCounts.create_parent]
    exact Function.update_self ..
  · rw [hholder]
    exact Function.update_self ..
  · rw [MTCounts.Idle, haccess, Function.update_apply]
    split <;> rfl

theorem wordStart_pending (S : Solver N) (sch : Scheduler) (d : D) (record : ValueType) :
    (wordStart S sch d record).state.pending =
      if S.rank > minRankValue then {(wordTrees D sch.numThreads.toNat).created (some none)} else 0 :=
  start_pending ..

theorem wordStart_inv (S : Solver N) (sch : Scheduler) (d : D) (record : ValueType) :
    WordInv sch (wordStart S sch d record) := by
  have hwork : (wordStart S sch d record).books.working = 0 := by
    simp [LedgerState.working, WordState.books, wordStart]
  have hpc : ∀ i, ((wordStart S sch d record).state.threads i).pc = .idle := by
    intro i
    simp only [wordStart, start]
    split <;> rfl
  have hinv : Inv sch (wordStart S sch d record).state := .start _ rfl rfl rfl record
  have hplace : ∀ p, ∀ a ∈ (wordStart S sch d record).books.place p, S.rank > minRankValue ∧
      a = (wordTrees D sch.numThreads.toNat).created (some none) ∧ p = some none := by
    intro p a ha
    have hmem := Multiset.mem_add.mp (LedgerState.mem_place.mpr ⟨p, ha⟩)
    rw [hwork] at hmem
    have hpend : a ∈ (wordStart S sch d record).state.pending := hmem.resolve_right (Multiset.notMem_zero a)
    rw [wordStart_pending] at hpend
    split at hpend
    · next hrank =>
      refine ⟨hrank, Multiset.mem_singleton.mp hpend, ?_⟩
      simp only [WordState.books, wordStart, start] at ha
      rw [if_pos (by exact hrank)] at ha
      cases p with
      | none => simp [LedgerState.place, construct] at ha
      | some u =>
        cases u with
        | none => rfl
        | some i => simp [LedgerState.place, Thread.pending] at ha
    · cases hpend
  by_cases hrank : S.rank > minRankValue
  · have hroot := wordRooted_spec sch.numThreads.toNat d
    have htree : (wordStart S sch d record).tree = wordRooted _ d := if_pos hrank
    have hheld : (wordStart S sch d record).books.Held := by
      rw [LedgerState.Held, hwork]
      change (wordStart S sch d record).tree.ledger.Held (wordStart S sch d record).state.pending 0
      rw [htree, wordStart_pending, if_pos hrank]
      exact hroot.held
    refine ⟨⟨hheld, hinv, fun _ _ => rfl, rfl⟩,
      ⟨(wordRooted sch.numThreads.toNat d).holder, ?_, hheld, fun p a ha => ?_, fun a ha => ?_⟩, ?_, fun i _ => ?_,
      fun _ _ => ?_, ?_⟩
    · rw [htree]
      exact hroot.inv
    · obtain ⟨_, rfl, rfl⟩ := hplace p a ha
      exact hroot.holder
    · rw [wordStart_pending, if_pos hrank, Multiset.mem_singleton] at ha
      rw [htree, ha, hroot.parent]
      exact fun hmem => hroot.inv.shape.ne_zero (hroot.inv.shape.owned_subset hmem)
    · exact fun _ _ _ x hx => absurd hx List.not_mem_nil
    · exact htree ▸ hroot.idle _
    · exact htree ▸ hroot.idle _
    · exact htree ▸ hroot.idle _
  · have htrees := wordTrees_inv D sch.numThreads.toNat
    have htree : (wordStart S sch d record).tree = wordTrees D _ := if_neg hrank
    have hheld : (wordStart S sch d record).books.Held := by
      rw [LedgerState.Held, hwork]
      change (wordStart S sch d record).tree.ledger.Held (wordStart S sch d record).state.pending 0
      rw [htree, wordStart_pending, if_neg hrank]
      exact ⟨htrees.ledger, rfl, by simp⟩
    refine ⟨⟨hheld, hinv, fun _ _ => rfl, rfl⟩,
      ⟨(wordTrees D sch.numThreads.toNat).holder, ?_, hheld, fun p a ha => ?_, fun a ha => ?_⟩, ?_, fun i _ => ?_,
      fun _ _ => ?_, ?_⟩
    · rw [htree]
      exact htrees
    · exact absurd (hplace p a ha).1 hrank
    · rw [wordStart_pending, if_neg hrank] at ha
      cases ha
    · exact fun _ _ _ x hx => absurd hx List.not_mem_nil
    · exact htree ▸ rfl
    · exact htree ▸ rfl
    · exact htree ▸ rfl

end Start

/-! ### Memory safety -/

/-- What holds of the trees at every point of a run, between any two reads or writes of any threads. -/
structure WordSafe [SetData D] {T : ℕ} (st : WordState D T) : Prop where
  tree : st.tree.Sound
  /-- The nodes in use are the open nodes and those in the making. -/
  owned : ∀ a, a ∈ st.tree.owned ↔ a ∈ st.state.pending + st.books.working
  /-- After the return with an empty queue the nodes left are those whose count has lost a write, and those
  above them. -/
  returned : ∀ sol, st.state.main = .returned sol → st.state.shared.queueSets = [] →
    (∀ a, a ∈ st.tree.live ↔ ∃ b ∈ st.tree.raced, st.tree.Above a b) ∧
      (st.tree.tree.numUnfreedNodes = 0 ↔ st.tree.raced = ∅)

section Safety

variable [SetData D] {sch : Scheduler} {st : WordState D sch.numThreads.toNat}

omit [SetData D] in
/-- After the return no call of the trees is under way. -/
theorem WordInv.idle_returned (h : WordInv sch st) {sol : Solution} (hm : st.state.main = .returned sol)
    (p : Option (Option (Fin sch.numThreads.toNat))) : st.tree.Idle p := by
  obtain ⟨hpc, _⟩ := h.books.returned hm
  cases p with
  | none => exact h.queue
  | some u =>
    cases u with
    | none => exact h.main (by simp [hm]) (by simp [hm])
    | some i =>
      refine h.calm i fun hcalls => ?_
      have hpc : (st.state.threads i).pc = .idle ∨ (st.state.threads i).pc = .exited := hpc i
      rcases hpc with hpc | hpc
      · rw [hpc] at hcalls
        exact hcalls
      · rw [hpc] at hcalls
        exact hcalls

theorem WordInv.sound (h : WordInv sch st) : st.tree.Sound := by
  obtain ⟨holder, htree⟩ := h.tree
  obtain ⟨h1, h2, h3, h4, h5, h6, h7, h8⟩ := htree.inv.sound
  exact ⟨h1, h2, h3, h4, h5, h6, h7, h8⟩

omit [SetData D] in
theorem WordInv.numNodes (h : WordInv sch st) : st.tree.tree.numUnfreedNodes = st.tree.live.card := by
  obtain ⟨_, htree⟩ := h.tree
  exact htree.inv.numNodes

theorem WordInv.safe (h : WordInv sch st) : WordSafe st := by
  have hsound := h.sound
  have howned : ∀ a, a ∈ st.tree.owned ↔ a ∈ st.state.pending + st.books.working := by
    obtain ⟨holder, htree⟩ := h.tree
    exact fun a => htree.mem_owned.trans Multiset.mem_add.symm
  refine ⟨hsound, howned, fun sol hm hq => ?_⟩
  obtain ⟨_, hqueue, hwork⟩ := h.books.returned hm
  have hnone : st.tree.owned = ∅ := by
    refine Finset.eq_empty_of_forall_notMem fun a ha => ?_
    rw [howned a, hwork, add_zero] at ha
    change a ∈ st.books.state.pending at ha
    rw [hqueue] at ha
    change a ∈ (st.state.shared.queueSets : Multiset ℕ) at ha
    rw [hq] at ha
    cases ha
  have hleaked := hsound.leaked (h.idle_returned hm) hnone
  refine ⟨hleaked, ?_⟩
  rw [h.numNodes, Nat.cast_eq_zero, Finset.card_eq_zero]
  constructor
  · intro hlive
    exact Finset.subset_empty.mp (hlive ▸ hsound.raced_subset)
  · intro hraced
    refine Finset.eq_empty_of_forall_notMem fun a ha => ?_
    obtain ⟨b, hb, _⟩ := (hleaked a).mp ha
    rw [hraced] at hb
    cases hb

theorem reaches_wordInv {S : Solver N} {path : N → List D} {c : Container} (hmin : 0 < sch.numMinimumNodes.toNat)
    {d : D} {record : ValueType}
    (hr : Reaches (WordInterruptible S path sch c) (wordStart S sch d record) st) : WordInv sch st := by
  induction hr with
  | refl => exact wordStart_inv S sch d record
  | tail _ hstep ih => exact (hstep.wordInv hmin ih).1

/-- Any solver and scheduler, any interleaving of the reads and writes of the counts, interrupted or not: no step
of any thread frees or changes an open node or an ancestor of it, although counts lose writes. -/
theorem parallel_words_safe (S : Solver N) (path : N → List D) (sch : Scheduler) (c : Container) (d : D)
    (record : ValueType) (hmin : 1 ≤ sch.numMinimumNodes.toNat) {st : WordState D sch.numThreads.toNat}
    (hr : Reaches (WordInterruptible S path sch c) (wordStart S sch d record) st) :
    WordSafe st ∧ ∀ st', WordInterruptible S path sch c st st' →
      ∀ b ∈ st.state.pending, b ∈ st'.state.pending → ∀ l, st.tree.mem.Reads b l → st'.tree.mem.Reads b l := by
  have hinv := reaches_wordInv hmin hr
  refine ⟨hinv.safe, fun st' hstep b hb hb' l hl => ?_⟩
  obtain ⟨hinv', hkeeps⟩ := hstep.wordInv hmin hinv
  obtain ⟨_, htree⟩ := hinv.tree
  obtain ⟨_, htree'⟩ := hinv'.tree
  rw [htree.reads_iff (htree.live (.inl hb))] at hl
  exact (htree'.reads_iff (htree'.live (.inl hb'))).mpr (hkeeps b hb l hl)

end Safety

/-! ### Two threads -/

section Pair

variable [SetData D] {sch : Scheduler}

/-- Steps that release no node, while no call of the trees is under way. -/
theorem reaches_quiet_words {S : Solver N} {path : N → List D} {c : Container} {st : WordState D sch.numThreads.toNat}
    (node : ℕ → N) (hmin : 0 < sch.numMinimumNodes.toNat) (hinv : Inv sch st.state) (hnode : WordStands path st node)
    (hidle : ∀ p, st.tree.Idle p) {state : State ℕ sch.numThreads.toNat}
    (hr : Reaches (QuietStep (S.through node []) sch c) st.state state) :
    Reaches (WordInterruptible S path sch c) st { st with state } := by
  induction hr with
  | refl => exact .refl
  | tail hr hstep ih =>
    obtain ⟨_, hpend⟩ := quiet_pending hmin hinv hr
    obtain ⟨hstep, hkeep⟩ := hstep
    exact ih.tail (.inl (.quiet (fun a ha => hnode a (hpend ▸ ha)) hstep hkeep (fun _ => hidle _) fun _ _ => hidle _))

/-- `branch` makes a node, counts it and fills it in. -/
theorem WordCall.make {T : ℕ} {st : WordState D T} {u : Option (Fin T)} {a x : ℕ}
    {tree : MTCounts (Option (Option (Fin T))) D}
    (hi : st.tree.Idle (some u)) (hx : st.tree.created (some u) = x)
    (htree : ((st.tree.create (some u) a).advance (some u)).advance (some u) = tree) (hend : tree.Idle (some u))
    (d : D) :
    Reaches (WordCall u a) st { st with
      tree := { tree with toMTRun := tree.toMTRun.write x d }
      work := Function.update st.work u (x :: st.work u) } := by
  subst hx htree
  refine (((Relation.ReflTransGen.single (.create hi)).tail .advance).tail .advance).tail (.write hend ?_ d)
  change _ ∈ Function.update st.work u _ u
  rw [Function.update_self]
  exact List.mem_cons_self

def wordRoot : WordState ℕ pairScheduler.numThreads.toNat where
  state := pairRoot.state
  tree := wordRooted _ 0
  work _ := []

theorem wordStart_pair : wordStart pairSolver pairScheduler 0 mVal = wordRoot := by
  have hcreated : (wordTrees ℕ pairScheduler.numThreads.toNat).created (some none) = 1 := by decide +kernel
  rw [wordStart, hcreated, start, if_pos (by decide), if_pos (by decide)]
  rfl

/-- Thread `0` gives its leaf back: it has read the count of the root and not written it back, while thread `1` is
in a call of `branch` on the other leaf. -/
theorem parallel_words_safe_pair : ∃ st, Reaches (WordInterruptible pairSolver pairPath pairScheduler .lifo)
      (wordStart pairSolver pairScheduler 0 mVal) st ∧
    (∃ i, st.tree.access (some (some i)) = .decWrite 1 2) ∧ (∃ i, (st.state.threads i).pc = .branch 2) ∧
    WordSafe st ∧ ∀ st', WordInterruptible pairSolver pairPath pairScheduler .lifo st st' →
      ∀ b ∈ st.state.pending, b ∈ st'.state.pending → ∀ l, st.tree.mem.Reads b l → st'.tree.mem.Reads b l := by
  let first : Fin pairScheduler.numThreads.toNat := ⟨0, by decide⟩
  let second : Fin pairScheduler.numThreads.toNat := ⟨1, by decide⟩
  -- the first phase branches on the root
  have hcall : Reaches (WordCall none 1) wordRoot _ :=
    (WordCall.make (x := 2) (by decide +kernel) (by decide +kernel) rfl (by decide +kernel) 1).trans
      (WordCall.make (x := 3) (by decide +kernel) (by decide +kernel) rfl (by decide +kernel) 2)
  have hnode : WordStands pairPath wordRoot pairNode := by decide +kernel
  have hpop : Container.lifo.Pop pairSolver pairNode [1] 1 [] := rfl
  have hnew : List.Perm [3, 2] [2, 3] := by decide
  have hfirst := WordStep.first hnode rfl rfl (by decide +kernel) hpop (by decide +kernel) hcall
    (by decide +kernel) hnew (by decide +kernel)
  have hstart : Reaches (WordInterruptible pairSolver pairPath pairScheduler .lifo)
      (wordStart pairSolver pairScheduler 0 mVal) wordRoot := wordStart_pair ▸ .refl
  have hleaves := ((hstart.tail (.inl hfirst)).tail (.inr (.inl (.advance none)))).tail (.inr (.inl (.advance none)))
  -- both threads are started and begin their leaves
  have hcalls := hleaves.trans (reaches_quiet_words pairNode (by decide)
    (reaches_wordInv (by decide) hleaves).books.inv
    (by decide +kernel) (by decide +kernel) quiet_pairBegun)
  -- thread `0` ends its call
  have hended := hcalls.tail (.inl (.branch (i := first) (a := 3)
    (show WordStands pairPath _ pairNode by decide +kernel) rfl (by decide +kernel) (.refl _) .nil))
  have hr := ((hended.tail (.inr (.inl (.advance (some first))))).tail (.inr (.inl (.advance (some first))))).tail
    (.inr (.inl (.advance (some first))))
  exact ⟨_, hr, ⟨first, by decide +kernel⟩, ⟨second, by decide +kernel⟩,
    parallel_words_safe pairSolver pairPath pairScheduler .lifo 0 mVal (by decide) hr⟩

end Pair

end Parallel

end Optimer
