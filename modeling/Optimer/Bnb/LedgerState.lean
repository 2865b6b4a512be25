import Optimer.Bnb.Interrupt
import Optimer.Bnb.Ledger
import Optimer.Bnb.ParallelCorrect

/-! `ParallelBNB::solve` on addresses, with the ledger of its trees. What the steps of `solve` need from the
trees is that the open nodes and those in the making are the owned ones, however the trees keep their counts. -/

namespace Optimer

namespace Parallel

/-- `work` are for every thread the nodes that its call of `branch` has made and not given back; the thread `none`
is that of `solve`. -/
structure LedgerState (D : Type*) (T : ℕ) where
  state : State ℕ T
  ledger : Ledger D
  work : Option (Fin T) → List ℕ

variable {D : Type*} {T : ℕ} {a x : ℕ} {u : Option (Fin T)}

namespace LedgerState

/-- The nodes that calls of `branch` have made so far. -/
def working (st : LedgerState D T) : Multiset ℕ := ∑ u, (st.work u : Multiset ℕ)

theorem working_update (st : LedgerState D T) (u : Option (Fin T)) : ∃ rest : Multiset ℕ,
    st.working = st.work u + rest ∧
      ∀ l : List ℕ, ∑ v, (Function.update st.work u l v : Multiset ℕ) = l + rest := by
  refine ⟨∑ v ∈ Finset.univ.erase u, (st.work v : Multiset ℕ), ?_, fun l => ?_⟩
  · exact (Finset.add_sum_erase _ _ (Finset.mem_univ u)).symm
  · rw [← Finset.add_sum_erase _ _ (Finset.mem_univ u), Function.update_self]
    refine congrArg _ (Finset.sum_congr rfl fun v hv => ?_)
    rw [Function.update_of_ne (Finset.ne_of_mem_erase hv)]

theorem mem_working {st : LedgerState D T} (hx : x ∈ st.work u) : x ∈ st.working := by
  obtain ⟨rest, hrest, _⟩ := st.working_update u
  exact hrest ▸ Multiset.mem_add.mpr (.inl (Multiset.mem_coe.mpr hx))

/-- The open nodes and those in the making are the owned ones. -/
def Held (st : LedgerState D T) : Prop := st.ledger.Held st.state.pending st.working

/-- Nothing that an open node or an ancestor of it holds has changed. -/
def Keeps (st st' : LedgerState D T) : Prop :=
  ∀ b ∈ st.state.pending, ∀ l, st.ledger.Path b l → st'.ledger.Path b l

end LedgerState

/-- Only calls of `branch` under way have nodes that are in no container. -/
structure LedgerInv (sch : Scheduler) (st : LedgerState D sch.numThreads.toNat) : Prop where
  held : st.Held
  inv : Inv sch st.state
  idle : ∀ i, (∀ a, (st.state.threads i).pc ≠ .branch a) → st.work (some i) = []
  main : st.work none = []

namespace LedgerInv

variable {sch : Scheduler} {st : LedgerState D sch.numThreads.toNat} {state : State ℕ sch.numThreads.toNat}
  {ledger : Ledger D} {u : Option (Fin sch.numThreads.toNat)}

/-- The steps that leave the nodes alone. -/
theorem of_state (h : LedgerInv sch st) (hinv : Inv sch state) (hpend : state.pending = st.state.pending)
    (hpc : ∀ i a, (st.state.threads i).pc = .branch a → (state.threads i).pc = .branch a) :
    LedgerInv sch { st with state } where
  held := by
    have hheld := h.held
    rw [LedgerState.Held, ← hpend] at hheld
    exact hheld
  inv := hinv
  idle i hi := h.idle i fun a ha => hi a (hpc i a ha)
  main := h.main

/-- A node is given back outside of `branch`. -/
theorem of_release (h : LedgerInv sch st) (hinv : Inv sch state) (hpend : st.state.pending = state.pending + {a})
    (hpc : ∀ i, (state.threads i).pc = (st.state.threads i).pc)
    (hheld : ledger.Held (st.state.pending.erase a) st.working) : LedgerInv sch { st with state, ledger } := by
  rw [hpend, Multiset.erase_add_right_pos _ (Multiset.mem_singleton_self a), Multiset.erase_singleton,
    add_zero] at hheld
  exact ⟨hheld, hinv, fun i hi => h.idle i fun b hb => hi b ((hpc i).trans hb), h.main⟩

/-- A call of `branch` ends: its nodes are put into containers, and the node it was about is given back. -/
theorem of_branch (h : LedgerInv sch st) (mid : LedgerState D sch.numThreads.toNat) (hstate : mid.state = st.state)
    (hwork : ∀ v, v ≠ u → mid.work v = st.work v) (ha : a ∈ st.state.pending) {new : List ℕ} (hinv : Inv sch state)
    (hperm : (mid.work u).Perm new) (hpend : st.state.pending + new = state.pending + {a})
    (hpc : ∀ i, u ≠ some i → (state.threads i).pc = (st.state.threads i).pc)
    (hheld : ledger.Held (mid.state.pending.erase a) mid.working) :
    LedgerInv sch { state, ledger, work := Function.update mid.work u [] } := by
  obtain ⟨rest, hrest, hupdate⟩ := mid.working_update u
  have hkept : mid.state.pending.erase a + new = state.pending := by
    rw [hstate, ← Multiset.erase_add_left_pos _ ha, hpend,
      Multiset.erase_add_right_pos _ (Multiset.mem_singleton_self a), Multiset.erase_singleton, add_zero]
  have hnone : LedgerState.working { state, ledger, work := Function.update mid.work u [] } = rest := by
    rw [LedgerState.working, hupdate, Multiset.coe_nil, zero_add]
  refine ⟨?_, hinv, fun i hi => ?_, ?_⟩
  · rw [hrest, Multiset.coe_eq_coe.mpr hperm] at hheld
    rw [LedgerState.Held, hnone, ← hkept]
    exact hheld.keep
  · by_cases hui : some i = u
    · subst hui
      exact Function.update_self (some i) [] mid.work
    · refine (Function.update_of_ne hui ..).trans ((hwork _ hui).trans (h.idle i fun b hb => hi b ?_))
      exact (hpc i (Ne.symm hui)).trans hb
  · by_cases hu : none = u
    · subst hu
      exact Function.update_self none [] mid.work
    · exact (Function.update_of_ne hu ..).trans ((hwork _ hu).trans h.main)

/-- A thread that is not in a call of `branch` has made no nodes. -/
theorem working_eq_zero (h : LedgerInv sch st) (hall : ∀ i a, (st.state.threads i).pc ≠ .branch a) :
    st.working = 0 := by
  refine Finset.sum_eq_zero fun u _ => ?_
  cases u with
  | none => rw [h.main]; rfl
  | some i => rw [h.idle i (hall i)]; rfl

/-- After the return the nodes left are those in the queue of the scheduler. -/
theorem returned (h : LedgerInv sch st) {sol : Solution} (hm : st.state.main = .returned sol) :
    (∀ i, (st.state.threads i).pc = .idle ∨ (st.state.threads i).pc = .exited) ∧
      st.state.pending = (st.state.shared.queueSets : Multiset ℕ) ∧ st.working = 0 := by
  have hmain := h.inv.main
  simp only [MainOk, hm] at hmain
  have hpend : st.state.sum Thread.pending = 0 := hmain.elim h.inv.pending_unstarted h.inv.pending_exited
  have hpc : ∀ i, (st.state.threads i).pc = .idle ∨ (st.state.threads i).pc = .exited :=
    fun i => hmain.imp (fun hun => (hun.1 i).1) fun hall => hall i
  refine ⟨hpc, ?_, h.working_eq_zero fun i b hb => ?_⟩
  · simp [State.pending, hm, Main.nodes, hpend]
  · rcases hpc i with hpc | hpc
    · simp [hpc] at hb
    · simp [hpc] at hb

end LedgerInv

end Parallel

end Optimer
