import Optimer.Bnb.Ledger
import Optimer.Bnb.MTCounts

/-! The ledger of the trees whose counts are kept word by word. Which thread a node belongs to is no part of the
state of the code: it may be any assignment that goes with the run. -/

namespace Optimer.MTCounts
open RefCountedAllocator

variable {ι D : Type*} {r : MTCounts ι D} {t u : ι} {a b p x : ℕ} {d : D} {l : List D} {holder : ℕ → ι}

def ledger (r : MTCounts ι D) : Ledger D := r.toMTRun.ledger

def heldBy (r : MTCounts ι D) (holder : ℕ → ι) : MTCounts ι D := { r with holder }

section Calls

variable [DecidableEq ι] [SetData D]

/-- The node that `create_node` makes. -/
def created (r : MTCounts ι D) (t : ι) : ℕ := (r.tree.createNode t r.mem 0).1

theorem create_ledger : (r.create t p).ledger = r.ledger.create (r.created t) p := rfl

omit [DecidableEq ι] [SetData D] in
theorem write_ledger : ledger { r with toMTRun := r.toMTRun.write x d } = r.ledger.write x d := rfl

omit [SetData D] in
theorem release_ledger : (r.release t a).ledger = r.ledger.release a r.live := rfl

theorem heldBy_create :
    (r.heldBy holder).create t p = (r.create t p).heldBy (Function.update holder (r.created t) t) := rfl

theorem create_parent : (r.create t p).mem.parent = Function.update r.mem.parent (r.created t) p := by
  simp only [create, created, MTSearchTree.createNode, SearchTree.createNode, Function.update_idem]

theorem create_access_of_ne (hu : u ≠ t) : (r.create t p).access u = r.access u := Function.update_of_ne hu ..

omit [SetData D] in
theorem release_access_of_ne (hu : u ≠ t) : (r.release t a).access u = r.access u := Function.update_of_ne hu ..

/-- What a read or write within a call leaves alone. -/
structure Advanced (t : ι) (r r' : MTCounts ι D) : Prop where
  parent : r'.mem.parent = r.mem.parent
  owned : r'.owned = r.owned
  made : r'.made = r.made
  live : r'.live ⊆ r.live
  access : ∀ u, u ≠ t → r'.access u = r.access u
  idle : r.Idle t → r' = r

theorem advanced (r : MTCounts ι D) (t : ι) : Advanced t r (r.advance t) := by
  have hne : ∀ {x u}, u ≠ t → Function.update r.access t x u = r.access u := fun hu => Function.update_of_ne hu ..
  rw [advance]
  cases ht : r.access t with
  | idle => exact ⟨rfl, rfl, rfl, subset_rfl, fun _ _ => rfl, fun _ => rfl⟩
  | decWrite a n =>
    refine ⟨?_, ?_, ?_, ?_, fun u hu => ?_, fun hi => ?_⟩
    · simp only [decWrite]
      split <;> rfl
    · simp only [decWrite]
      split <;> rfl
    · simp only [decWrite]
      split <;> rfl
    · simp only [decWrite]
      split
      · exact Finset.erase_subset _ _
      · exact subset_rfl
    · simp only [decWrite]
      split
      · exact hne hu
      · exact hne hu
    · cases ht.symm.trans hi
  | _ => exact ⟨rfl, rfl, rfl, subset_rfl, fun u hu => hne hu, fun hi => by cases ht.symm.trans hi⟩

theorem heldBy_advance : (r.heldBy holder).advance t = (r.advance t).heldBy holder := by
  have hsame : (r.heldBy holder).access t = r.access t := rfl
  simp only [advance, hsame]
  cases r.access t with
  | decWrite a n =>
    by_cases hn : n - 1 = 0
    · simp only [decWrite_of_eq hn]
      rfl
    · simp only [decWrite_of_ne hn]
      rfl
  | _ => rfl

/-- After the write of a count the call is at its end, or at the parent next. -/
theorem decWrite_next (r : MTCounts ι D) (t : ι) (a n : ℕ) : (r.decWrite t a n).Idle t ∨
    r.mem.parent a ≠ 0 ∧ (r.decWrite t a n).access t = .decRead (r.mem.parent a) := by
  by_cases hn : n - 1 = 0
  · by_cases h0 : r.mem.parent a = 0
    · refine .inl ?_
      rw [decWrite_of_eq hn, if_pos h0]
      exact Function.update_self ..
    · refine .inr ⟨h0, ?_⟩
      rw [decWrite_of_eq hn, if_neg h0]
      exact Function.update_self ..
  · refine .inl ?_
    rw [decWrite_of_ne hn]
    exact Function.update_self ..

theorem advance_ledger : (r.advance t).ledger = { r.ledger with live := (r.advance t).live } := by
  have h := r.advanced t
  simp only [ledger, MTRun.ledger, h.owned, h.made]

end Calls

/-! ### The invariant -/

section Inv

variable [Fintype ι]

theorem Inv.ledger (h : r.Inv) : r.ledger.Inv where
  owned_subset := h.shape.owned_subset
  ne_zero := h.shape.ne_zero
  parent_mem a ha h0 := by
    have heq : r.mem.parent a = (r.made a).1 := congrArg Prod.fst (h.shape.made_eq a ha)
    simp only [MTCounts.ledger, MTRun.ledger, ← heq] at ha h0 ⊢
    exact h.shape.parent_mem a ha h0

theorem Inv.reads_iff (h : r.Inv) (ha : a ∈ r.live) : r.mem.Reads a l ↔ r.ledger.Path a l :=
  h.ledger.reads_iff h.shape.made_eq ha

/-- Some nodes that nobody has branched on change hands, while their holders are between two calls. -/
theorem Inv.hands (h : r.Inv) (hmove : ∀ a ∈ r.owned, holder a ≠ r.holder a →
    r.Idle (r.holder a) ∧ r.mem.parent a ∉ r.owned ∧ ∀ c ∈ r.live, r.mem.parent c ≠ a) : (r.heldBy holder).Inv := by
  -- a node that a thread is at, or that is above one in use, stays with its holder
  have hat : ∀ a ∈ r.owned, ¬ r.Idle (r.holder a) → holder a = r.holder a := by
    intro a ha hbusy
    by_contra hne
    exact hbusy (hmove a ha hne).1
  have habove : ∀ c ∈ r.live, r.mem.parent c ∈ r.owned → holder (r.mem.parent c) = r.holder (r.mem.parent c) := by
    intro c hc hp
    by_contra hne
    exact (hmove _ hp hne).2.2 c hc rfl
  have hbusy : ∀ t b, 0 < (r.access t).incs b ∨ 0 < (r.access t).drops b → ¬ r.Idle t := by
    intro t b hpos hidle
    rw [show r.access t = .idle from hidle, Access.incs_idle, Access.drops_idle, or_self] at hpos
    exact lt_irrefl 0 hpos
  refine ⟨⟨h.shape.1, h.shape.2, h.shape.3, h.shape.4, h.shape.5, h.shape.6⟩,
    ⟨?_, h.use.incWrite, ?_, ?_, h.use.leaf, h.use.fresh⟩, ⟨h.counted.1, h.counted.2, h.counted.3⟩⟩
  · intro t p hpos
    obtain ⟨howned, hholder⟩ := h.use.inc t p hpos
    exact ⟨howned, (hat p howned (hholder.symm ▸ hbusy t p (.inl hpos))).trans hholder⟩
  · intro t b hpos
    obtain ⟨hlive, hown, hpar⟩ := h.use.dec t b hpos
    refine ⟨hlive, fun hb => ?_, fun hp => (habove b hlive hp).trans (hpar hp)⟩
    obtain ⟨hholder, hroot⟩ := hown hb
    exact ⟨(hat b hb (hholder.symm ▸ hbusy t b (.inr hpos))).trans hholder, hroot⟩
  · intro c hc hp
    have hheld := habove c hc hp
    show (c ∈ r.owned ∧ holder c = holder (r.mem.parent c)) ∨ 0 < (r.access (holder (r.mem.parent c))).drops c
    rw [hheld]
    refine (h.use.child c hc hp).imp_left fun hholds => ⟨hholds.1, ?_⟩
    refine Eq.trans ?_ hholds.2
    by_contra hne
    exact (hmove c hholds.1 hne).2.1 hp

variable [DecidableEq ι] [SetData D]

theorem Inv.created (h : r.Inv) (t : ι) : r.created t ∉ r.live ∧ r.created t ≠ 0 := by
  obtain ⟨free, B⟩ := h.shape.blocks
  obtain ⟨a, m, s, _, heq, hna, ha0, _⟩ := exists_created B t
  have hcreated : r.created t = a := congrArg Prod.fst heq
  rw [hcreated]
  exact ⟨hna, ha0⟩

/-- The loop of `release_node` ends, at a root at the latest. -/
theorem Inv.exists_released {rank : ℕ → ℕ} (h : r.Inv)
    (hrank : ∀ a ∈ r.live, r.mem.parent a ≠ 0 → rank (r.mem.parent a) < rank a) (ht : r.access t = .decRead a) :
    ∃ k, ((fun r : MTCounts ι D => r.advance t)^[k] r).Idle t := by
  induction hk : rank a using Nat.strong_induction_on generalizing r a with
  | _ n ih =>
    subst hk
    have hpos : 0 < (r.access t).drops a := by simp [ht, Access.drops]
    obtain ⟨hlive, _⟩ := h.use.dec t a hpos
    have hround : (r.advance t).advance t = r.decWrite t a (r.mem.heap.header a) := advance_decRead ht
    have hfirst := r.advanced t
    have hsecond := (r.advance t).advanced t
    rcases decWrite_next r t a (r.mem.heap.header a) with hidle | ⟨h0, hnext⟩
    · refine ⟨2, ?_⟩
      show ((r.advance t).advance t).Idle t
      rwa [hround]
    · have hparent : ((r.advance t).advance t).mem.parent = r.mem.parent := hsecond.parent.trans hfirst.parent
      obtain ⟨k, hk⟩ := ih (rank (r.mem.parent a)) (hrank a hlive h0) ((h.advance t).advance t)
        (fun b hb => hparent ▸ hrank b (hfirst.live (hsecond.live hb))) (hround ▸ hnext) rfl
      exact ⟨k + 2, by rwa [Function.iterate_add_apply]⟩

/-- A call under way comes to its end. -/
theorem Inv.exists_idle (h : r.Inv) (t : ι) : ∃ k, ((fun r : MTCounts ι D => r.advance t)^[k] r).Idle t := by
  obtain ⟨rank, hrank⟩ := h.shape.ranked
  have hadv := r.advanced t
  cases ht : r.access t with
  | idle => exact ⟨0, ht⟩
  | incRead p =>
    refine ⟨2, ?_⟩
    show ((r.advance t).advance t).Idle t
    rw [advance_incRead ht]
    exact access_go_self
  | incWrite p n =>
    refine ⟨1, ?_⟩
    show (r.advance t).Idle t
    rw [MTCounts.advance, ht]
    exact access_go_self
  | decRead a => exact h.exists_released hrank ht
  | decWrite a n =>
    have hstep : r.advance t = r.decWrite t a n := by rw [MTCounts.advance, ht]
    rcases decWrite_next r t a n with hidle | ⟨_, hnext⟩
    · refine ⟨1, ?_⟩
      show (r.advance t).Idle t
      rwa [hstep]
    · obtain ⟨k, hk⟩ := (h.advance t).exists_released (fun c hc => hadv.parent ▸ hrank c (hadv.live hc))
        (hstep.symm ▸ hnext)
      exact ⟨k + 1, by rwa [Function.iterate_add_apply]⟩

end Inv

end Optimer.MTCounts
