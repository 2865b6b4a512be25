import Optimer.Bnb.TreeRun
import Optimer.Common.AllocatorRun

/-! The calls a `SearchTree` makes of its allocator: in every run of the tree they change the counts of
live blocks only, and the live blocks are the nodes created and not destroyed. -/

namespace Optimer
open RefCountedAllocator Transition

namespace AllocatorRun

variable {h : Heap} {al : RefCountedAllocator} {live : Finset ℕ} {free : List ℕ} {a : ℕ}
  {u : AllocatorRun}

/-- The references to the live nodes are those that their counts stand for. -/
structure Serves (u : AllocatorRun) (h : Heap) (al : RefCountedAllocator) (live : Finset ℕ) : Prop where
  heap : u.heap = h
  allocator : u.allocator = al
  refs : ∀ a ∈ live, u.refs a = h.header a
  refs_of_notMem : ∀ a, a ∉ live → u.refs a = 0

namespace Serves

theorem refs_pos (S : u.Serves h al live) (ha : a ∈ live) (hpos : 0 < h.header a) : 0 < u.refs a :=
  (S.refs a ha).symm ▸ hpos

/-- The block handed out is one more live node. -/
theorem allocate {free' : List ℕ} (S : u.Serves h al live)
    (A : AllocateSpec al h free (al.allocate h).1 (al.allocate h).2.1 (al.allocate h).2.2 free')
    (hlt : ∀ b ∈ live, b < h.brk) (hna : (al.allocate h).1 ∉ live) : (u.call .allocate).Serves
      (al.allocate h).2.1 (al.allocate h).2.2 (insert (al.allocate h).1 live) := by
  simp only [call, S.allocator, S.heap]
  refine ⟨rfl, rfl, fun b hb => ?_, fun b hb => ?_⟩
  · rcases Finset.mem_insert.mp hb with rfl | hb
    · simp only [Function.update_self, S.refs_of_notMem _ hna, A.header_self]
    · have hne := ne_of_mem_of_not_mem hb hna
      simp only [Function.update_of_ne hne]
      rw [S.refs b hb, A.header_other b (hlt b hb) hne]
  · obtain ⟨hne, hb⟩ := not_or.mp (Finset.mem_insert.not.mp hb)
    simp only [Function.update_of_ne hne]
    exact S.refs_of_notMem b hb

/-- A change of the count of a live node that stays live. -/
theorem count {c : ℕ} (S : u.Serves h al live) (ha : a ∈ live) :
    Serves { u with heap := { h with header := Function.update h.header a c },
                    refs := Function.update u.refs a c }
      { h with header := Function.update h.header a c } al live := by
  refine ⟨rfl, S.allocator, fun b hb => ?_, fun b hb => ?_⟩
  · rcases eq_or_ne b a with rfl | hne
    · simp only [Function.update_self]
    · simp only [Function.update_of_ne hne]
      exact S.refs b hb
  · simp only [Function.update_of_ne (ne_of_mem_of_not_mem ha hb).symm]
    exact S.refs_of_notMem b hb

theorem incRefs (S : u.Serves h al live) (ha : a ∈ live) :
    (u.call (.incRefs a)).Serves (RefCountedAllocator.incRefs a h) al live := by
  rw [call, RefCountedAllocator.incRefs, S.heap, S.refs a ha]
  exact S.count ha

theorem keep (S : u.Serves h al live) (ha : a ∈ live) (hgt : 1 < h.header a) :
    (u.call (.decRefs a)).Serves { h with header := Function.update h.header a (h.header a - 1) } al
      live := by
  rw [call, S.heap, decRefs_of_one_lt u.allocator hgt, S.refs a ha]
  exact S.count ha

theorem destroy (S : u.Serves h al live) (ha : a ∈ live) (hone : h.header a = 1) :
    (u.call (.decRefs a)).Serves { h with header := Function.update h.header a al.freeList }
      { al with freeList := a } (live.erase a) := by
  rw [call, S.allocator, S.heap, decRefs_of_eq_one al hone]
  refine ⟨rfl, rfl, fun b hb => ?_, fun b hb => ?_⟩
  · obtain ⟨hne, hb⟩ := Finset.mem_erase.mp hb
    simp only [Function.update_of_ne hne]
    exact S.refs b hb
  · rcases eq_or_ne b a with rfl | hne
    · simp only [Function.update_self, S.refs b ha, hone]
    · simp only [Function.update_of_ne hne]
      exact S.refs_of_notMem b fun h => hb (Finset.mem_erase.mpr ⟨hne, h⟩)

end Serves

/-- What a tree has done so far are calls of its allocator that change counts of live blocks only. -/
def Called (h : Heap) (al : RefCountedAllocator) (live : Finset ℕ) : Prop :=
  ∃ calls, (start 1024).LegalRun calls ∧ ((start 1024).run calls).Serves h al live

/-- One more call. -/
theorem Called.call (C : Called h al live) (c : AllocatorCall) {h' : Heap} {al' : RefCountedAllocator}
    {live' : Finset ℕ} (hc : ∀ u : AllocatorRun, u.Serves h al live →
      u.Legal c ∧ (u.call c).Serves h' al' live') : Called h' al' live' := by
  obtain ⟨calls, hlegal, S⟩ := C
  obtain ⟨hc, S'⟩ := hc _ S
  refine ⟨calls ++ [c], legalRun_append.mpr ⟨hlegal, hc, trivial⟩, ?_⟩
  rw [run_append]
  exact S'

end AllocatorRun

namespace TreeRun

open AllocatorRun

variable {D : Type*} [SetData D] {r r' : TreeRun D} {a p : ℕ}

theorem create_called (hI : r.Inv) (C : Called r.mem.heap r.tree.allocator r.live)
    (hp : p = 0 ∨ p ∈ r.live) :
    Called (r.create p).mem.heap (r.create p).tree.allocator (r.create p).live := by
  obtain ⟨rank, free, F, B⟩ := hI
  obtain ⟨free', A, hna, _⟩ := B.allocate
  have C' := C.call .allocate fun u S => ⟨trivial, S.allocate A (fun b => B.lt_brk) hna⟩
  by_cases h0 : p = 0
  · simp only [create, SearchTree.createNode, if_pos h0]
    exact C'
  · have hp' := Finset.mem_insert_of_mem (b := (r.tree.allocator.allocate r.mem.heap).1) (hp.resolve_left h0)
    simp only [create, SearchTree.createNode, if_neg h0]
    refine C'.call (.incRefs p) fun u S => ⟨S.refs_pos hp' ?_, S.incRefs hp'⟩
    have hlive := hp.resolve_left h0
    rw [A.header_other p (B.lt_brk hlive) (ne_of_mem_of_not_mem hlive hna)]
    exact F.pos p hlive

theorem release_called (hI : r.Inv) (C : Called r.mem.heap r.tree.allocator r.live) (ha : a ∈ r.owned)
    (hr : r.release a = some r') : Called r'.mem.heap r'.tree.allocator r'.live := by
  obtain ⟨rank, free, F, B⟩ := hI
  obtain ⟨l, m', t', hl, _, C'⟩ := SearchTree.releaseLoop_rule
    (I := fun m t live => Called m.heap t.allocator live)
    (fun hlive hone C => C.call (.decRefs _) fun u S =>
      ⟨S.refs_pos hlive (hone ▸ Nat.one_pos), S.destroy hlive hone⟩)
    (fun hlive hgt C => C.call (.decRefs _) fun u S =>
      ⟨S.refs_pos hlive (Nat.zero_lt_of_lt hgt), S.keep hlive hgt⟩)
    (F.drop_owner ha) C (.inr (F.owned_subset ha)) (B.card_lt.trans (Nat.lt_succ_self _))
  rw [release, SearchTree.releaseNode, hl, Option.map_some] at hr
  cases hr
  exact C'

theorem called_preserved : Preserved (Step (D := D)) fun r =>
    r.Inv ∧ Called r.mem.heap r.tree.allocator r.live := by
  intro r r' ⟨hI, C⟩ hstep
  refine ⟨inv_preserved hI hstep, ?_⟩
  cases hstep with
  | create hp => exact create_called hI C hp
  | write _ d => exact C
  | release ha hr => exact release_called hI C ha hr

/-- A `SearchTree` changes the counts of live blocks only, and its live nodes are the live blocks of its
allocator. -/
theorem calls_legal (h : Reaches Step (TreeRun.start D) r) : ∃ calls,
    (AllocatorRun.start 1024).LegalRun calls ∧
      ((AllocatorRun.start 1024).run calls).heap = r.mem.heap ∧
      ((AllocatorRun.start 1024).run calls).allocator = r.tree.allocator ∧
      ∀ a, a ∈ r.live ↔ 0 < ((AllocatorRun.start 1024).run calls).refs a := by
  have hstart : Called (start D).mem.heap (start D).tree.allocator (start D).live :=
    ⟨[], trivial, rfl, rfl, fun _ ha => absurd ha (Finset.notMem_empty _), fun _ _ => rfl⟩
  obtain ⟨⟨rank, free, F, B⟩, calls, hlegal, S⟩ := called_preserved.reaches ⟨start_inv, hstart⟩ h
  refine ⟨calls, hlegal, S.heap, S.allocator, fun a => ⟨fun ha => S.refs_pos ha (F.pos a ha), fun hpos => ?_⟩⟩
  by_contra ha
  exact Nat.ne_of_gt hpos (S.refs_of_notMem a ha)

end TreeRun
end Optimer
