import Mathlib.Data.List.Nodup
import Optimer.Common.Allocator

/-! Runs of one `RefCountedAllocator`: any sequence of `allocate`, `inc_refs` and `dec_refs` in which
counts are changed on live blocks only. -/

namespace Optimer
open RefCountedAllocator

/-- The blocks of the reserved areas. -/
def RefCountedAllocator.blocks (al : RefCountedAllocator) : List ℕ :=
  al.areaList.flatMap fun area => List.range' area al.capacity

namespace RefCountedAllocator

variable {al : RefCountedAllocator} {h : Heap} {free : List ℕ}

/-- `reserve` is entered when the free list is null, and adds the new area to the others. -/
theorem allocate_areaList : (al.allocate h).2.2.areaList =
    if al.freeList = 0 then al.areaList ++ [h.brk] else al.areaList := by
  by_cases hnil : al.freeList = 0 <;> simp [allocate, hnil, reserve]

theorem allocate_blocks (hcap : (al.allocate h).2.2.capacity = al.capacity) :
    (al.allocate h).2.2.blocks =
      al.blocks ++ if al.freeList = 0 then List.range' h.brk al.capacity else [] := by
  rw [blocks, hcap, allocate_areaList]
  split
  · rw [List.flatMap_append, List.flatMap_singleton, blocks]
  · rw [List.append_nil, blocks]

end RefCountedAllocator

/-- A call of the allocator, or what the rest of the program does to the heap between two calls. -/
inductive AllocatorCall
  | allocate
  | incRefs (a : ℕ)
  | decRefs (a : ℕ)
  | elsewhere (heap : Heap)

/-- An allocator in use. Beside the state of the code: the references to each block that have been
handed out and not given up. A block is live as long as there is one. -/
structure AllocatorRun where
  heap : Heap
  allocator : RefCountedAllocator
  refs : ℕ → ℕ

namespace AllocatorRun

/-- A new allocator; no memory has been reserved. -/
def start (capacity : ℕ) : AllocatorRun where
  heap := { header := fun _ => 0, brk := 1 }
  allocator := { capacity := capacity }
  refs _ := 0

def call (r : AllocatorRun) : AllocatorCall → AllocatorRun
  | .allocate =>
    let (a, heap, allocator) := r.allocator.allocate r.heap
    { heap := heap, allocator := allocator, refs := Function.update r.refs a (r.refs a + 1) }
  | .incRefs a =>
    { r with heap := incRefs a r.heap, refs := Function.update r.refs a (r.refs a + 1) }
  | .decRefs a =>
    let (_, heap, allocator) := r.allocator.decRefs a r.heap
    { heap := heap, allocator := allocator, refs := Function.update r.refs a (r.refs a - 1) }
  | .elsewhere heap => { r with heap := heap }

/-- Counts are changed on live blocks only. The rest of the program may take memory and write to it,
but leaves the blocks of the allocator alone. -/
def Legal (r : AllocatorRun) : AllocatorCall → Prop
  | .allocate => True
  | .incRefs a => 0 < r.refs a
  | .decRefs a => 0 < r.refs a
  | .elsewhere heap =>
    r.heap.brk ≤ heap.brk ∧ ∀ a ∈ r.allocator.blocks, heap.header a = r.heap.header a

def run (r : AllocatorRun) (calls : List AllocatorCall) : AllocatorRun := calls.foldl call r

def LegalRun (r : AllocatorRun) : List AllocatorCall → Prop
  | [] => True
  | c :: calls => r.Legal c ∧ (r.call c).LegalRun calls

section

variable {r : AllocatorRun} {calls calls' : List AllocatorCall}

theorem run_append : r.run (calls ++ calls') = (r.run calls).run calls' := List.foldl_append

theorem legalRun_append : r.LegalRun (calls ++ calls') ↔ r.LegalRun calls ∧ (r.run calls).LegalRun calls' := by
  induction calls generalizing r with
  | nil => exact (and_iff_right trivial).symm
  | cons c calls ih => exact (and_congr_right fun _ => ih).trans and_assoc.symm

end

/-! ### The invariant -/

/-- Every block of the areas is live or in the free list, and the word in front of a live one is its
count. -/
structure Inv (r : AllocatorRun) (free : List ℕ) : Prop where
  capacity : 0 < r.allocator.capacity
  brk_pos : 0 < r.heap.brk
  linked : Linked r.heap.header r.allocator.freeList free
  nodup : free.Nodup
  free_iff : ∀ a, a ∈ free ↔ a ∈ r.allocator.blocks ∧ r.refs a = 0
  live : ∀ a, 0 < r.refs a → a ∈ r.allocator.blocks ∧ r.heap.header a = r.refs a
  blocks_nodup : r.allocator.blocks.Nodup
  block : ∀ a ∈ r.allocator.blocks, a ≠ 0 ∧ a < r.heap.brk

theorem start_inv {capacity : ℕ} (hcap : 0 < capacity) : (start capacity).Inv [] where
  capacity := hcap
  brk_pos := Nat.one_pos
  linked := rfl
  nodup := .nil
  free_iff _ := iff_of_false List.not_mem_nil fun h => List.not_mem_nil h.1
  live _ h := absurd h (lt_irrefl 0)
  blocks_nodup := .nil
  block _ h := absurd h List.not_mem_nil

variable {r : AllocatorRun} {free : List ℕ} {a : ℕ}

/-- What `allocate` makes of the blocks: the one it hands out comes from the free list, or from a new
area behind all others. -/
structure Taken (r : AllocatorRun) (a : ℕ) (h' : Heap) (al' : RefCountedAllocator) (free' : List ℕ) :
    Prop where
  nodup : (a :: free').Nodup
  free_iff : ∀ b, b ∈ a :: free' ↔ b ∈ al'.blocks ∧ r.refs b = 0
  subset : ∀ b ∈ r.allocator.blocks, b ∈ al'.blocks
  blocks_nodup : al'.blocks.Nodup
  brk_le : r.heap.brk ≤ h'.brk
  block : ∀ b ∈ al'.blocks, b ≠ 0 ∧ b < h'.brk

theorem Inv.taken (I : r.Inv free) {h' : Heap} {al' : RefCountedAllocator} {free' : List ℕ}
    (S : AllocateSpec r.allocator r.heap free a h' al' free')
    (hblocks : al'.blocks = r.allocator.blocks ++
      if r.allocator.freeList = 0 then List.range' r.heap.brk r.allocator.capacity else []) :
    Taken r a h' al' free' := by
  rcases S.source_cases with ⟨rfl, hbrk⟩ | ⟨rfl, hrange, hle, hnd, hnew⟩
  · rw [if_neg fun h0 => List.cons_ne_nil _ _ (I.linked.eq_nil_iff.mpr h0), List.append_nil] at hblocks
    refine ⟨I.nodup, hblocks ▸ I.free_iff, fun b hb => hblocks ▸ hb, hblocks ▸ I.blocks_nodup, hbrk.ge, ?_⟩
    rw [hblocks, hbrk]
    exact I.block
  · rw [if_pos (I.linked.eq_nil_iff.mp rfl), ← hrange] at hblocks
    have hold : ∀ b ∈ r.allocator.blocks, b < r.heap.brk := fun b hb => (I.block b hb).2
    have hmem : ∀ b, b ∈ al'.blocks ↔ b ∈ r.allocator.blocks ∨ b ∈ a :: free' := fun b => by
      rw [hblocks, List.mem_append]
    refine ⟨hnd, fun b => ?_, fun b hb => (hmem b).mpr (.inl hb), ?_, hle, fun b hb => ?_⟩
    · rw [hmem]
      constructor
      · intro hb
        refine ⟨.inr hb, Nat.eq_zero_of_not_pos fun hpos => ?_⟩
        have := hold b (I.live b hpos).1
        have := (hnew b).mp hb
        omega
      · rintro ⟨hb | hb, h0⟩
        · -- an old block without references would be in the free list, which is empty
          exact absurd ((I.free_iff b).mpr ⟨hb, h0⟩) List.not_mem_nil
        · exact hb
    · rw [hblocks]
      refine I.blocks_nodup.append hnd fun b hb hb' => ?_
      have := hold b hb
      have := (hnew b).mp hb'
      omega
    · have hpos := I.brk_pos
      rcases (hmem b).mp hb with hb | hb
      · have := I.block b hb
        omega
      · have := (hnew b).mp hb
        omega

theorem Inv.allocate (I : r.Inv free) : ∃ free', (r.call .allocate).Inv free' := by
  obtain ⟨free', S⟩ := allocate_spec I.capacity I.brk_pos I.linked I.nodup
  have T := I.taken S (allocate_blocks S.capacity)
  have hzero : r.refs (r.allocator.allocate r.heap).1 = 0 := ((T.free_iff _).mp List.mem_cons_self).2
  refine ⟨free', S.capacity ▸ I.capacity, I.brk_pos.trans_le T.brk_le, S.chain,
    (List.nodup_cons.mp T.nodup).2, fun b => ?_, fun b hb => ?_, T.blocks_nodup, T.block⟩
  · rcases eq_or_ne b (r.allocator.allocate r.heap).1 with rfl | hne
    · refine iff_of_false (List.nodup_cons.mp T.nodup).1 fun h => ?_
      exact absurd h.2 (by simp [call])
    · simp only [call, Function.update_of_ne hne]
      rw [← T.free_iff, List.mem_cons, or_iff_right hne]
  · rcases eq_or_ne b (r.allocator.allocate r.heap).1 with rfl | hne
    · refine ⟨((T.free_iff _).mp List.mem_cons_self).1, ?_⟩
      simp only [call, Function.update_self, hzero]
      exact S.header_self
    · simp only [call, Function.update_of_ne hne] at hb ⊢
      obtain ⟨hmem, hcount⟩ := I.live b hb
      exact ⟨T.subset b hmem, (S.header_other b (I.block b hmem).2 hne).trans hcount⟩

/-- A change of the count of a live block that stays live. -/
theorem Inv.count (I : r.Inv free) {c : ℕ} (ha : 0 < r.refs a) (hc : 0 < c) :
    Inv { r with heap := { r.heap with header := Function.update r.heap.header a c },
                 refs := Function.update r.refs a c } free where
  capacity := I.capacity
  brk_pos := I.brk_pos
  linked := I.linked.congr fun b hb => Function.update_of_ne (fun hba => by
    have := ((I.free_iff b).mp hb).2
    rw [hba] at this
    omega) _ _
  nodup := I.nodup
  free_iff b := by
    rw [I.free_iff b]
    rcases eq_or_ne b a with rfl | hne
    · simp only [Function.update_self]
      exact and_congr_right fun _ => iff_of_false (by omega) (by omega)
    · simp only [Function.update_of_ne hne]
  live b hb := by
    rcases eq_or_ne b a with rfl | hne
    · exact ⟨(I.live b ha).1, by simp only [Function.update_self]⟩
    · simp only [Function.update_of_ne hne] at hb ⊢
      exact I.live b hb
  blocks_nodup := I.blocks_nodup
  block := I.block

theorem Inv.incRefs (I : r.Inv free) (ha : 0 < r.refs a) : (r.call (.incRefs a)).Inv free := by
  rw [call, RefCountedAllocator.incRefs, (I.live a ha).2]
  exact I.count ha (Nat.succ_pos _)

/-- A block whose last reference is given up becomes the head of the free list. -/
theorem Inv.decRefs (I : r.Inv free) (ha : 0 < r.refs a) :
    ∃ free', (r.call (.decRefs a)).Inv free' := by
  obtain ⟨hmem, hcount⟩ := I.live a ha
  rcases Nat.lt_or_eq_of_le ha with hgt | hone
  · have I' := I.count (c := r.refs a - 1) ha (by omega)
    refine ⟨free, ?_⟩
    rw [call, decRefs_of_one_lt r.allocator (hcount ▸ hgt), hcount]
    exact I'
  · have hnot : a ∉ free := fun h => by
      have := ((I.free_iff a).mp h).2
      omega
    refine ⟨a :: free, ?_⟩
    rw [call, decRefs_of_eq_one r.allocator (hcount.trans hone.symm)]
    refine ⟨I.capacity, I.brk_pos, decRefs_linked (I.block a hmem).1 hnot I.linked,
      List.nodup_cons.mpr ⟨hnot, I.nodup⟩, fun b => ?_, fun b hb => ?_, I.blocks_nodup, I.block⟩
    · rcases eq_or_ne b a with rfl | hne
      · refine iff_of_true List.mem_cons_self ⟨hmem, ?_⟩
        simp only [Function.update_self, ← hone]
      · simp only [Function.update_of_ne hne]
        rw [List.mem_cons, or_iff_right hne]
        exact I.free_iff b
    · rcases eq_or_ne b a with rfl | hne
      · simp only [Function.update_self, ← hone] at hb
        exact absurd hb (lt_irrefl 0)
      · simp only [Function.update_of_ne hne] at hb ⊢
        exact I.live b hb

theorem Inv.elsewhere (I : r.Inv free) {heap : Heap} (hbrk : r.heap.brk ≤ heap.brk)
    (hheader : ∀ a ∈ r.allocator.blocks, heap.header a = r.heap.header a) :
    (r.call (.elsewhere heap)).Inv free where
  capacity := I.capacity
  brk_pos := I.brk_pos.trans_le hbrk
  linked := I.linked.congr fun b hb => hheader b ((I.free_iff b).mp hb).1
  nodup := I.nodup
  free_iff := I.free_iff
  live b hb := (I.live b hb).imp_right fun h => (hheader b (I.live b hb).1).trans h
  blocks_nodup := I.blocks_nodup
  block b hb := (I.block b hb).imp_right fun h => h.trans_le hbrk

theorem Inv.call (I : r.Inv free) {c : AllocatorCall} (h : r.Legal c) :
    ∃ free', (r.call c).Inv free' := by
  cases c with
  | allocate => exact I.allocate
  | incRefs a => exact ⟨free, I.incRefs h⟩
  | decRefs a => exact I.decRefs h
  | elsewhere heap => exact ⟨free, I.elsewhere h.1 h.2⟩

theorem Inv.run (I : r.Inv free) {calls : List AllocatorCall} (h : r.LegalRun calls) :
    ∃ free', (r.run calls).Inv free' := by
  induction calls generalizing r free with
  | nil => exact ⟨free, I⟩
  | cons c calls ih =>
    obtain ⟨free', I'⟩ := I.call h.1
    exact ih I' h.2

/-! ### What the allocator promises -/

/-- What holds between two calls. -/
structure Sound (r : AllocatorRun) : Prop where
  /-- The links lead from block to block, never back to one, and end in null. Each block of each area
  is live with a positive count, or in the free list exactly once. -/
  free : ∃ free, Linked r.heap.header r.allocator.freeList free ∧ free.Nodup ∧
    (∀ a ∈ free, a ∈ r.allocator.blocks) ∧ ∀ a ∈ r.allocator.blocks,
      0 < r.refs a ∧ r.heap.header a = r.refs a ∧ free.count a = 0 ∨ r.refs a = 0 ∧ free.count a = 1
  live_mem : ∀ a, 0 < r.refs a → a ∈ r.allocator.blocks
  /-- No two areas have a block in common. -/
  blocks_nodup : r.allocator.blocks.Nodup
  /-- `allocate` hands out a block that is not live, with a count of one. -/
  allocate : r.refs (r.allocator.allocate r.heap).1 = 0 ∧
    (r.allocator.allocate r.heap).2.1.header (r.allocator.allocate r.heap).1 = 1 ∧
    (r.allocator.allocate r.heap).1 ∈ (r.allocator.allocate r.heap).2.2.blocks
  /-- `allocate` goes into `reserve`, which adds an area, just when all blocks are live. -/
  reserve : (r.allocator.allocate r.heap).2.2.areaList ≠ r.allocator.areaList ↔
    ∀ a ∈ r.allocator.blocks, 0 < r.refs a

theorem Inv.sound (I : r.Inv free) : r.Sound := by
  obtain ⟨free', S⟩ := allocate_spec I.capacity I.brk_pos I.linked I.nodup
  have T := I.taken S (allocate_blocks S.capacity)
  refine ⟨⟨free, I.linked, I.nodup, fun a ha => ((I.free_iff a).mp ha).1, fun a ha => ?_⟩,
    fun a ha => (I.live a ha).1, I.blocks_nodup, ?_, ?_⟩
  · rcases Nat.eq_zero_or_pos (r.refs a) with h0 | hpos
    · exact .inr ⟨h0, List.count_eq_one_of_mem I.nodup ((I.free_iff a).mpr ⟨ha, h0⟩)⟩
    · refine .inl ⟨hpos, (I.live a hpos).2, List.count_eq_zero_of_not_mem fun hfree => ?_⟩
      exact absurd ((I.free_iff a).mp hfree).2 (Nat.ne_of_gt hpos)
  · obtain ⟨hmem, hzero⟩ := (T.free_iff _).mp List.mem_cons_self
    exact ⟨hzero, S.header_self, hmem⟩
  · have hentered : (r.allocator.allocate r.heap).2.2.areaList ≠ r.allocator.areaList ↔ free = [] := by
      rw [allocate_areaList, I.linked.eq_nil_iff]
      split
      · next h0 => exact iff_of_true (by simp) h0
      · next h0 => exact iff_of_false (fun h => h rfl) h0
    rw [hentered]
    constructor
    · rintro rfl a ha
      exact Nat.pos_of_ne_zero fun h0 => List.not_mem_nil ((I.free_iff a).mpr ⟨ha, h0⟩)
    · intro hall
      refine List.eq_nil_iff_forall_not_mem.mpr fun a ha => ?_
      obtain ⟨hmem, h0⟩ := (I.free_iff a).mp ha
      exact Nat.ne_of_gt (hall a hmem) h0

/-- The free list and the counts, after every sequence of calls of every allocator. -/
theorem allocator_sound {capacity : ℕ} (hcap : 0 < capacity) {calls : List AllocatorCall}
    (h : (start capacity).LegalRun calls) : ((start capacity).run calls).Sound := by
  obtain ⟨free, I⟩ := (start_inv hcap).run h
  exact I.sound

/-- Three blocks in two areas; the second one is given up and handed out again. -/
theorem allocator_sound_reuse :
    ((start 2).run [.allocate, .incRefs 1, .allocate, .allocate, .decRefs 2, .decRefs 1, .allocate]).Sound ∧
      ((start 2).run [.allocate, .incRefs 1, .allocate, .allocate, .decRefs 2, .decRefs 1,
        .allocate]).allocator.areaList = [1, 3] := by
  refine ⟨allocator_sound (by decide) ⟨trivial, ?_, trivial, trivial, ?_, ?_, trivial, trivial⟩, by decide⟩
  all_goals
    unfold Legal
    decide

/-! ### The counts fit in a word -/

theorem refs_call_le (r : AllocatorRun) (c : AllocatorCall) (a : ℕ) : (r.call c).refs a ≤ r.refs a + 1 := by
  cases c with
  | elsewhere heap => exact Nat.le_succ _
  | allocate | incRefs b | decRefs b =>
    simp only [AllocatorRun.call, Function.update_apply]
    split
    · next h => subst h; omega
    · exact Nat.le_succ _

theorem refs_run_le (r : AllocatorRun) (calls : List AllocatorCall) (a : ℕ) :
    (r.run calls).refs a ≤ r.refs a + calls.length := by
  induction calls generalizing r with
  | nil => exact le_rfl
  | cons c calls ih =>
    have hhead := refs_call_le r c a
    have htail := ih (r.call c)
    rw [List.length_cons]
    exact htail.trans (by omega)

/-- The count of a live block is at most the number of calls, so that a `size_t` does not wrap round in
fewer than `2 ^ 64` of them. -/
theorem header_le_length {capacity : ℕ} (hcap : 0 < capacity) {calls : List AllocatorCall}
    (h : (start capacity).LegalRun calls) (ha : 0 < ((start capacity).run calls).refs a) :
    ((start capacity).run calls).heap.header a ≤ calls.length := by
  obtain ⟨free, I⟩ := (start_inv hcap).run h
  rw [(I.live a ha).2]
  exact (refs_run_le _ _ _).trans_eq (Nat.zero_add _)

end AllocatorRun
end Optimer
