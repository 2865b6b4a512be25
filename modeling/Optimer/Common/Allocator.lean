import Mathlib.Data.List.Nodup
import Mathlib.Data.List.Range
import Mathlib.Logic.Function.Basic
import Optimer.Lib.Linked

/-! The reference-counting block allocator (`common/allocator-inl.h`). The header of a block is one
word, read as the link of the free list or as the reference count; the areas of all allocators
lie in one heap, so that several of them can exchange blocks. A block is known by one address,
that of its element as well as that of its data (the two are a fixed distance apart); the null
pointer is `0`. -/

namespace Optimer

/-- The header words of all blocks, and the first address that no area covers yet. -/
structure Heap where
  header : ℕ → ℕ
  brk : ℕ

structure RefCountedAllocator where
  capacity : ℕ
  areaList : List ℕ := []
  freeList : ℕ := 0

namespace RefCountedAllocator

/-- The loop of `reserve` that links the first `n` blocks of an area, each to the next one. -/
def linkArea (area : ℕ) (header : ℕ → ℕ) : ℕ → ℕ → ℕ
  | 0 => header
  | n + 1 => Function.update (linkArea area header n) (area + n) (area + n + 1)

def reserve (al : RefCountedAllocator) (h : Heap) : Heap × RefCountedAllocator :=
  let area := h.brk
  let header := linkArea area h.header (al.capacity - 1)
  ({ header := Function.update header (area + (al.capacity - 1)) al.freeList,
     brk := h.brk + al.capacity },
   { al with freeList := area, areaList := al.areaList ++ [area] })

def incRefs (a : ℕ) (h : Heap) : Heap :=
  { h with header := Function.update h.header a (h.header a + 1) }

def allocate (al : RefCountedAllocator) (h : Heap) : ℕ × Heap × RefCountedAllocator :=
  let (h, al) := if al.freeList = 0 then al.reserve h else (h, al)
  let elem := al.freeList
  let al := { al with freeList := h.header elem }
  let h := { h with header := Function.update h.header elem 0 }
  (elem, incRefs elem h, al)

/-- The new count; the block goes to the free list when that is zero. -/
def decRefs (al : RefCountedAllocator) (a : ℕ) (h : Heap) : ℕ × Heap × RefCountedAllocator :=
  let refs := h.header a - 1
  if refs = 0 then
    (refs, { h with header := Function.update h.header a al.freeList }, { al with freeList := a })
  else
    (refs, { h with header := Function.update h.header a refs }, al)

/-! ### The free list -/

variable {header header' : ℕ → ℕ} {p a area : ℕ} {l free : List ℕ}
  {al : RefCountedAllocator} {h : Heap}

theorem linkArea_of_lt {n i : ℕ} (hi : i < n) :
    linkArea area header n (area + i) = area + i + 1 := by
  induction n with
  | zero => cases hi
  | succ n ih =>
    by_cases hin : i = n
    · rw [hin, linkArea, Function.update_self]
    · rw [linkArea, Function.update_of_ne (by omega), ih (by omega)]

theorem linkArea_of_notMem {n : ℕ} (ha : a < area ∨ area + n ≤ a) :
    linkArea area header n a = header a := by
  induction n with
  | zero => rfl
  | succ n ih => rw [linkArea, Function.update_of_ne (by omega), ih (by omega)]

/-- Blocks linked each to the next one, the last to null. -/
theorem linked_range' {k : ℕ} (harea : area ≠ 0)
    (hlink : ∀ i, i + 1 < k → header (area + i) = area + i + 1)
    (hlast : ∀ i, i + 1 = k → header (area + i) = 0) :
    Linked header (if k = 0 then 0 else area) (List.range' area k) := by
  induction k generalizing area with
  | zero => rfl
  | succ k ih =>
    have htail := ih (show area + 1 ≠ 0 by omega)
      (fun i hi => by rw [show area + 1 + i = area + (i + 1) by omega, hlink (i + 1) (by omega)])
      (fun i hi => by rw [show area + 1 + i = area + (i + 1) by omega, hlast (i + 1) (by omega)])
    have hnext : header area = if k = 0 then 0 else area + 1 := by
      split
      · next hk => simpa using hlast 0 (by omega)
      · next hk => simpa using hlink 0 (by omega)
    exact ⟨by simp, harea, hnext ▸ htail⟩

@[simp] theorem reserve_header : (al.reserve h).1.header =
    Function.update (linkArea h.brk h.header (al.capacity - 1)) (h.brk + (al.capacity - 1))
      al.freeList := rfl

@[simp] theorem reserve_brk : (al.reserve h).1.brk = h.brk + al.capacity := rfl

@[simp] theorem reserve_freeList : (al.reserve h).2.freeList = h.brk := rfl

@[simp] theorem reserve_capacity : (al.reserve h).2.capacity = al.capacity := rfl

theorem reserve_header_of_lt (ha : a < h.brk) : (al.reserve h).1.header a = h.header a := by
  rw [reserve_header, Function.update_of_ne (by omega), linkArea_of_notMem (.inl ha)]

/-- `reserve` with an empty free list makes one out of the new area. -/
theorem reserve_linked (hcap : 0 < al.capacity) (hbrk : 0 < h.brk) (hnil : al.freeList = 0) :
    Linked (al.reserve h).1.header (al.reserve h).2.freeList
      (List.range' h.brk al.capacity) := by
  have hlink : ∀ i, i + 1 < al.capacity → (al.reserve h).1.header (h.brk + i) = h.brk + i + 1 :=
    fun i hi => by rw [reserve_header, Function.update_of_ne (by omega), linkArea_of_lt (by omega)]
  have hlast : ∀ i, i + 1 = al.capacity → (al.reserve h).1.header (h.brk + i) = 0 :=
    fun i hi => by rw [reserve_header, ← hi, Nat.add_sub_cancel, Function.update_self, hnil]
  have hchain := linked_range' (show h.brk ≠ 0 by omega) hlink hlast
  rwa [if_neg (by omega)] at hchain

/-! ### The operations on a well-formed free list -/

/-- What `allocate` does: the block `a` comes from the head of the free list, which is a new area
when there was no free block, and its count is one. -/
structure AllocateSpec (al : RefCountedAllocator) (h : Heap) (free : List ℕ)
    (a : ℕ) (h' : Heap) (al' : RefCountedAllocator) (free' : List ℕ) : Prop where
  chain : Linked h'.header al'.freeList free'
  capacity : al'.capacity = al.capacity
  header_self : h'.header a = 1
  header_other : ∀ b, b < h.brk → b ≠ a → h'.header b = h.header b
  source : free = a :: free' ∧ h'.brk = h.brk ∨
    free = [] ∧ a :: free' = List.range' h.brk al.capacity ∧ h'.brk = h.brk + al.capacity

/-- The chain that the block comes from is the free list, or new memory. -/
theorem AllocateSpec.source_cases {a : ℕ} {h' : Heap} {al' : RefCountedAllocator} {free' : List ℕ}
    (S : AllocateSpec al h free a h' al' free') :
    free = a :: free' ∧ h'.brk = h.brk ∨
      free = [] ∧ a :: free' = List.range' h.brk al.capacity ∧ h.brk ≤ h'.brk ∧ (a :: free').Nodup ∧
        ∀ b, b ∈ a :: free' ↔ h.brk ≤ b ∧ b < h'.brk := by
  refine S.source.imp_right fun ⟨hnil, hrange, hbrk⟩ => ⟨hnil, hrange, ?_, ?_, fun b => ?_⟩
  · rw [hbrk]
    exact Nat.le_add_right _ _
  · rw [hrange]
    exact List.nodup_range'
  · rw [hrange, List.mem_range'_1, hbrk]

theorem allocate_of_ne_zero (hne : al.freeList ≠ 0) :
    al.allocate h = (al.freeList, { h with header := Function.update h.header al.freeList 1 },
      { al with freeList := h.header al.freeList }) := by
  simp [allocate, incRefs, if_neg hne]

/-- Taking the head of a free list that is not empty. -/
theorem allocate_cons (hc : Linked h.header al.freeList (a :: l)) (hnd : (a :: l).Nodup) :
    (al.allocate h).1 = a ∧ (al.allocate h).2.1.brk = h.brk ∧
      AllocateSpec al h (a :: l) a (al.allocate h).2.1 (al.allocate h).2.2 l := by
  obtain ⟨rfl, ha, hl⟩ := hc
  rw [allocate_of_ne_zero ha]
  have hother : ∀ b, b ≠ al.freeList → Function.update h.header al.freeList 1 b = h.header b :=
    fun b hb => Function.update_of_ne hb _ _
  refine ⟨rfl, rfl, ?_, rfl, Function.update_self .., fun b _ => hother b, .inl ⟨rfl, rfl⟩⟩
  exact hl.congr fun b hb => hother b fun hba => (List.nodup_cons.mp hnd).1 (hba ▸ hb)

theorem allocate_of_nil (hbrk : 0 < h.brk) (hnil : al.freeList = 0) :
    al.allocate h = (al.reserve h).2.allocate (al.reserve h).1 := by
  have hne : (al.reserve h).2.freeList ≠ 0 := by rw [reserve_freeList]; omega
  simp only [allocate, if_pos hnil, if_neg hne]

theorem allocate_spec (hcap : 0 < al.capacity) (hbrk : 0 < h.brk)
    (hc : Linked h.header al.freeList free) (hnd : free.Nodup) :
    ∃ free', AllocateSpec al h free (al.allocate h).1 (al.allocate h).2.1 (al.allocate h).2.2
      free' := by
  cases free with
  | cons a l =>
    obtain ⟨ha, _, hspec⟩ := allocate_cons hc hnd
    exact ⟨l, ha.symm ▸ hspec⟩
  | nil =>
    have hnil : al.freeList = 0 := hc
    obtain ⟨k, hk⟩ : ∃ k, al.capacity = k + 1 := ⟨al.capacity - 1, by omega⟩
    have hc' := reserve_linked hcap hbrk hnil
    have hrange : List.range' h.brk al.capacity = h.brk :: List.range' (h.brk + 1) k := by
      rw [hk, List.range'_succ]
    obtain ⟨ha, hb, hspec⟩ := allocate_cons (hrange ▸ hc') (hrange ▸ List.nodup_range')
    rw [← allocate_of_nil hbrk hnil] at ha hb hspec
    refine ⟨_, hspec.chain, hspec.capacity, ha ▸ hspec.header_self, fun b hlt hne => ?_,
      .inr ⟨rfl, by rw [ha, hrange], hb⟩⟩
    have hlt' : b < (al.reserve h).1.brk := by rw [reserve_brk]; omega
    rw [hspec.header_other b hlt' (ha ▸ hne), reserve_header_of_lt hlt]

theorem decRefs_of_eq_one (al : RefCountedAllocator) (ha : h.header a = 1) :
    al.decRefs a h = (0, { h with header := Function.update h.header a al.freeList },
      { al with freeList := a }) := by
  simp [decRefs, ha]

theorem decRefs_of_one_lt (al : RefCountedAllocator) (ha : 1 < h.header a) :
    al.decRefs a h = (h.header a - 1,
      { h with header := Function.update h.header a (h.header a - 1) }, al) := by
  rw [decRefs, if_neg (by omega)]

/-- A block whose count falls to zero becomes the head of the free list. -/
theorem decRefs_linked (ha0 : a ≠ 0) (ha : a ∉ free)
    (hc : Linked h.header al.freeList free) :
    Linked (Function.update h.header a al.freeList) a (a :: free) := by
  refine ⟨rfl, ha0, ?_⟩
  rw [Function.update_self]
  exact hc.congr fun b hb => Function.update_of_ne (fun hba => ha (by rwa [← hba])) _ _

end RefCountedAllocator
end Optimer
