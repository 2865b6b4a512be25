import Mathlib.Data.Finset.Card
import Mathlib.Data.Finset.Max
import Mathlib.Algebra.Order.BigOperators.Group.Finset
import Optimer.Lib.Transition
import Optimer.Common.Allocator

/-! The search tree of the solvers (`bnb/tree-inl.h`): nodes in blocks of a `RefCountedAllocator`,
each counted once for its owner and once for every live child. -/

namespace Optimer
open RefCountedAllocator

/-- What the tree asks of the solver's `Set`: its default value and `clear()`. -/
class SetData (D : Type*) extends Inhabited D where
  clear : D → D

/-- The blocks of the areas as nodes: header word, `parent` and `data`. -/
structure Memory (D : Type*) where
  heap : Heap
  parent : ℕ → ℕ
  data : ℕ → D

/-- The values of an `int`; arithmetic that leaves them is undefined. -/
def IntRange (z : ℤ) : Prop := -2 ^ 31 ≤ z ∧ z < 2 ^ 31

instance (z : ℤ) : Decidable (IntRange z) := inferInstanceAs (Decidable (_ ∧ _))

/-- `num_nodes_` is an `int`; here it counts on, and the results about it say where it is in `IntRange`. -/
structure SearchTree where
  numNodes : ℤ := 0
  allocator : RefCountedAllocator := { capacity := 1024 }

namespace SearchTree

variable {D : Type*} [SetData D]

def createNode (t : SearchTree) (m : Memory D) (parent : ℕ) : ℕ × Memory D × SearchTree :=
  let (result, heap, allocator) := t.allocator.allocate m.heap
  let heap := if parent = 0 then heap else incRefs parent heap
  (result,
   { heap := heap
     parent := Function.update m.parent result parent
     data := Function.update m.data result default },
   { numNodes := t.numNodes + 1, allocator := allocator })

/-- The loop of `release_node`, for at most `fuel` rounds: the nodes it destroys, from the given
one upwards, and the state it leaves. -/
def releaseLoop : ℕ → SearchTree → Memory D → ℕ → Option (List ℕ × Memory D × SearchTree)
  | 0, _, _, _ => none
  | fuel + 1, t, m, node =>
    if node = 0 then some ([], m, t) else
      let (refs, heap, allocator) := t.allocator.decRefs node m.heap
      if refs = 0 then
        let t := { numNodes := t.numNodes - 1, allocator := allocator }
        let m := { m with heap := heap,
                          data := Function.update m.data node (SetData.clear (m.data node)) }
        (releaseLoop fuel t m (m.parent node)).map fun (l, m, t) => (node :: l, m, t)
      else some ([], { m with heap := heap }, { t with allocator := allocator })

/-- `release_node`; a chain of parents has at most as many nodes as there are addresses. -/
def releaseNode (t : SearchTree) (m : Memory D) (node : ℕ) :
    Option (List ℕ × Memory D × SearchTree) :=
  releaseLoop (m.heap.brk + 1) t m node

def numUnfreedNodes (t : SearchTree) : ℤ := t.numNodes

end SearchTree

/-! ### Reference counts -/

/-- The count a node has by the tree's shape: its live children, and one for the owner that has
not released it. -/
def refCount (parent : ℕ → ℕ) (live owned : Finset ℕ) (a : ℕ) : ℕ :=
  (live.filter (parent · = a)).card + if a ∈ owned then 1 else 0

section RefCount

variable {parent : ℕ → ℕ} {live owned : Finset ℕ} {a b p : ℕ}

theorem refCount_pos_iff :
    0 < refCount parent live owned a ↔ (∃ b ∈ live, parent b = a) ∨ a ∈ owned := by
  have hcard : 0 < (live.filter (parent · = a)).card ↔ ∃ b ∈ live, parent b = a := by
    rw [Finset.card_pos]
    exact ⟨fun ⟨b, hb⟩ => ⟨b, (Finset.mem_filter.mp hb).1, (Finset.mem_filter.mp hb).2⟩,
      fun ⟨b, hb, hp⟩ => ⟨b, Finset.mem_filter.mpr ⟨hb, hp⟩⟩⟩
  rw [← hcard, refCount]
  split <;> simp_all

/-- Releasing an owned node takes one from its count and leaves the others. -/
theorem refCount_erase_owned (ha : a ∈ owned) :
    refCount parent live owned b =
      refCount parent live (owned.erase a) b + if b = a then 1 else 0 := by
  by_cases hb : b = a
  · simp [refCount, hb, ha]
  · simp [refCount, hb]

/-- Destroying a node without children takes one from the count of its parent. -/
theorem refCount_erase_live (ha : a ∈ live) :
    refCount parent live owned b =
      refCount parent (live.erase a) owned b + if b = parent a then 1 else 0 := by
  by_cases hb : parent a = b
  · subst hb
    have hmem : a ∈ live.filter (parent · = parent a) := Finset.mem_filter.mpr ⟨ha, rfl⟩
    simp only [refCount, Finset.filter_erase, Finset.card_erase_of_mem hmem]
    have := Finset.card_pos.mpr ⟨a, hmem⟩
    simp; omega
  · have hmem : a ∉ live.filter (parent · = b) := fun h => hb (Finset.mem_filter.mp h).2
    simp [refCount, Finset.filter_erase, Finset.erase_eq_of_notMem hmem, Ne.symm hb]

/-- A new node counts once for its owner and adds one to its parent. -/
theorem refCount_insert (ha : a ∉ live) (howned : a ∉ owned)
    (hchild : ∀ c ∈ live, parent c ≠ a) (hp : p ≠ a) :
    refCount (Function.update parent a p) (insert a live) (insert a owned) b =
      if b = a then 1 else refCount parent live owned b + if b = p then 1 else 0 := by
  have hfilter : ∀ c ∈ live, (Function.update parent a p c = b) = (parent c = b) := fun c hc => by
    rw [Function.update_of_ne (ne_of_mem_of_not_mem hc ha)]
  have hlive : live.filter (Function.update parent a p · = b) = live.filter (parent · = b) :=
    Finset.filter_congr fun c hc => (hfilter c hc).to_iff
  have hmem : a ∉ live.filter (parent · = b) := fun h => ha (Finset.mem_filter.mp h).1
  by_cases hb : b = a
  · subst hb
    have hnone : live.filter (parent · = b) = ∅ := Finset.filter_eq_empty_iff.mpr hchild
    simp [refCount, Finset.filter_insert, hlive, hnone, hp]
  · rw [if_neg hb]
    simp only [refCount, Finset.filter_insert, Function.update_self, hlive, Finset.mem_insert, hb,
      false_or]
    split
    · next h => rw [Finset.card_insert_of_notMem hmem, if_pos h.symm]; omega
    · next h => rw [if_neg (Ne.symm h), Nat.add_zero]

end RefCount

/-! ### The shape of the tree -/

/-- What relates the blocks to the tree. `live` are the nodes created and not destroyed, `owned`
those not yet released by their owner, `made` the parent and the data each live node was given;
`rank` bounds the depth of a node. The count of `pend` still contains a reference that is being
dropped (`0` for none). -/
structure Forest {D : Type*} (m : Memory D) (live owned : Finset ℕ) (made : ℕ → ℕ × D)
    (rank : ℕ → ℕ) (pend : ℕ) : Prop where
  owned_subset : owned ⊆ live
  ne_zero : 0 ∉ live
  count : ∀ a ∈ live, m.heap.header a = refCount m.parent live owned a + if a = pend then 1 else 0
  pos : ∀ a ∈ live, 0 < m.heap.header a
  parent_mem : ∀ a ∈ live, m.parent a ≠ 0 → m.parent a ∈ live
  rank_lt : ∀ a ∈ live, m.parent a ≠ 0 → rank (m.parent a) < rank a
  made_eq : ∀ a ∈ live, (m.parent a, m.data a) = made a

namespace Forest

variable {D : Type*} {m : Memory D} {live owned : Finset ℕ} {made : ℕ → ℕ × D}
  {rank : ℕ → ℕ} {pend a p : ℕ}

theorem ne_zero_of_mem (F : Forest m live owned made rank pend) (ha : a ∈ live) : a ≠ 0 :=
  ne_of_mem_of_not_mem ha F.ne_zero

theorem count_eq (F : Forest m live owned made rank 0) (ha : a ∈ live) :
    m.heap.header a = refCount m.parent live owned a := by
  rw [F.count a ha, if_neg (F.ne_zero_of_mem ha), Nat.add_zero]

/-- The data of a node is filled in. -/
theorem write (F : Forest m live owned made rank pend) (a : ℕ) (d : D) :
    Forest { m with data := Function.update m.data a d } live owned
      (Function.update made a ((made a).1, d)) rank pend :=
  { F with
    made_eq := fun b hb => by
      rcases eq_or_ne b a with rfl | hba
      · simp only [Function.update_self, ← F.made_eq b hb]
      · simp only [Function.update_of_ne hba]
        exact F.made_eq b hb }

/-- The owner of `a` gives up its reference. -/
theorem drop_owner (F : Forest m live owned made rank 0) (ha : a ∈ owned) :
    Forest m live (owned.erase a) made rank a where
  owned_subset := (Finset.erase_subset _ _).trans F.owned_subset
  ne_zero := F.ne_zero
  count b hb := by rw [F.count_eq hb, refCount_erase_owned ha]
  pos := F.pos
  parent_mem := F.parent_mem
  rank_lt := F.rank_lt
  made_eq := F.made_eq

/-- The dropped reference was the last one: the node is destroyed and its parent loses one. -/
theorem destroy (F : Forest m live owned made rank pend) (heap : Heap) (data : ℕ → D)
    (hpend : pend ∈ live) (hone : m.heap.header pend = 1)
    (hheap : ∀ b, b ≠ pend → heap.header b = m.heap.header b)
    (hdata : ∀ b, b ≠ pend → data b = m.data b) :
    Forest ⟨heap, m.parent, data⟩ (live.erase pend) owned made rank (m.parent pend) := by
  have hzero : refCount m.parent live owned pend = 0 := by
    have := F.count pend hpend
    rw [hone, if_pos rfl] at this
    omega
  have hnot : ¬ ((∃ b ∈ live, m.parent b = pend) ∨ pend ∈ owned) :=
    refCount_pos_iff.not.mp (by omega)
  have hmem : ∀ {b}, b ∈ live.erase pend → b ≠ pend ∧ b ∈ live := Finset.mem_erase.mp
  refine ⟨fun b hb => Finset.mem_erase.mpr ⟨?_, F.owned_subset hb⟩,
    fun h => F.ne_zero (hmem h).2, fun b hb => ?_, fun b hb => ?_, fun b hb hp => ?_,
    fun b hb => F.rank_lt b (hmem hb).2, fun b hb => ?_⟩
  · rintro rfl
    exact hnot (.inr hb)
  · obtain ⟨hne, hlive⟩ := hmem hb
    rw [hheap b hne, F.count b hlive, if_neg hne, Nat.add_zero, refCount_erase_live hpend]
  · rw [hheap b (hmem hb).1]
    exact F.pos b (hmem hb).2
  · refine Finset.mem_erase.mpr ⟨fun h => ?_, F.parent_mem b (hmem hb).2 hp⟩
    exact hnot (.inl ⟨b, (hmem hb).2, h⟩)
  · rw [← F.made_eq b (hmem hb).2]
    exact congrArg _ (hdata b (hmem hb).1)

/-- The dropped reference was not the last one. -/
theorem keep (F : Forest m live owned made rank pend) (heap : Heap) (hpend : pend ∈ live)
    (hgt : 1 < m.heap.header pend)
    (hheap : heap.header = Function.update m.heap.header pend (m.heap.header pend - 1)) :
    Forest { m with heap := heap } live owned made rank 0 where
  owned_subset := F.owned_subset
  ne_zero := F.ne_zero
  count b hb := by
    have hcount := F.count b hb
    rw [if_neg (F.ne_zero_of_mem hb), Nat.add_zero]
    by_cases hbp : b = pend
    · subst hbp
      rw [hheap, Function.update_self, hcount, if_pos rfl, Nat.add_sub_cancel]
    · rw [hheap, Function.update_of_ne hbp, hcount, if_neg hbp, Nat.add_zero]
  pos b hb := by
    by_cases hbp : b = pend
    · subst hbp
      simp only [hheap, Function.update_self]
      omega
    · simp only [hheap, Function.update_of_ne hbp]
      exact F.pos b hb
  parent_mem := F.parent_mem
  rank_lt := F.rank_lt
  made_eq := F.made_eq

/-- A new node below `p`. -/
theorem insert {heap : Heap} {d : D} (F : Forest m live owned made rank 0) (ha : a ∉ live)
    (ha0 : a ≠ 0) (hp : p = 0 ∨ p ∈ live) (hself : heap.header a = 1)
    (hheap : ∀ b ∈ live, heap.header b = m.heap.header b + if b = p then 1 else 0) :
    Forest ⟨heap, Function.update m.parent a p, Function.update m.data a d⟩ (insert a live)
      (insert a owned) (Function.update made a (p, d)) (Function.update rank a (rank p + 1)) 0 := by
  have hne : ∀ {b}, b ∈ live → b ≠ a := fun hb => ne_of_mem_of_not_mem hb ha
  have hpa : p ≠ a := by
    rcases hp with rfl | hp
    exacts [ha0.symm, hne hp]
  have hchild : ∀ c ∈ live, m.parent c ≠ a := fun c hc h =>
    ha (h ▸ F.parent_mem c hc (h ▸ ha0))
  have hcount := fun b => refCount_insert (b := b) ha (fun h => ha (F.owned_subset h)) hchild hpa
  refine ⟨Finset.insert_subset_insert _ F.owned_subset, ?_, ?_, ?_, ?_, ?_, ?_⟩
  · exact fun h => (Finset.mem_insert.mp h).elim (fun h => ha0 h.symm) F.ne_zero
  · intro b hb
    rw [hcount, if_neg (c := b = 0)]
    · rcases Finset.mem_insert.mp hb with rfl | hb
      · rw [hself, if_pos rfl]
      · rw [if_neg (hne hb), hheap b hb, F.count_eq hb, Nat.add_zero]
    · rintro rfl
      exact (Finset.mem_insert.mp hb).elim (fun h => ha0 h.symm) F.ne_zero
  · intro b hb
    rcases Finset.mem_insert.mp hb with rfl | hb
    · exact hself ▸ Nat.one_pos
    · rw [hheap b hb]
      exact Nat.add_pos_left (F.pos b hb) _
  · intro b hb h0
    rcases Finset.mem_insert.mp hb with rfl | hb
    · simp only [Function.update_self] at h0 ⊢
      exact Finset.mem_insert_of_mem (hp.resolve_left h0)
    · simp only [Function.update_of_ne (hne hb)] at h0 ⊢
      exact Finset.mem_insert_of_mem (F.parent_mem b hb h0)
  · intro b hb h0
    rcases Finset.mem_insert.mp hb with rfl | hb
    · simp only [Function.update_self, Function.update_of_ne hpa]
      exact Nat.lt_succ_self _
    · simp only [Function.update_of_ne (hne hb)] at h0 ⊢
      rw [Function.update_of_ne (hne (F.parent_mem b hb h0))]
      exact F.rank_lt b hb h0
  · intro b hb
    rcases Finset.mem_insert.mp hb with rfl | hb
    · simp
    · simp only [Function.update_of_ne (hne hb)]
      exact F.made_eq b hb

/-- When every owner has released, no node is left: a live node of largest rank has no child. -/
theorem live_eq_empty (F : Forest m live ∅ made rank 0) : live = ∅ := by
  by_contra hne
  obtain ⟨a, ha, hmax⟩ := live.exists_max_image rank (Finset.nonempty_iff_ne_empty.mpr hne)
  have hpos := F.pos a ha
  rw [F.count_eq ha, refCount_pos_iff] at hpos
  rcases hpos with ⟨b, hb, rfl⟩ | h
  · have := F.rank_lt b hb (F.ne_zero_of_mem ha)
    have := hmax b hb
    omega
  · exact absurd h (Finset.notMem_empty a)

/-- The walk along `parent` from a live node ends in null and meets live nodes only. -/
theorem exists_linked (F : Forest m live owned made rank pend) (ha : a ∈ live) :
    ∃ l, Linked m.parent a l ∧ ∀ b ∈ l, b ∈ live :=
  Linked.exists_of_rank rank (· ∈ live) (fun _ hb => F.ne_zero_of_mem hb)
    (fun b hb h0 => ⟨F.parent_mem b hb h0, F.rank_lt b hb h0⟩) ha

end Forest

end Optimer
