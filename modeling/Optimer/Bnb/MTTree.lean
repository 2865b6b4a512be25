import Optimer.Bnb.TreeRun

/-! The search tree of several threads (`bnb/mt_tree.h`): each thread calls a `SearchTree` of its
own, made at its first call, while the blocks of all trees lie in one memory. A node may be
released in another tree than the one it was created in, so that a counter can fall below zero and
a block can change its free list. -/

namespace Optimer
open RefCountedAllocator Transition

/-- The sum of two `int`s. -/
def intAdd (a b : ℤ) : Option ℤ := if IntRange (a + b) then some (a + b) else none

/-- A sum of `int`s comes out if all its beginnings are `int`s. -/
theorem foldlM_intAdd {ι : Type*} {f : ι → ℤ} {order : List ι} {n : ℤ}
    (h : ∀ l, l <+: order → IntRange (n + (l.map f).sum)) :
    order.foldlM (fun n t => intAdd n (f t)) n = some (n + (order.map f).sum) := by
  induction order generalizing n with
  | nil => simp
  | cons t order ih =>
    have hfirst : intAdd n (f t) = some (n + f t) :=
      if_pos (by simpa using h [t] (List.prefix_append [t] order))
    rw [List.foldlM_cons, hfirst]
    refine (ih fun l hl => ?_).trans ?_
    · have hrest := h (t :: l) (List.cons_prefix_cons.mpr ⟨rfl, hl⟩)
      rwa [List.map_cons, List.sum_cons, ← add_assoc] at hrest
    · rw [List.map_cons, List.sum_cons, add_assoc]

/-- `threads` are the keys of `map_`. -/
structure MTSearchTree (ι : Type*) where
  threads : Finset ι := ∅
  map : ι → SearchTree := fun _ => {}

namespace MTSearchTree

variable {ι D : Type*} [DecidableEq ι] [SetData D]

def threadLocalTree (s : MTSearchTree ι) (t : ι) : SearchTree × MTSearchTree ι :=
  if t ∈ s.threads then (s.map t, s)
  else ({}, { threads := insert t s.threads, map := Function.update s.map t {} })

/-- The tree of `t` after a call on it. -/
def store (s : MTSearchTree ι) (t : ι) (tree : SearchTree) : MTSearchTree ι :=
  { s with map := Function.update s.map t tree }

def createNode (s : MTSearchTree ι) (t : ι) (m : Memory D) (parent : ℕ) :
    ℕ × Memory D × MTSearchTree ι :=
  let (tree, s) := s.threadLocalTree t
  let (result, m, tree) := tree.createNode m parent
  (result, m, s.store t tree)

def releaseNode (s : MTSearchTree ι) (t : ι) (m : Memory D) (node : ℕ) :
    Option (List ℕ × Memory D × MTSearchTree ι) :=
  let (tree, s) := s.threadLocalTree t
  (tree.releaseNode m node).map fun (destroyed, m, tree) => (destroyed, m, s.store t tree)

def numUnfreedNodes (s : MTSearchTree ι) : ℤ := ∑ t ∈ s.threads, (s.map t).numUnfreedNodes

/-- The loop of `num_unfreed_nodes` over the threads in the order of `map_`, whose sum is an `int`. -/
def sumNodes (s : MTSearchTree ι) (order : List ι) : Option ℤ :=
  order.foldlM (fun n t => intAdd n (s.map t).numUnfreedNodes) 0

/-- The counter of every tree is an `int`. -/
def InRange (s : MTSearchTree ι) : Prop := ∀ t ∈ s.threads, IntRange (s.map t).numNodes

instance (s : MTSearchTree ι) : Decidable s.InRange := inferInstanceAs (Decidable (∀ t ∈ s.threads, _))

variable {s : MTSearchTree ι} {t u : ι} {tree : SearchTree}

@[simp] theorem store_threads : (s.store t tree).threads = s.threads := rfl

@[simp] theorem store_map_self : (s.store t tree).map t = tree := Function.update_self ..

theorem store_map_of_ne (h : u ≠ t) : (s.store t tree).map u = s.map u :=
  Function.update_of_ne h ..

/-- What holds of every thread's tree and its free list after a call of `t`. -/
theorem forall_store {free : ι → List ℕ} {l : List ℕ} {P : SearchTree → List ℕ → Prop}
    (hself : P tree l) (hother : ∀ u, u ≠ t → P (s.map u) (free u)) (u : ι) :
    P ((s.store t tree).map u) (Function.update free t l u) := by
  by_cases hu : u = t
  · subst hu
    rwa [store_map_self, Function.update_self]
  · rw [store_map_of_ne hu, Function.update_of_ne hu]
    exact hother u hu

@[simp] theorem store_store {tree' : SearchTree} :
    (s.store t tree).store t tree' = s.store t tree' := by
  simp [store]

@[simp] theorem store_map : s.store t (s.map t) = s := by
  simp [store]

/-- Replacing one tree changes the sum by what it changes in that tree. -/
theorem numUnfreedNodes_store (ht : t ∈ s.threads) : (s.store t tree).numUnfreedNodes =
    s.numUnfreedNodes - (s.map t).numNodes + tree.numNodes := by
  simp only [numUnfreedNodes, store_threads, SearchTree.numUnfreedNodes]
  rw [← Finset.add_sum_erase _ _ ht, ← Finset.add_sum_erase s.threads _ ht, store_map_self]
  have hrest : ∑ u ∈ s.threads.erase t, ((s.store t tree).map u).numNodes =
      ∑ u ∈ s.threads.erase t, (s.map u).numNodes :=
    Finset.sum_congr rfl fun u hu => by rw [store_map_of_ne (Finset.ne_of_mem_erase hu)]
  rw [hrest]
  omega

end MTSearchTree

/-- The `int`s that count nodes: the counters of all trees are in range and add up to the number of live
nodes, and the loop that sums them returns it where no sum on the way leaves the range. -/
structure NodesCounted {ι : Type*} (s : MTSearchTree ι) (live : Finset ℕ) : Prop where
  inRange : s.InRange
  numNodes : s.numUnfreedNodes = live.card
  sum : ∀ order : List ι, order.Nodup → (∀ t, t ∈ order ↔ t ∈ s.threads) →
    (∀ l, l <+: order → IntRange (l.map fun t => (s.map t).numUnfreedNodes).sum) →
    s.sumNodes order = some (live.card : ℤ)

theorem MTSearchTree.InRange.counted {ι : Type*} {s : MTSearchTree ι} {live : Finset ℕ} (h : s.InRange)
    (hnum : s.numUnfreedNodes = live.card) : NodesCounted s live := by
  classical
  refine ⟨h, hnum, fun order hnd hmem hsums => ?_⟩
  have hthreads : order.toFinset = s.threads := Finset.ext fun t => List.mem_toFinset.trans (hmem t)
  have hrange : ∀ l, l <+: order → IntRange (0 + (l.map fun t => (s.map t).numUnfreedNodes).sum) := by
    intro l hl
    rw [zero_add]
    exact hsums l hl
  have hsum := foldlM_intAdd hrange
  rw [zero_add, ← List.sum_toFinset _ hnd, hthreads] at hsum
  rw [← hnum]
  exact hsum

/-- Every block of the areas is live or in one place of one thread's free list, and the counters
of all trees add up to the number of live nodes. -/
structure SharedBlocks {ι D : Type*} (m : Memory D) (s : MTSearchTree ι) (live : Finset ℕ)
    (free : ι → List ℕ) : Prop where
  linked : ∀ t, Linked m.heap.header (s.map t).allocator.freeList (free t)
  nodup : ∀ t, (free t).Nodup
  disjoint : ∀ t, ∀ a ∈ free t, a ∉ live
  apart : ∀ ⦃t u⦄, t ≠ u → ∀ a ∈ free t, a ∉ free u
  block : ∀ a, a ∈ live ∨ (∃ t, a ∈ free t) ↔ a ≠ 0 ∧ a < m.heap.brk
  capacity : ∀ t, 0 < (s.map t).allocator.capacity
  brk_pos : 0 < m.heap.brk
  fresh : ∀ t, t ∉ s.threads → s.map t = {}
  numNodes : s.numUnfreedNodes = live.card

namespace SharedBlocks

variable {ι D : Type*} {m : Memory D} {s : MTSearchTree ι} {live : Finset ℕ} {free : ι → List ℕ}
  {t u : ι} {a : ℕ}

theorem lt_brk (B : SharedBlocks m s live free) (ha : a ∈ live) : a < m.heap.brk :=
  ((B.block a).mp (.inl ha)).2

theorem lt_brk_of_free (B : SharedBlocks m s live free) (ha : a ∈ free t) : a < m.heap.brk :=
  ((B.block a).mp (.inr ⟨t, ha⟩)).2

/-- What one thread sees: the blocks outside its free list are in use. -/
theorem own (B : SharedBlocks m s live free) (t : ι) : ∃ used : Finset ℕ,
    Blocks m ⟨used.card, (s.map t).allocator⟩ used (free t) ∧
      ∀ b, b ∈ used ↔ b ∈ live ∨ ∃ u, u ≠ t ∧ b ∈ free u := by
  have hused : ∀ b, b ∈ ((Finset.range m.heap.brk).erase 0).filter (· ∉ free t) ↔
      (b ≠ 0 ∧ b < m.heap.brk) ∧ b ∉ free t := fun b => by
    rw [Finset.mem_filter, Finset.mem_erase, Finset.mem_range]
  refine ⟨_, ⟨B.linked t, B.nodup t, fun b hb h => ((hused b).mp h).2 hb, fun b => ?_,
    B.capacity t, B.brk_pos, rfl⟩, fun b => ?_⟩
  · have := fun hb : b ∈ free t => (B.block b).mp (.inr ⟨t, hb⟩)
    rw [hused]
    tauto
  · rw [hused, ← B.block b]
    refine ⟨fun ⟨hb, hnt⟩ => hb.imp id fun ⟨u, hu⟩ => ⟨u, fun h => hnt (h ▸ hu), hu⟩, ?_⟩
    rintro (hb | ⟨u, hut, hb⟩)
    · exact ⟨.inl hb, fun h => B.disjoint t b h hb⟩
    · exact ⟨.inr ⟨u, hb⟩, B.apart hut b hb⟩

theorem card_lt (B : SharedBlocks m s live free) : live.card < m.heap.brk :=
  card_lt_brk B.brk_pos fun a ha => (B.block a).mp (.inl ha)

/-- A change of the count of a live block. -/
theorem keep {c : ℕ} (B : SharedBlocks m s live free) (ha : a ∈ live) :
    SharedBlocks { m with heap := { m.heap with header := Function.update m.heap.header a c } } s
      live free :=
  { B with
    linked := fun t => (B.linked t).congr fun b hb =>
      Function.update_of_ne (ne_of_mem_of_not_mem ha (B.disjoint t b hb)).symm _ _ }

variable [DecidableEq ι]

theorem mem_update {l : List ℕ} :
    a ∈ Function.update free t l u ↔ u = t ∧ a ∈ l ∨ u ≠ t ∧ a ∈ free u := by
  by_cases hu : u = t
  · subst hu
    simp
  · simp [hu]

/-- Looking up a tree makes an empty one at most. -/
theorem threadLocalTree (B : SharedBlocks m s live free) (t : ι) :
    (s.threadLocalTree t).1 = s.map t ∧ t ∈ (s.threadLocalTree t).2.threads ∧
      (s.threadLocalTree t).2.map = s.map ∧
      SharedBlocks m (s.threadLocalTree t).2 live free := by
  rw [MTSearchTree.threadLocalTree]
  split
  · next ht => exact ⟨rfl, ht, rfl, B⟩
  · next ht =>
    have hmap := B.fresh t ht
    have hupdate : Function.update s.map t {} = s.map := Function.update_eq_self_iff.mpr hmap.symm
    rw [hupdate]
    refine ⟨hmap.symm, Finset.mem_insert_self .., rfl,
      { B with fresh := fun u hu => B.fresh u fun h => hu (Finset.mem_insert_of_mem h)
               numNodes := ?_ }⟩
    · rw [MTSearchTree.numUnfreedNodes, Finset.sum_insert ht, hmap]
      exact (zero_add _).trans B.numNodes

/-- A block destroyed by `t` becomes the head of the free list of `t`. -/
theorem destroy {data : ℕ → D} (B : SharedBlocks m s live free) (ht : t ∈ s.threads)
    (ha : a ∈ live) :
    SharedBlocks ⟨{ m.heap with
          header := Function.update m.heap.header a (s.map t).allocator.freeList },
        m.parent, data⟩
      (s.store t ⟨(s.map t).numNodes - 1, { (s.map t).allocator with freeList := a }⟩)
      (live.erase a) (Function.update free t (a :: free t)) where
  linked := MTSearchTree.forall_store (P := fun tree l => Linked _ tree.allocator.freeList l)
    (decRefs_linked ((B.block a).mp (.inl ha)).1 (fun h => B.disjoint t a h ha) (B.linked t))
    fun u _ => (B.linked u).congr fun b hb =>
      Function.update_of_ne (ne_of_mem_of_not_mem ha (B.disjoint u b hb)).symm _ _
  nodup := (Function.forall_update_iff free fun _ l => l.Nodup).mpr
    ⟨List.nodup_cons.mpr ⟨fun h => B.disjoint t a h ha, B.nodup t⟩, fun u _ => B.nodup u⟩
  disjoint := (Function.forall_update_iff free fun _ l => ∀ b ∈ l, b ∉ live.erase a).mpr
    ⟨List.forall_mem_cons.mpr ⟨Finset.notMem_erase a live,
        fun b hb h => B.disjoint t b hb (Finset.mem_of_mem_erase h)⟩,
      fun u _ b hb h => B.disjoint u b hb (Finset.mem_of_mem_erase h)⟩
  apart u v huv b hu hv := by
    have hlive : ∀ w, b ∈ free w → b ≠ a := fun w hw h => B.disjoint w b hw (h ▸ ha)
    rcases mem_update.mp hu with ⟨rfl, hu'⟩ | ⟨hut, hu'⟩ <;>
      rcases mem_update.mp hv with ⟨rfl, hv'⟩ | ⟨hvt, hv'⟩
    · exact huv rfl
    · exact B.apart huv b ((List.mem_cons.mp hu').resolve_left (hlive v hv')) hv'
    · exact B.apart huv b hu' ((List.mem_cons.mp hv').resolve_left (hlive u hu'))
    · exact B.apart huv b hu' hv'
  block b := by
    rw [← B.block b, Finset.mem_erase]
    by_cases hb : b = a
    · subst hb
      simp only [ne_eq, not_true_eq_false, false_and, false_or, ha, true_or, iff_true]
      exact ⟨t, by rw [Function.update_self]; exact List.mem_cons_self⟩
    · have hmem : ∀ u, b ∈ Function.update free t (a :: free t) u ↔ b ∈ free u := fun u => by
        by_cases hu : u = t
        · subst hu
          rw [Function.update_self, List.mem_cons, or_iff_right hb]
        · rw [Function.update_of_ne hu]
      simp only [hmem, ne_eq, hb, not_false_eq_true, true_and]
  capacity := (Function.forall_update_iff s.map fun _ tree => 0 < tree.allocator.capacity).mpr
    ⟨B.capacity t, fun u _ => B.capacity u⟩
  brk_pos := B.brk_pos
  fresh u hu := by
    rw [MTSearchTree.store_map_of_ne (ne_of_mem_of_not_mem ht hu).symm]
    exact B.fresh u hu
  numNodes := by
    rw [MTSearchTree.numUnfreedNodes_store ht, B.numNodes]
    have := Finset.card_erase_add_one ha
    simp only
    omega

section Create

variable [SetData D] {p : ℕ}

/-- The block handed to `t` was not live, and in no other free list. -/
theorem create (B : SharedBlocks m s live free) (ht : t ∈ s.threads) (hp : p = 0 ∨ p ∈ live) :
    ∃ free', AllocateSpec (s.map t).allocator m.heap (free t) ((s.map t).createNode m p).1
        ((s.map t).allocator.allocate m.heap).2.1 ((s.map t).createNode m p).2.2.allocator free' ∧
      ((s.map t).createNode m p).1 ∉ live ∧ ((s.map t).createNode m p).1 ≠ 0 ∧
      SharedBlocks ((s.map t).createNode m p).2.1 (s.store t ((s.map t).createNode m p).2.2)
        (insert ((s.map t).createNode m p).1 live) (Function.update free t free') := by
  obtain ⟨used, B', hused⟩ := B.own t
  obtain ⟨free', S, hna, ha0, hnd, hnf, hdis, hle, hblock⟩ := B'.allocate
  have hheader := fun {b} => SearchTree.createNode_header_of_ne (t := s.map t) (p := p) S (b := b)
  have hlinked : (∀ b ∈ free', b ≠ p ∨ p = 0) →
      Linked ((s.map t).createNode m p).2.1.heap.header
        ((s.map t).createNode m p).2.2.allocator.freeList free' :=
    SearchTree.createNode_linked S
  have hbrk := SearchTree.createNode_brk (t := s.map t) (m := m) (p := p)
  have hnum : ((s.map t).createNode m p).2.2.numNodes = (s.map t).numNodes + 1 := rfl
  have hcap : ((s.map t).createNode m p).2.2.allocator.capacity = (s.map t).allocator.capacity :=
    S.capacity
  refine ⟨free', S, fun h => hna ((hused _).mpr (.inl h)), ha0, ?_⟩
  change ((s.map t).createNode m p).1 ∉ used at hna
  change ((s.map t).createNode m p).1 ∉ free' at hnf
  change ∀ b, b ∈ used ∨ b = ((s.map t).createNode m p).1 ∨ b ∈ free' ↔
    b ≠ 0 ∧ b < ((s.map t).allocator.allocate m.heap).2.1.brk at hblock
  change m.heap.brk ≤ ((s.map t).allocator.allocate m.heap).2.1.brk at hle
  rw [← hbrk] at hblock hle
  generalize (s.map t).createNode m p = c at *
  clear S
  have hnlive : c.1 ∉ live := fun h => hna ((hused _).mpr (.inl h))
  have hnfree : ∀ u, u ≠ t → c.1 ∉ free u := fun u hu h => hna ((hused _).mpr (.inr ⟨u, hu, h⟩))
  have hpfree : ∀ u, ∀ b ∈ free u, b ≠ p ∨ p = 0 := fun u b hb =>
    hp.elim .inr fun h => .inl (ne_of_mem_of_not_mem h (B.disjoint u b hb)).symm
  have hdis' : ∀ b ∈ free', b ∉ live ∧ ∀ u, u ≠ t → b ∉ free u := fun b hb => by
    have := hdis b hb
    rw [hused] at this
    exact ⟨fun h => this (.inl h), fun u hu h => this (.inr ⟨u, hu, h⟩)⟩
  refine ⟨?_, ?_, ?_, fun u v huv b hu hv => ?_, fun b => ?_, ?_, B.brk_pos.trans_le hle,
    fun u hu => ?_, ?_⟩
  · refine MTSearchTree.forall_store (P := fun tree l => Linked _ tree.allocator.freeList l)
      (hlinked fun b hb => ?_) fun u hu => (B.linked u).congr fun b hb => ?_
    · exact hp.elim .inr fun h => .inl (ne_of_mem_of_not_mem h (hdis' b hb).1).symm
    · exact hheader (B.lt_brk_of_free hb) (ne_of_mem_of_not_mem hb (hnfree u hu)) (hpfree u b hb)
  · exact (Function.forall_update_iff free fun _ l => l.Nodup).mpr ⟨hnd, fun u _ => B.nodup u⟩
  · refine (Function.forall_update_iff free fun _ l => ∀ b ∈ l, b ∉ insert c.1 live).mpr
      ⟨fun b hb h => ?_, fun u hu b hb h => ?_⟩
    · rcases Finset.mem_insert.mp h with rfl | h
      exacts [hnf hb, (hdis' b hb).1 h]
    · rcases Finset.mem_insert.mp h with rfl | h
      exacts [hnfree u hu hb, B.disjoint u b hb h]
  · rcases mem_update.mp hu with ⟨rfl, hu'⟩ | ⟨hut, hu'⟩ <;>
      rcases mem_update.mp hv with ⟨rfl, hv'⟩ | ⟨hvt, hv'⟩
    · exact huv rfl
    · exact (hdis' b hu').2 v hvt hv'
    · exact (hdis' b hv').2 u hut hu'
    · exact B.apart huv b hu' hv'
  · rw [← hblock, hused, Finset.mem_insert]
    simp only [mem_update, exists_or, exists_eq_left]
    generalize (∃ u, u ≠ t ∧ b ∈ free u) = other
    tauto
  · exact (Function.forall_update_iff s.map fun _ tree => 0 < tree.allocator.capacity).mpr
      ⟨hcap ▸ B.capacity t, fun u _ => B.capacity u⟩
  · rw [MTSearchTree.store_map_of_ne (ne_of_mem_of_not_mem ht hu).symm]
    exact B.fresh u hu
  · rw [MTSearchTree.numUnfreedNodes_store ht, B.numNodes, hnum,
      Finset.card_insert_of_notMem hnlive]
    push_cast
    omega

end Create

end SharedBlocks

/-! ### Runs -/

/-- The trees of all threads in use, with what `TreeRun` keeps beside the state of the code. -/
structure MTRun (ι D : Type*) where
  tree : MTSearchTree ι
  mem : Memory D
  live : Finset ℕ
  owned : Finset ℕ
  made : ℕ → ℕ × D

namespace MTRun

variable {ι D : Type*} [DecidableEq ι] [SetData D]

/-- No thread has a tree yet. -/
def start (ι D : Type*) [SetData D] : MTRun ι D where
  tree := {}
  mem := { heap := { header := fun _ => 0, brk := 1 }, parent := fun _ => 0,
           data := fun _ => default }
  live := ∅
  owned := ∅
  made := fun _ => (0, default)

/-- The node a `create_node` call of `t` returns. -/
def created (r : MTRun ι D) (t : ι) (parent : ℕ) : ℕ := (r.tree.createNode t r.mem parent).1

def create (r : MTRun ι D) (t : ι) (parent : ℕ) : MTRun ι D :=
  let (a, mem, tree) := r.tree.createNode t r.mem parent
  { tree := tree, mem := mem, live := insert a r.live, owned := insert a r.owned
    made := Function.update r.made a (parent, default) }

/-- The owner of a node fills in its data. -/
def write (r : MTRun ι D) (a : ℕ) (d : D) : MTRun ι D :=
  { r with mem := { r.mem with data := Function.update r.mem.data a d }
           made := Function.update r.made a ((r.made a).1, d) }

def release (r : MTRun ι D) (t : ι) (a : ℕ) : Option (MTRun ι D) :=
  (r.tree.releaseNode t r.mem a).map fun (destroyed, mem, tree) =>
    { r with tree := tree, mem := mem, live := r.live \ destroyed.toFinset
             owned := r.owned.erase a }

/-- One call of some thread. Handing a node over leaves all trees alone, so that the owner who
releases it may be any thread. -/
inductive Step : MTRun ι D → MTRun ι D → Prop
  | threadLocal {r} (t : ι) : Step r { r with tree := (r.tree.threadLocalTree t).2 }
  | create {r p} (t : ι) (hp : p = 0 ∨ p ∈ r.live) : Step r (r.create t p)
  | write {r a} (ha : a ∈ r.owned) (d : D) : Step r (r.write a d)
  | release {r r' a} (t : ι) (ha : a ∈ r.owned) (hr : r.release t a = some r') : Step r r'

variable {r r' : MTRun ι D} {t : ι} {a p : ℕ}

def Inv (r : MTRun ι D) : Prop :=
  ∃ rank free, Forest r.mem r.live r.owned r.made rank 0 ∧
    SharedBlocks r.mem r.tree r.live free

omit [DecidableEq ι] in
theorem start_inv : (start ι D).Inv := by
  refine ⟨fun _ => 0, fun _ => [], ⟨?_, ?_, ?_, ?_, ?_, ?_, ?_⟩,
    ⟨fun _ => rfl, fun _ => .nil, ?_, ?_, ?_, ?_, ?_, ?_, ?_⟩⟩ <;>
    simp [start, MTSearchTree.numUnfreedNodes]

theorem create_spec (h : r.Inv) (hp : p = 0 ∨ p ∈ r.live) :
    r.created t p ∉ r.live ∧ (r.create t p).Inv := by
  obtain ⟨rank, free, F, B⟩ := h
  obtain ⟨htree, ht, hmap, B⟩ := B.threadLocalTree t
  obtain ⟨free', S, hna, ha0, B'⟩ := B.create ht hp
  have F' := SearchTree.createNode_forest F S (fun b => B.lt_brk) hna ha0 hp
  simp only [created, create, Inv, MTSearchTree.createNode, htree]
  rw [hmap] at *
  exact ⟨hna, _, _, F', B'⟩

omit [SetData D] [DecidableEq ι] in
theorem write_inv (h : r.Inv) (d : D) : (r.write a d).Inv := by
  obtain ⟨rank, free, F, B⟩ := h
  exact ⟨rank, free, F.write a d, { B with }⟩

theorem release_spec (h : r.Inv) (ha : a ∈ r.owned) :
    ∃ r', r.release t a = some r' ∧ r'.owned = r.owned.erase a ∧ r'.Inv := by
  obtain ⟨rank, free, F, B⟩ := h
  obtain ⟨htree, ht, hmap, B⟩ := B.threadLocalTree t
  obtain ⟨l, m', t', hl, F', free', B'⟩ := SearchTree.releaseLoop_rule
    (I := fun m tree live => ∃ free,
      SharedBlocks m ((r.tree.threadLocalTree t).2.store t tree) live free)
    (fun hlive _ ⟨_, B⟩ => ⟨_, by simpa using B.destroy ht hlive⟩)
    (fun hlive _ ⟨_, B⟩ => ⟨_, B.keep hlive⟩) (F.drop_owner ha)
    (t := r.tree.map t) ⟨free, by rw [← hmap, MTSearchTree.store_map]; exact B⟩
    (.inr (F.owned_subset ha)) (B.card_lt.trans (Nat.lt_succ_self _))
  refine ⟨⟨_, _, _, _, _⟩, ?_, rfl, rank, free', F', B'⟩
  simp only [release, MTSearchTree.releaseNode, SearchTree.releaseNode, htree, hl, Option.map_some]
  rfl

theorem inv_preserved : Preserved (Step (ι := ι) (D := D)) Inv := by
  intro r r' h hstep
  cases hstep with
  | threadLocal t =>
    obtain ⟨rank, free, F, B⟩ := h
    exact ⟨rank, free, F, (B.threadLocalTree t).2.2.2⟩
  | create t hp => exact (create_spec h hp).2
  | write _ d => exact write_inv h d
  | release t ha hr =>
    obtain ⟨r'', hr', _, h'⟩ := release_spec h ha
    exact (Option.some.inj (hr.symm.trans hr')) ▸ h'

/-- What holds between two calls, whichever threads make them. -/
structure Sound (r : MTRun ι D) : Prop where
  /-- A node is live as long as its owner or a live child refers to it. -/
  live_iff : ∀ a, a ≠ 0 → (a ∈ r.live ↔ 0 < refCount r.mem.parent r.live r.owned a)
  counted : NodesCounted r.tree r.live
  /-- Each block of the areas is live or in the free list of exactly one thread. -/
  block : ∃ free : ι → List ℕ,
    (∀ t, Linked r.mem.heap.header (r.tree.map t).allocator.freeList (free t) ∧ (free t).Nodup) ∧
      ∀ a, a ≠ 0 → a < r.mem.heap.brk →
        (a ∈ r.live ∧ ∀ t, a ∉ free t) ∨ (a ∉ r.live ∧ ∃! t, a ∈ free t)
  /-- No thread is handed a live node. -/
  created : ∀ t p, p = 0 ∨ p ∈ r.live → r.created t p ∉ r.live
  /-- `release_node` returns in every thread. -/
  release : ∀ t, ∀ a ∈ r.owned, (r.release t a).isSome
  unfreed : r.owned = ∅ → r.tree.numUnfreedNodes = 0

theorem Inv.sound (h : r.Inv) (hrange : r.tree.InRange) : r.Sound := by
  obtain ⟨rank, free, F, B⟩ := id h
  refine ⟨fun a ha0 => ?_, hrange.counted B.numNodes, ⟨free, fun t => ⟨B.linked t, B.nodup t⟩, fun a ha0 hlt => ?_⟩,
    fun t p hp => (create_spec h hp).1, fun t a ha => ?_, fun hnil => ?_⟩
  · refine ⟨fun ha => F.count_eq ha ▸ F.pos a ha, fun hpos => ?_⟩
    rcases refCount_pos_iff.mp hpos with ⟨b, hb, rfl⟩ | ha
    exacts [F.parent_mem b hb ha0, F.owned_subset ha]
  · rcases (B.block a).mpr ⟨ha0, hlt⟩ with ha | ⟨t, ha⟩
    · exact .inl ⟨ha, fun t h => B.disjoint t a h ha⟩
    · refine .inr ⟨B.disjoint t a ha, t, ha, fun u hu => ?_⟩
      by_contra hut
      exact B.apart hut a hu ha
  · obtain ⟨r', hr', _⟩ := release_spec (t := t) h ha
    exact hr' ▸ rfl
  · have hlive := Forest.live_eq_empty (hnil ▸ F : Forest r.mem r.live ∅ r.made rank 0)
    rw [B.numNodes, hlive]
    rfl

/-- A call that leaves all counters in the range of `int`. -/
def CountedStep (r r' : MTRun ι D) : Prop := Step r r' ∧ r'.tree.InRange

/-- Reference counting of the trees of all threads, at every point of every run that no counter
overflows in. -/
theorem mtSearchTree_sound (h : Reaches CountedStep (start ι D) r) : r.Sound := by
  refine (inv_preserved.reaches start_inv (reaches_mono (fun _ _ hstep => hstep.1) h)).sound ?_
  cases h with
  | refl => exact fun t ht => absurd ht (Finset.notMem_empty t)
  | tail _ hstep => exact hstep.2

theorem create_live : (r.create t p).live = insert (r.created t p) r.live := rfl

theorem create_owned : (r.create t p).owned = insert (r.created t p) r.owned := rfl

theorem Inv.numNodes_create (h : r.Inv) :
    ((r.create t p).tree.map t).numNodes = (r.tree.map t).numNodes + 1 := by
  obtain ⟨_, _, _, B⟩ := h
  rw [← (B.threadLocalTree t).1]
  exact congrArg SearchTree.numNodes MTSearchTree.store_map_self

/-- A release in the tree of another thread. -/
theorem release_map {u : ι} (h : r.Inv) (hut : u ≠ t) (hr : r.release t a = some r') :
    r'.tree.map u = r.tree.map u := by
  obtain ⟨_, _, _, B⟩ := h
  obtain ⟨s, hs, rfl⟩ := Option.map_eq_some_iff.mp hr
  obtain ⟨s', _, rfl⟩ := Option.map_eq_some_iff.mp hs
  exact (MTSearchTree.store_map_of_ne hut).trans (congrFun (B.threadLocalTree t).2.2.1 u)

/-- A node created by one thread, its child by another, and both released by a third one. -/
theorem mtSearchTree_sound_handed : ∃ r r' r'' : MTRun ℕ ℕ,
    r = ((start ℕ ℕ).create 0 0).create 1 1 ∧ r.release 2 1 = some r' ∧
      r'.release 2 1025 = some r'' ∧ r''.owned = ∅ ∧ r''.Sound := by
  let r := ((start ℕ ℕ).create 0 0).create 1 1
  let r' := (r.release 2 1).getD r
  let r'' := (r'.release 2 1025).getD r'
  have hget : ∀ {o : Option (MTRun ℕ ℕ)} (d : MTRun ℕ ℕ), o.isSome → o = some (o.getD d) := by
    intro o d h
    obtain ⟨r, rfl⟩ := Option.isSome_iff_exists.mp h
    rfl
  have hr' : r.release 2 1 = some r' := hget r (by decide +kernel)
  have hr'' : r'.release 2 1025 = some r'' := hget r' (by decide +kernel)
  have hr : Reaches CountedStep (start ℕ ℕ) r :=
    .tail (.single ⟨.create 0 (.inl rfl), by decide +kernel⟩)
      ⟨.create 1 (.inr (by decide +kernel)), by decide +kernel⟩
  refine ⟨r, r', r'', rfl, hr', hr'', by decide +kernel, mtSearchTree_sound ?_⟩
  exact (hr.tail ⟨.release 2 (by decide +kernel) hr', by decide +kernel⟩).tail
    ⟨.release 2 (by decide +kernel) hr'', by decide +kernel⟩

/-- A node created by one thread and released by another raises the counter of the one and lowers that of
the other: after `2 ^ 31` such nodes, of which none is live, the first counter is no `int`. -/
theorem mtSearchTree_overflows : ∃ r : MTRun ℕ ℕ, Reaches Step (start ℕ ℕ) r ∧ r.live = ∅ ∧
    (r.tree.map 0).numNodes = 2 ^ 31 ∧ ¬ r.tree.InRange := by
  have hrun : ∀ n : ℕ, ∃ r : MTRun ℕ ℕ, Reaches Step (start ℕ ℕ) r ∧ r.owned = ∅ ∧
      (r.tree.map 0).numNodes = n := by
    intro n
    induction n with
    | zero => exact ⟨start ℕ ℕ, .refl, rfl, rfl⟩
    | succ n ih =>
      obtain ⟨r, hr, howned, hn⟩ := ih
      have hcreate := hr.tail (.create 0 (.inl rfl))
      have hmem : r.created 0 0 ∈ (r.create 0 0).owned := Finset.mem_insert_self _ _
      obtain ⟨r', hr', howned', _⟩ := release_spec (t := 1) (inv_preserved.reaches start_inv hcreate) hmem
      refine ⟨r', hcreate.tail (.release 1 hmem hr'), ?_, ?_⟩
      · rw [howned', create_owned, howned]
        simp
      · have hinv := inv_preserved.reaches start_inv hr
        rw [release_map (inv_preserved.reaches start_inv hcreate) Nat.zero_ne_one hr', hinv.numNodes_create,
          hn, Nat.cast_succ]
  obtain ⟨r, hr, howned, hn⟩ := hrun (2 ^ 31)
  obtain ⟨rank, free, F, B⟩ := inv_preserved.reaches start_inv hr
  have hlive : r.live = ∅ := Forest.live_eq_empty (howned ▸ F : Forest r.mem r.live ∅ r.made rank 0)
  have hpow : (r.tree.map 0).numNodes = 2 ^ 31 := by simpa using hn
  refine ⟨r, hr, hlive, hpow, fun hrange => ?_⟩
  have hmem : 0 ∈ r.tree.threads := by
    by_contra hmem
    rw [B.fresh 0 hmem] at hpow
    exact absurd hpow (by decide)
  exact (hrange 0 hmem).2.ne hpow

end MTRun

end Optimer
