import Optimer.Bnb.Tree

/-! Runs of one `SearchTree`: any sequence of `create_node` and `release_node` calls in which
parents are live and the owner of a node releases it at most once. -/

namespace Optimer
open RefCountedAllocator Transition

/-- There are fewer live nodes than addresses, as null is none of theirs. -/
theorem card_lt_brk {live : Finset ℕ} {brk : ℕ} (hpos : 0 < brk) (h : ∀ a ∈ live, a ≠ 0 ∧ a < brk) :
    live.card < brk := by
  have hsub : live ⊆ (Finset.range brk).erase 0 := fun a ha =>
    Finset.mem_erase.mpr ⟨(h a ha).1, Finset.mem_range.mpr (h a ha).2⟩
  have hcard := Finset.card_le_card hsub
  rw [Finset.card_erase_of_mem (Finset.mem_range.mpr hpos), Finset.card_range] at hcard
  omega

/-- Every block of the areas is live or in the free list once, and the counter of the tree is the
number of live nodes. -/
structure Blocks {D : Type*} (m : Memory D) (t : SearchTree) (live : Finset ℕ) (free : List ℕ) :
    Prop where
  linked : Linked m.heap.header t.allocator.freeList free
  nodup : free.Nodup
  disjoint : ∀ a ∈ free, a ∉ live
  block : ∀ a, a ∈ live ∨ a ∈ free ↔ a ≠ 0 ∧ a < m.heap.brk
  capacity : 0 < t.allocator.capacity
  brk_pos : 0 < m.heap.brk
  numNodes : t.numNodes = live.card

namespace Blocks

variable {D : Type*} {m : Memory D} {t : SearchTree} {live : Finset ℕ} {free : List ℕ} {a : ℕ}

theorem lt_brk (B : Blocks m t live free) (ha : a ∈ live) : a < m.heap.brk :=
  ((B.block a).mp (.inl ha)).2

theorem card_lt (B : Blocks m t live free) : live.card < m.heap.brk :=
  card_lt_brk B.brk_pos fun a ha => (B.block a).mp (.inl ha)

/-- A destroyed block becomes the head of the free list. -/
theorem destroy {data : ℕ → D} (B : Blocks m t live free) (ha : a ∈ live) :
    Blocks ⟨{ m.heap with header := Function.update m.heap.header a t.allocator.freeList },
        m.parent, data⟩
      ⟨t.numNodes - 1, { t.allocator with freeList := a }⟩ (live.erase a) (a :: free) where
  linked := decRefs_linked ((B.block a).mp (.inl ha)).1 (fun h => B.disjoint a h ha) B.linked
  nodup := List.nodup_cons.mpr ⟨fun h => B.disjoint a h ha, B.nodup⟩
  disjoint := List.forall_mem_cons.mpr ⟨Finset.notMem_erase a live,
    fun b hb h => B.disjoint b hb (Finset.mem_of_mem_erase h)⟩
  block b := by
    rw [← B.block b, List.mem_cons, Finset.mem_erase]
    by_cases hb : b = a <;> simp [hb, ha]
  capacity := B.capacity
  brk_pos := B.brk_pos
  numNodes := by
    have := Finset.card_erase_add_one ha
    have := B.numNodes
    simp only
    omega

/-- A change of the count of a live block. -/
theorem keep {c : ℕ} (B : Blocks m t live free) (heap : Heap) (ha : a ∈ live)
    (hheap : heap = { m.heap with header := Function.update m.heap.header a c }) :
    Blocks { m with heap := heap } t live free where
  linked := hheap ▸ B.linked.congr fun b hb =>
    Function.update_of_ne (ne_of_mem_of_not_mem ha (B.disjoint b hb)).symm _ _
  nodup := B.nodup
  disjoint := B.disjoint
  block b := hheap ▸ B.block b
  capacity := B.capacity
  brk_pos := hheap ▸ B.brk_pos
  numNodes := B.numNodes

/-- The block `allocate` hands out was not live. -/
theorem allocate (B : Blocks m t live free) :
    ∃ free', AllocateSpec t.allocator m.heap free (t.allocator.allocate m.heap).1
      (t.allocator.allocate m.heap).2.1 (t.allocator.allocate m.heap).2.2 free' ∧
      (t.allocator.allocate m.heap).1 ∉ live ∧ (t.allocator.allocate m.heap).1 ≠ 0 ∧
      free'.Nodup ∧ (t.allocator.allocate m.heap).1 ∉ free' ∧
      (∀ b ∈ free', b ∉ live) ∧ m.heap.brk ≤ (t.allocator.allocate m.heap).2.1.brk ∧
      ∀ b, b ∈ live ∨ b = (t.allocator.allocate m.heap).1 ∨ b ∈ free' ↔
        b ≠ 0 ∧ b < (t.allocator.allocate m.heap).2.1.brk := by
  obtain ⟨free', S⟩ := allocate_spec B.capacity B.brk_pos B.linked B.nodup
  generalize (t.allocator.allocate m.heap).1 = a at *
  generalize (t.allocator.allocate m.heap).2.1 = h' at *
  generalize (t.allocator.allocate m.heap).2.2 = al' at *
  refine ⟨free', S, ?_⟩
  rcases S.source_cases with ⟨rfl, hbrk⟩ | ⟨rfl, _, hle, hnd, hnew⟩
  · obtain ⟨hna, hnd⟩ := List.nodup_cons.mp B.nodup
    have ha : a ∈ a :: free' := List.mem_cons_self
    exact ⟨B.disjoint a ha, ((B.block a).mp (.inr ha)).1, hnd, hna,
      fun b hb => B.disjoint b (List.mem_cons_of_mem _ hb), hbrk.ge,
      fun b => by rw [hbrk, ← B.block b, List.mem_cons]⟩
  · have hdis : ∀ b ∈ a :: free', b ∉ live := fun b hb hl => by
      have := B.lt_brk hl
      have := (hnew b).mp hb
      omega
    have hpos := B.brk_pos
    refine ⟨hdis a List.mem_cons_self, by have := (hnew a).mp List.mem_cons_self; omega,
      (List.nodup_cons.mp hnd).2, (List.nodup_cons.mp hnd).1,
      fun b hb => hdis b (List.mem_cons_of_mem _ hb), hle, fun b => ?_⟩
    have hold := B.block b
    simp only [List.not_mem_nil, or_false] at hold
    rw [← List.mem_cons, hnew, hold]
    omega

end Blocks

variable {D : Type*} [SetData D]

namespace SearchTree

variable {m : Memory D} {t : SearchTree} {live owned : Finset ℕ} {free : List ℕ}
  {made : ℕ → ℕ × D} {rank : ℕ → ℕ} {pend : ℕ}

/-- `release_node` destroys a chain of nodes and returns after fewer rounds than there are live
nodes; `I` is what destroying a node and lowering a count keep of the blocks. -/
theorem releaseLoop_rule {I : Memory D → SearchTree → Finset ℕ → Prop} {fuel : ℕ}
    (hdestroy : ∀ {m t live a} {data : ℕ → D}, a ∈ live → m.heap.header a = 1 → I m t live →
      I ⟨{ m.heap with header := Function.update m.heap.header a t.allocator.freeList },
          m.parent, data⟩
        ⟨t.numNodes - 1, { t.allocator with freeList := a }⟩ (live.erase a))
    (hkeep : ∀ {m t live a}, a ∈ live → 1 < m.heap.header a → I m t live →
      I { m with heap := { m.heap with
        header := Function.update m.heap.header a (m.heap.header a - 1) } } t live)
    (F : Forest m live owned made rank pend) (hI : I m t live) (hpend : pend = 0 ∨ pend ∈ live)
    (hfuel : live.card < fuel) :
    ∃ l m' t', releaseLoop fuel t m pend = some (l, m', t') ∧
      Forest m' (live \ l.toFinset) owned made rank 0 ∧ I m' t' (live \ l.toFinset) := by
  induction fuel generalizing m t live pend with
  | zero => omega
  | succ fuel ih =>
    rcases eq_or_ne pend 0 with rfl | h0
    · exact ⟨[], m, t, by simp [releaseLoop], by simpa using F, by simpa using hI⟩
    have hlive := hpend.resolve_left h0
    rcases Nat.lt_or_eq_of_le (F.pos pend hlive) with hgt | hone
    · have hdec := decRefs_of_one_lt t.allocator hgt
      have F' := F.keep (t.allocator.decRefs pend m.heap).2.1 hlive hgt (by rw [hdec])
      have hI' := hkeep hlive hgt hI
      rw [hdec] at F'
      refine ⟨[], _, t, ?_, by simpa using F', by simpa using hI'⟩
      rw [releaseLoop, if_neg h0, hdec]
      exact if_neg (by omega)
    · have hdec := decRefs_of_eq_one t.allocator hone.symm
      have F' := F.destroy (t.allocator.decRefs pend m.heap).2.1
        (Function.update m.data pend (SetData.clear (m.data pend))) hlive hone.symm
        (fun b hb => by rw [hdec]; exact Function.update_of_ne hb _ _)
        (fun b hb => Function.update_of_ne hb _ _)
      rw [hdec] at F'
      have hparent : m.parent pend = 0 ∨ m.parent pend ∈ live.erase pend := by
        refine or_iff_not_imp_left.mpr fun hp => Finset.mem_erase.mpr ⟨fun h => ?_,
          F.parent_mem pend hlive hp⟩
        have := F.rank_lt pend hlive hp
        rw [h] at this
        exact lt_irrefl _ this
      have hcard : (live.erase pend).card < fuel := by
        have := Finset.card_erase_lt_of_mem hlive
        omega
      obtain ⟨l, m', t', hl, F'', hI'⟩ := ih F' (hdestroy hlive hone.symm hI) hparent hcard
      have hsdiff : live \ (pend :: l).toFinset = live.erase pend \ l.toFinset := by
        rw [List.toFinset_cons, Finset.sdiff_insert, Finset.erase_sdiff_comm]
      refine ⟨pend :: l, m', t', ?_, hsdiff ▸ F'', hsdiff ▸ hI'⟩
      rw [releaseLoop, if_neg h0, hdec]
      simp only [if_true, hl, Option.map_some]

theorem releaseLoop_spec {fuel : ℕ} (F : Forest m live owned made rank pend)
    (B : Blocks m t live free) (hpend : pend = 0 ∨ pend ∈ live) (hfuel : live.card < fuel) :
    ∃ l m' t' free', releaseLoop fuel t m pend = some (l, m', t') ∧
      Forest m' (live \ l.toFinset) owned made rank 0 ∧ Blocks m' t' (live \ l.toFinset) free' := by
  obtain ⟨l, m', t', hl, F', free', B'⟩ := releaseLoop_rule
    (I := fun m t live => ∃ free, Blocks m t live free)
    (fun ha _ ⟨_, B⟩ => ⟨_, B.destroy ha⟩) (fun ha _ ⟨_, B⟩ => ⟨_, B.keep _ ha rfl⟩)
    F ⟨free, B⟩ hpend hfuel
  exact ⟨l, m', t', free', hl, F', B'⟩

section Create

variable {h' : Heap} {al' : RefCountedAllocator} {free' : List ℕ} {a p : ℕ}

theorem createNode_brk :
    (t.createNode m p).2.1.heap.brk = (t.allocator.allocate m.heap).2.1.brk := by
  simp only [createNode]
  split <;> rfl

theorem createNode_header (b : ℕ) : (t.createNode m p).2.1.heap.header b =
    (t.allocator.allocate m.heap).2.1.header b + if b = p ∧ p ≠ 0 then 1 else 0 := by
  simp only [createNode]
  split
  · next h => simp [h]
  · next h =>
    by_cases hb : b = p
    · simp [incRefs, hb, h]
    · simp [incRefs, hb]

/-- Blocks that are neither the new one nor the parent keep their header. -/
theorem createNode_header_of_ne
    (S : AllocateSpec t.allocator m.heap free (t.createNode m p).1
      (t.allocator.allocate m.heap).2.1 al' free') {b : ℕ} (hlt : b < m.heap.brk)
    (hb : b ≠ (t.createNode m p).1) (hp : b ≠ p ∨ p = 0) :
    (t.createNode m p).2.1.heap.header b = m.heap.header b := by
  rw [createNode_header, S.header_other b hlt hb, if_neg (by tauto), Nat.add_zero]

/-- The free list the block came from has lost it. -/
theorem createNode_linked
    (S : AllocateSpec t.allocator m.heap free (t.createNode m p).1
      (t.allocator.allocate m.heap).2.1 al' free') (hp : ∀ b ∈ free', b ≠ p ∨ p = 0) :
    Linked (t.createNode m p).2.1.heap.header al'.freeList free' := by
  refine S.chain.congr fun b hb => ?_
  have := hp b hb
  rw [createNode_header, if_neg (by tauto), Nat.add_zero]

theorem createNode_forest (F : Forest m live owned made rank 0)
    (S : AllocateSpec t.allocator m.heap free (t.createNode m p).1
      (t.allocator.allocate m.heap).2.1 al' free')
    (hlt : ∀ b ∈ live, b < m.heap.brk) (hna : (t.createNode m p).1 ∉ live)
    (ha0 : (t.createNode m p).1 ≠ 0) (hp : p = 0 ∨ p ∈ live) :
    Forest (t.createNode m p).2.1 (insert (t.createNode m p).1 live)
      (insert (t.createNode m p).1 owned)
      (Function.update made (t.createNode m p).1 (p, default))
      (Function.update rank (t.createNode m p).1 (rank p + 1)) 0 := by
  have hne : ∀ {b}, b ∈ live → b ≠ (t.createNode m p).1 := fun hb => ne_of_mem_of_not_mem hb hna
  have hpa : p ≠ (t.createNode m p).1 := hp.elim (fun h => h ▸ ha0.symm) hne
  have hself : (t.createNode m p).2.1.heap.header (t.createNode m p).1 = 1 := by
    rw [createNode_header, S.header_self, if_neg (fun h => hpa h.1.symm)]
  have hother : ∀ b ∈ live, (t.createNode m p).2.1.heap.header b =
      m.heap.header b + if b = p then 1 else 0 := fun b hb => by
    rw [createNode_header, S.header_other b (hlt b hb) (hne hb)]
    congr 2
    exact propext ⟨And.left, fun h => ⟨h, h ▸ F.ne_zero_of_mem hb⟩⟩
  exact F.insert hna ha0 hp hself hother

end Create

end SearchTree

/-! ### Runs -/

/-- A tree in use. Beside the state of the code: the nodes created and not destroyed, those whose
owner has not released them, and the parent and data each was given. -/
structure TreeRun (D : Type*) where
  tree : SearchTree
  mem : Memory D
  live : Finset ℕ
  owned : Finset ℕ
  made : ℕ → ℕ × D

namespace TreeRun

/-- A new tree; no memory has been reserved. -/
def start (D : Type*) [SetData D] : TreeRun D where
  tree := {}
  mem := { heap := { header := fun _ => 0, brk := 1 }, parent := fun _ => 0,
           data := fun _ => default }
  live := ∅
  owned := ∅
  made := fun _ => (0, default)

def create (r : TreeRun D) (parent : ℕ) : TreeRun D :=
  let (a, mem, tree) := r.tree.createNode r.mem parent
  { tree := tree, mem := mem, live := insert a r.live, owned := insert a r.owned
    made := Function.update r.made a (parent, default) }

/-- The owner of a node fills in its data. -/
def write (r : TreeRun D) (a : ℕ) (d : D) : TreeRun D :=
  { r with mem := { r.mem with data := Function.update r.mem.data a d }
           made := Function.update r.made a ((r.made a).1, d) }

def release (r : TreeRun D) (a : ℕ) : Option (TreeRun D) :=
  (r.tree.releaseNode r.mem a).map fun (destroyed, mem, tree) =>
    { r with tree := tree, mem := mem, live := r.live \ destroyed.toFinset
             owned := r.owned.erase a }

inductive Step : TreeRun D → TreeRun D → Prop
  | create {r p} (hp : p = 0 ∨ p ∈ r.live) : Step r (r.create p)
  | write {r a} (ha : a ∈ r.owned) (d : D) : Step r (r.write a d)
  | release {r r' a} (ha : a ∈ r.owned) (hr : r.release a = some r') : Step r r'

variable {r r' : TreeRun D} {a p : ℕ}

def Inv (r : TreeRun D) : Prop :=
  ∃ rank free, Forest r.mem r.live r.owned r.made rank 0 ∧ Blocks r.mem r.tree r.live free

theorem start_inv : (start D).Inv := by
  refine ⟨fun _ => 0, [], ⟨?_, ?_, ?_, ?_, ?_, ?_, ?_⟩, ⟨rfl, .nil, ?_, ?_, ?_, ?_, ?_⟩⟩ <;>
    simp [start]

theorem create_inv (h : r.Inv) (hp : p = 0 ∨ p ∈ r.live) : (r.create p).Inv := by
  obtain ⟨rank, free, F, B⟩ := h
  obtain ⟨free', S, hna, ha0, hnd, hnf, hdis, hle, hblock⟩ := B.allocate
  refine ⟨_, free', SearchTree.createNode_forest F S (fun b => B.lt_brk) hna ha0 hp,
    ⟨SearchTree.createNode_linked S fun b hb => ?_, hnd, ?_, fun b => ?_, ?_, ?_, ?_⟩⟩
  · rcases hp with rfl | hp
    exacts [.inr rfl, .inl fun h => hdis b hb (h ▸ hp)]
  · exact fun b hb h => (Finset.mem_insert.mp h).elim (fun h => hnf (by rwa [h] at hb)) (hdis b hb)
  · rw [create, SearchTree.createNode_brk, ← hblock b, Finset.mem_insert, or_assoc, or_left_comm]
    rfl
  · exact S.capacity ▸ B.capacity
  · rw [create, SearchTree.createNode_brk]
    exact B.brk_pos.trans_le hle
  · have hcard := Finset.card_insert_of_notMem hna
    simp only [create, SearchTree.createNode, B.numNodes, hcard]
    push_cast
    rfl

omit [SetData D] in
theorem write_inv (h : r.Inv) (d : D) : (r.write a d).Inv := by
  obtain ⟨rank, free, F, B⟩ := h
  exact ⟨rank, free, F.write a d, { B with }⟩

theorem release_spec (h : r.Inv) (ha : a ∈ r.owned) :
    ∃ r', r.release a = some r' ∧ r'.owned = r.owned.erase a ∧ r'.Inv := by
  obtain ⟨rank, free, F, B⟩ := h
  obtain ⟨l, m', t', free', hl, F', B'⟩ := SearchTree.releaseLoop_spec (F.drop_owner ha) B
    (.inr (F.owned_subset ha)) (B.card_lt.trans (Nat.lt_succ_self _))
  exact ⟨_, by rw [release, SearchTree.releaseNode, hl, Option.map_some], rfl, rank, free', F', B'⟩

theorem inv_preserved : Preserved (Step (D := D)) Inv := by
  intro r r' h hstep
  cases hstep with
  | create hp => exact create_inv h hp
  | write _ d => exact write_inv h d
  | release ha hr =>
    obtain ⟨r'', hr', _, h'⟩ := release_spec h ha
    exact (Option.some.inj (hr.symm.trans hr')) ▸ h'

/-- What holds between two calls on a tree. -/
structure Sound (r : TreeRun D) : Prop where
  /-- The word in front of a live node counts its live children and its owner. -/
  count : ∀ a ∈ r.live, r.mem.heap.header a = refCount r.mem.parent r.live r.owned a
  live_iff : ∀ a, a ≠ 0 → (a ∈ r.live ↔ 0 < refCount r.mem.parent r.live r.owned a)
  /-- Walking `parent` up from a live node meets live nodes and ends in null. -/
  ancestors : ∀ a ∈ r.live, ∃ l, Linked r.mem.parent a l ∧ ∀ b ∈ l, b ∈ r.live
  kept : ∀ a ∈ r.live, (r.mem.parent a, r.mem.data a) = r.made a
  numNodes : r.tree.numNodes = r.live.card
  inRange : IntRange r.tree.numNodes
  /-- `release_node` returns. -/
  release : ∀ a ∈ r.owned, (r.release a).isSome
  unfreed : r.owned = ∅ → r.tree.numUnfreedNodes = 0

theorem Inv.sound (h : r.Inv) (hlive : r.live.card < 2 ^ 31) : r.Sound := by
  obtain ⟨rank, free, F, B⟩ := id h
  refine ⟨fun a ha => F.count_eq ha, fun a ha0 => ?_, fun a ha => F.exists_linked ha, F.made_eq,
    B.numNodes, ?_, fun a ha => ?_, fun hnil => ?_⟩
  · refine ⟨fun ha => F.count_eq ha ▸ F.pos a ha, fun hpos => ?_⟩
    rcases refCount_pos_iff.mp hpos with ⟨b, hb, rfl⟩ | ha
    exacts [F.parent_mem b hb ha0, F.owned_subset ha]
  · rw [IntRange, B.numNodes]
    omega
  · obtain ⟨r', hr', _⟩ := release_spec h ha
    exact hr' ▸ rfl
  · have hlive := Forest.live_eq_empty (hnil ▸ F : Forest r.mem r.live ∅ r.made rank 0)
    rw [SearchTree.numUnfreedNodes, B.numNodes, hlive]
    rfl

/-- A call that leaves no more live nodes than an `int` counts. -/
def CountedStep (r r' : TreeRun D) : Prop := Step r r' ∧ r'.live.card < 2 ^ 31

/-- Reference counting of the search tree, at every point of every run in which the live nodes can be
counted. -/
theorem searchTree_sound (h : Reaches CountedStep (start D) r) : r.Sound := by
  refine (inv_preserved.reaches start_inv (reaches_mono (fun _ _ hstep => hstep.1) h)).sound ?_
  cases h with
  | refl => exact Nat.two_pow_pos 31
  | tail _ hstep => exact hstep.2

instance : SetData ℕ where
  clear _ := 0

/-- The node a `create_node` call returns. -/
def created (r : TreeRun D) (parent : ℕ) : ℕ := (r.tree.createNode r.mem parent).1

theorem create_live : (r.create p).live = insert (r.created p) r.live := rfl

theorem create_owned : (r.create p).owned = insert (r.created p) r.owned := rfl

theorem create_card_le : (r.create p).live.card ≤ r.live.card + 1 := Finset.card_insert_le _ _

theorem release_live (h : r.release a = some r') : r'.live ⊆ r.live := by
  obtain ⟨s, _, rfl⟩ := Option.map_eq_some_iff.mp h
  exact Finset.sdiff_subset

/-- A root and its child, the root released first. -/
theorem searchTree_sound_child : ∃ (root : ℕ) (r r' : TreeRun ℕ),
    r = ((start ℕ).create 0).create root ∧ r.release root = some r' ∧ r'.Sound := by
  obtain ⟨root, r, hr, hreach, howned, hcard⟩ : ∃ root r, r = ((start ℕ).create 0).create root ∧
      Reaches CountedStep (start ℕ) r ∧ root ∈ r.owned ∧ r.live.card ≤ 2 := by
    have hone : ((start ℕ).create 0).live.card ≤ 1 := create_card_le
    have htwo := (create_card_le (p := (start ℕ).created 0)).trans (Nat.succ_le_succ hone)
    refine ⟨(start ℕ).created 0, _, rfl, .tail (.single ⟨.create (.inl rfl), hone.trans_lt (by decide)⟩)
      ⟨.create (.inr ?_), htwo.trans_lt (by decide)⟩, ?_, htwo⟩
    · rw [create_live]
      exact Finset.mem_insert_self _ _
    · rw [create_owned, create_owned]
      exact Finset.mem_insert_of_mem (Finset.mem_insert_self _ _)
  obtain ⟨r', hr', _⟩ := release_spec
    (inv_preserved.reaches start_inv (reaches_mono (fun _ _ hstep => hstep.1) hreach)) howned
  have hlt : r'.live.card < 2 ^ 31 :=
    ((Finset.card_le_card (release_live hr')).trans hcard).trans_lt (by decide)
  exact ⟨root, r, r', hr, hr', searchTree_sound (hreach.tail ⟨.release howned hr', hlt⟩)⟩

/-- After `2 ^ 31` calls of `create_node` no `int` is the number of live nodes. -/
theorem searchTree_overflows : ∃ r : TreeRun ℕ, Reaches Step (start ℕ) r ∧ r.live.card = 2 ^ 31 ∧
    r.tree.numNodes = 2 ^ 31 ∧ ¬ IntRange r.live.card := by
  have hrun : ∀ n : ℕ, ∃ r : TreeRun ℕ, Reaches Step (start ℕ) r ∧ r.tree.numNodes = n := by
    intro n
    induction n with
    | zero => exact ⟨start ℕ, .refl, rfl⟩
    | succ n ih =>
      obtain ⟨r, hr, hn⟩ := ih
      refine ⟨r.create 0, hr.tail (.create (.inl rfl)), ?_⟩
      rw [Nat.cast_succ, ← hn]
      rfl
  obtain ⟨r, hr, hn⟩ := hrun (2 ^ 31)
  obtain ⟨_, _, _, B⟩ := inv_preserved.reaches start_inv hr
  have hcard : r.live.card = 2 ^ 31 := by exact_mod_cast B.numNodes.symm.trans hn
  refine ⟨r, hr, hcard, by simpa using hn, fun hint => ?_⟩
  have hlt : r.live.card < 2 ^ 31 := by exact_mod_cast hint.2
  exact absurd hcard hlt.ne

end TreeRun

end Optimer
