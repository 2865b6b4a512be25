import Optimer.Bnb.MTTree

/-! A search tree as its callers see it: which nodes they own, and what the nodes and their ancestors
hold. What the owner of a node reads on the way up from it is what was written there, whatever happens
to the nodes of other owners. -/

namespace Optimer
open RefCountedAllocator

/-- The nodes in use, those not released by their owner, and the parent and the data each was given. -/
structure Ledger (D : Type*) where
  live : Finset ℕ
  owned : Finset ℕ
  made : ℕ → ℕ × D

namespace Ledger

variable {D : Type*} {g g' : Ledger D} {a b p x : ℕ} {d d' : D} {l : List D}

/-- The data of a node and of its ancestors. -/
def Path (g : Ledger D) (a : ℕ) (l : List D) : Prop :=
  LinkedVals (fun a => (g.made a).1) (fun a => (g.made a).2) a l

/-- No node in use has the parent `x`. -/
def Leaf (g : Ledger D) (x : ℕ) : Prop := ∀ a ∈ g.live, (g.made a).1 ≠ x

structure Inv (g : Ledger D) : Prop where
  owned_subset : g.owned ⊆ g.live
  ne_zero : 0 ∉ g.live
  parent_mem : ∀ a ∈ g.live, (g.made a).1 ≠ 0 → (g.made a).1 ∈ g.live

/-! ### The calls -/

def create [Inhabited D] (g : Ledger D) (x p : ℕ) : Ledger D where
  live := insert x g.live
  owned := insert x g.owned
  made := Function.update g.made x (p, default)

def write (g : Ledger D) (x : ℕ) (d : D) : Ledger D :=
  { g with made := Function.update g.made x ((g.made x).1, d) }

/-- `a` is given up, and the nodes `live` are left. -/
def release (g : Ledger D) (a : ℕ) (live : Finset ℕ) : Ledger D :=
  { g with live := live, owned := g.owned.erase a }

namespace Inv

theorem ne_zero_of_mem (h : g.Inv) (ha : a ∈ g.live) : a ≠ 0 := ne_of_mem_of_not_mem ha h.ne_zero

theorem create [Inhabited D] (h : g.Inv) (hx : x ∉ g.live) (hx0 : x ≠ 0) (hp : p = 0 ∨ p ∈ g.live) :
    (g.create x p).Inv where
  owned_subset := Finset.insert_subset_insert _ h.owned_subset
  ne_zero := fun h0 => (Finset.mem_insert.mp h0).elim (fun h0 => hx0 h0.symm) h.ne_zero
  parent_mem b hb h0 := by
    simp only [Ledger.create] at hb h0 ⊢
    rcases Finset.mem_insert.mp hb with rfl | hb
    · simp only [Function.update_self] at h0 ⊢
      exact Finset.mem_insert_of_mem (hp.resolve_left h0)
    · simp only [Function.update_of_ne (ne_of_mem_of_not_mem hb hx)] at h0 ⊢
      exact Finset.mem_insert_of_mem (h.parent_mem b hb h0)

theorem write_parent (g : Ledger D) (x : ℕ) (d : D) (b : ℕ) : ((g.write x d).made b).1 = (g.made b).1 := by
  by_cases hb : b = x
  · simp [Ledger.write, hb]
  · simp [Ledger.write, hb]

theorem write (h : g.Inv) (x : ℕ) (d : D) : (g.write x d).Inv where
  owned_subset := h.owned_subset
  ne_zero := h.ne_zero
  parent_mem b hb h0 := by
    rw [write_parent] at h0 ⊢
    exact h.parent_mem b hb h0

end Inv

namespace Leaf

theorem create [Inhabited D] (h : g.Leaf b) (hx : x ∉ g.live) (hp : p ≠ b) : (g.create x p).Leaf b := by
  intro a ha
  simp only [Ledger.create] at ha ⊢
  rcases Finset.mem_insert.mp ha with rfl | ha
  · rwa [Function.update_self]
  · rw [Function.update_of_ne (ne_of_mem_of_not_mem ha hx)]
    exact h a ha

/-- A new node is a leaf. -/
theorem create_self [Inhabited D] (h : g.Inv) (hx : x ∉ g.live) (hx0 : x ≠ 0) (hp : p ≠ x) :
    (g.create x p).Leaf x := by
  refine create (fun a ha heq => ?_) hx hp
  exact hx (heq ▸ h.parent_mem a ha (heq ▸ hx0))

theorem write (h : g.Leaf b) (x : ℕ) (d : D) : (g.write x d).Leaf b := fun a ha => by
  rw [Inv.write_parent]
  exact h a ha

theorem release (h : g.Leaf b) {live : Finset ℕ} (hsub : live ⊆ g.live) : (g.release a live).Leaf b :=
  fun c hc => h c (hsub hc)

end Leaf

/-! ### What the calls leave of a path -/

namespace Path

theorem unique {l' : List D} (h : g.Path a l) (h' : g.Path a l') : l = l' := LinkedVals.unique h h'

theorem create [Inhabited D] (h : g.Path a l) (hI : g.Inv) (hx : x ∉ g.live) (ha : a = 0 ∨ a ∈ g.live) :
    (g.create x p).Path a l := by
  refine LinkedVals.congr h (· ∈ g.live) hI.parent_mem (fun b hb => ?_) ha
  simp [Ledger.create, ne_of_mem_of_not_mem hb hx]

theorem create_self [Inhabited D] (h : g.Path p l) (hI : g.Inv) (hx : x ∉ g.live) (hx0 : x ≠ 0)
    (hp : p = 0 ∨ p ∈ g.live) : (g.create x p).Path x (default :: l) := by
  refine ⟨hx0, by simp [Ledger.create], ?_⟩
  have hpath := h.create (p := p) hI hx hp
  simp only [Ledger.create, Function.update_self]
  exact hpath

/-- Writing into a leaf changes no other path. -/
theorem write (h : g.Path a l) (hI : g.Inv) (hx : g.Leaf x) (ha : a = 0 ∨ a ∈ g.live) (hne : a ≠ x) (d : D) :
    (g.write x d).Path a l := by
  refine LinkedVals.congr h (fun b => b ∈ g.live ∧ b ≠ x) (fun b hb h0 => ?_) (fun b hb => ?_)
    (ha.imp_right fun ha => ⟨ha, hne⟩)
  · exact ⟨hI.parent_mem b hb.1 h0, hx b hb.1⟩
  · simp [Ledger.write, hb.2]

theorem write_self (h : g.Path x (d :: l)) (hI : g.Inv) (hlive : x ∈ g.live) (hx : g.Leaf x) (d' : D) :
    (g.write x d').Path x (d' :: l) := by
  obtain ⟨h0, _, hl⟩ := h
  have hpath : (g.write x d').Path (g.made x).1 l :=
    Path.write hl hI hx (or_iff_not_imp_left.mpr (hI.parent_mem x hlive)) (hx x hlive) d'
  rw [← Inv.write_parent g x d'] at hpath
  exact ⟨h0, by simp [Ledger.write], hpath⟩

theorem release (h : g.Path b l) (a : ℕ) (live : Finset ℕ) : (g.release a live).Path b l := h

end Path

/-! ### Who owns the nodes -/

/-- The owned nodes are those in containers, `kept`, and those that calls of `branch` are making, `fresh`,
which have no children yet. -/
structure Held (g : Ledger D) (kept fresh : Multiset ℕ) : Prop where
  inv : g.Inv
  owned : g.owned.val = kept + fresh
  leaf : ∀ x ∈ fresh, g.Leaf x

namespace Held

variable {kept fresh new : Multiset ℕ}

theorem mem_owned (h : g.Held kept fresh) : b ∈ g.owned ↔ b ∈ kept ∨ b ∈ fresh := by
  rw [← Finset.mem_val, h.owned, Multiset.mem_add]

theorem live (h : g.Held kept fresh) (hb : b ∈ kept ∨ b ∈ fresh) : b ∈ g.live :=
  h.inv.owned_subset (h.mem_owned.mpr hb)

theorem ne (h : g.Held kept fresh) (hb : b ∈ kept) (hx : x ∈ fresh) : b ≠ x := by
  have hnodup := g.owned.nodup
  rw [h.owned, Multiset.nodup_add] at hnodup
  exact fun heq => Multiset.disjoint_left.mp hnodup.2.2 hb (heq ▸ hx)

theorem create [Inhabited D] (h : g.Held kept fresh) (hx : x ∉ g.live) (hx0 : x ≠ 0) (hp : p ∈ kept) :
    (g.create x p).Held kept (x ::ₘ fresh) where
  inv := h.inv.create hx hx0 (.inr (h.live (.inl hp)))
  owned := by
    have hnot : x ∉ g.owned := fun hm => hx (h.inv.owned_subset hm)
    rw [Ledger.create, Finset.insert_val_of_notMem hnot, h.owned, Multiset.add_cons]
  leaf y hy := by
    rcases Multiset.mem_cons.mp hy with rfl | hy
    · exact .create_self h.inv hx hx0 (ne_of_mem_of_not_mem (h.live (.inl hp)) hx)
    · exact (h.leaf y hy).create hx (h.ne hp hy)

theorem write (h : g.Held kept fresh) (x : ℕ) (d : D) : (g.write x d).Held kept fresh where
  inv := h.inv.write x d
  owned := h.owned
  leaf y hy := (h.leaf y hy).write x d

/-- Giving up one of the new nodes. -/
theorem release (h : g.Held kept fresh) (hx : x ∈ fresh) {live : Finset ℕ} (hsub : live ⊆ g.live)
    (hinv : (g.release x live).Inv) : (g.release x live).Held kept (fresh.erase x) where
  inv := hinv
  owned := by
    rw [Ledger.release, Finset.erase_val, h.owned, Multiset.erase_add_right_pos _ hx]
  leaf y hy := (h.leaf y (Multiset.mem_of_mem_erase hy)).release hsub

/-- Giving up one of the kept nodes. -/
theorem release_kept (h : g.Held kept fresh) (ha : a ∈ kept) {live : Finset ℕ} (hsub : live ⊆ g.live)
    (hinv : (g.release a live).Inv) : (g.release a live).Held (kept.erase a) fresh where
  inv := hinv
  owned := by
    rw [Ledger.release, Finset.erase_val, h.owned, Multiset.erase_add_left_pos _ ha]
  leaf y hy := (h.leaf y hy).release hsub

/-- Nodes that nobody owns go. -/
theorem shrink (h : g.Held kept fresh) {live : Finset ℕ} (hsub : live ⊆ g.live)
    (hinv : Ledger.Inv { g with live := live }) : Ledger.Held { g with live := live } kept fresh where
  inv := hinv
  owned := h.owned
  leaf y hy c hc := h.leaf y hy c (hsub hc)

/-- New nodes are put into containers. -/
theorem keep (h : g.Held kept (new + fresh)) : g.Held (kept + new) fresh where
  inv := h.inv
  owned := by rw [h.owned, add_assoc]
  leaf y hy := h.leaf y (Multiset.mem_add.mpr (.inr hy))

theorem path_create [Inhabited D] (h : g.Held kept fresh) (hx : x ∉ g.live) (hb : b ∈ kept ∨ b ∈ fresh)
    (hl : g.Path b l) : (g.create x p).Path b l :=
  hl.create h.inv hx (.inr (h.live hb))

theorem path_write (h : g.Held kept fresh) (hb : b ∈ kept ∨ b ∈ fresh) (hx : x ∈ fresh) (hne : b ≠ x) (d : D)
    (hl : g.Path b l) : (g.write x d).Path b l :=
  hl.write h.inv (h.leaf x hx) (.inr (h.live hb)) hne d

end Held

end Ledger

/-! ### The trees of the code -/

variable {D : Type*}

/-- The data that reading upwards from a node finds. -/
def Memory.Reads (m : Memory D) (a : ℕ) (l : List D) : Prop := LinkedVals m.parent m.data a l

instance [DecidableEq D] {m : Memory D} {a : ℕ} {l : List D} : Decidable (m.Reads a l) :=
  inferInstanceAs (Decidable (LinkedVals ..))

theorem Forest.ledger {m : Memory D} {live owned : Finset ℕ} {made : ℕ → ℕ × D} {rank : ℕ → ℕ} {pend : ℕ}
    (F : Forest m live owned made rank pend) : (Ledger.mk live owned made).Inv where
  owned_subset := F.owned_subset
  ne_zero := F.ne_zero
  parent_mem a ha h0 := by
    have heq : m.parent a = (made a).1 := congrArg Prod.fst (F.made_eq a ha)
    simp only [← heq] at h0 ⊢
    exact F.parent_mem a ha h0

theorem Ledger.Inv.reads_iff {g : Ledger D} {m : Memory D} {a : ℕ} {l : List D} (h : g.Inv)
    (hmade : ∀ b ∈ g.live, (m.parent b, m.data b) = g.made b) (ha : a ∈ g.live) : m.Reads a l ↔ g.Path a l := by
  have hparent : ∀ b ∈ g.live, (g.made b).1 = m.parent b ∧ (g.made b).2 = m.data b := fun b hb => by
    simp only [← hmade b hb, and_self]
  constructor
  · intro hl
    refine LinkedVals.congr hl (· ∈ g.live) (fun b hb h0 => ?_) hparent (.inr ha)
    rw [← (hparent b hb).1] at h0 ⊢
    exact h.parent_mem b hb h0
  · exact fun hl => LinkedVals.congr hl (· ∈ g.live) h.parent_mem
      (fun b hb => ⟨(hparent b hb).1.symm, (hparent b hb).2.symm⟩) (.inr ha)

theorem Forest.reads_iff {m : Memory D} {live owned : Finset ℕ} {made : ℕ → ℕ × D} {rank : ℕ → ℕ} {pend a : ℕ}
    {l : List D} (F : Forest m live owned made rank pend) (ha : a ∈ live) :
    m.Reads a l ↔ (Ledger.mk live owned made).Path a l :=
  F.ledger.reads_iff F.made_eq ha

/-- A node is in use for an owned node below it. -/
theorem Forest.exists_owner {m : Memory D} {live owned : Finset ℕ} {made : ℕ → ℕ × D} {rank : ℕ → ℕ} {a : ℕ}
    (F : Forest m live owned made rank 0) (ha : a ∈ live) :
    ∃ b ∈ owned, ∃ l, Linked m.parent b l ∧ a ∈ l := by
  classical
  by_contra hno
  let bad := live.filter fun a => ¬ ∃ b ∈ owned, ∃ l, Linked m.parent b l ∧ a ∈ l
  -- one of the greatest rank has a child that is above an owned node
  obtain ⟨x, hx, hmax⟩ := bad.exists_max_image rank ⟨a, Finset.mem_filter.mpr ⟨ha, hno⟩⟩
  obtain ⟨hlive, hnone⟩ := Finset.mem_filter.mp hx
  have hx0 := F.ne_zero_of_mem hlive
  have hpos := F.pos x hlive
  rw [F.count_eq hlive, refCount_pos_iff] at hpos
  rcases hpos with ⟨y, hy, rfl⟩ | howned
  · refine absurd (hmax y (Finset.mem_filter.mpr ⟨hy, ?_⟩)) (not_le.mpr (F.rank_lt y hy hx0))
    rintro ⟨b, hb, l, hl, hyl⟩
    exact hnone ⟨b, hb, l, hl, hl.next_mem hyl hx0⟩
  · obtain ⟨l, hl, _⟩ := F.exists_linked hlive
    exact hnone ⟨x, howned, l, hl, hl.head_mem hx0⟩

namespace TreeRun

variable [SetData D] {r r' : TreeRun D} {a p x : ℕ} {d : D}

def ledger (r : TreeRun D) : Ledger D := ⟨r.live, r.owned, r.made⟩

omit [SetData D] in
theorem Inv.ledger (h : r.Inv) : r.ledger.Inv := by
  obtain ⟨_, _, F, _⟩ := h
  exact F.ledger

omit [SetData D] in
theorem Inv.reads_iff {l : List D} (h : r.Inv) (ha : a ∈ r.live) : r.mem.Reads a l ↔ r.ledger.Path a l := by
  obtain ⟨_, _, F, _⟩ := h
  exact F.reads_iff ha

theorem create_ledger : (r.create p).ledger = r.ledger.create (r.created p) p := rfl

omit [SetData D] in
theorem write_ledger : (r.write x d).ledger = r.ledger.write x d := rfl

theorem created_spec (h : r.Inv) : r.created p ∉ r.live ∧ r.created p ≠ 0 := by
  obtain ⟨_, _, _, B⟩ := h
  obtain ⟨_, _, hna, ha0, _⟩ := B.allocate
  exact ⟨hna, ha0⟩

theorem release_ledger (hr : r.release a = some r') : ∃ live ⊆ r.live, r'.ledger = r.ledger.release a live := by
  obtain ⟨_, _, rfl⟩ := Option.map_eq_some_iff.mp hr
  exact ⟨_, Finset.sdiff_subset, rfl⟩

/-- Releasing a node changes nothing for those that are left. -/
theorem release_path {b : ℕ} {l : List D} (hr : r.release x = some r') (hl : r.ledger.Path b l) :
    r'.ledger.Path b l := by
  obtain ⟨live, _, hledger⟩ := release_ledger hr
  rw [hledger]
  exact hl

end TreeRun

namespace MTRun

variable {ι : Type*} [DecidableEq ι] [SetData D] {r r' : MTRun ι D} {t : ι} {a p x : ℕ} {d : D}

def ledger (r : MTRun ι D) : Ledger D := ⟨r.live, r.owned, r.made⟩

omit [DecidableEq ι] [SetData D] in
theorem Inv.ledger (h : r.Inv) : r.ledger.Inv := by
  obtain ⟨_, _, F, _⟩ := h
  exact F.ledger

omit [DecidableEq ι] [SetData D] in
theorem Inv.reads_iff {l : List D} (h : r.Inv) (ha : a ∈ r.live) : r.mem.Reads a l ↔ r.ledger.Path a l := by
  obtain ⟨_, _, F, _⟩ := h
  exact F.reads_iff ha

theorem create_ledger : (r.create t p).ledger = r.ledger.create (r.created t p) p := rfl

omit [DecidableEq ι] [SetData D] in
theorem write_ledger : (r.write x d).ledger = r.ledger.write x d := rfl

theorem release_ledger (hr : r.release t a = some r') :
    ∃ live ⊆ r.live, r'.ledger = r.ledger.release a live := by
  obtain ⟨_, _, rfl⟩ := Option.map_eq_some_iff.mp hr
  exact ⟨_, Finset.sdiff_subset, rfl⟩

theorem release_path {b : ℕ} {l : List D} (hr : r.release t x = some r') (hl : r.ledger.Path b l) :
    r'.ledger.Path b l := by
  obtain ⟨live, _, hledger⟩ := release_ledger hr
  rw [hledger]
  exact hl

end MTRun

end Optimer
