import Optimer.Bnb.MTTree
import Optimer.Lib.Counter

/-! The reference counts of `MTSearchTree` word by word: `++refs` and `--refs` of the allocator are a read
and a write, between which other threads run. Each thread creates nodes below one it holds, and hands a node
over only after its parent has been released, as `start` does. -/

namespace Optimer
open RefCountedAllocator Transition

/-- Where a thread is in a call of `create_node` or `release_node`. -/
inductive Access
  | idle
  /-- `inc_refs` of the parent of a new node. -/
  | incRead (p : ℕ)
  | incWrite (p refs : ℕ)
  /-- `dec_refs` in the loop of `release_node`. -/
  | decRead (a : ℕ)
  | decWrite (a refs : ℕ)
  deriving DecidableEq

namespace Access

def incs : Access → ℕ → ℕ
  | incRead p, a | incWrite p _, a => if p = a then 1 else 0
  | _, _ => 0

def drops : Access → ℕ → ℕ
  | decRead b, a | decWrite b _, a => if b = a then 1 else 0
  | _, _ => 0

/-- What has been read of the count of `a` and not been written back. -/
def read : Access → ℕ → Option ℕ
  | decWrite b refs, a => if b = a then some refs else none
  | _, _ => none

variable {x : Access} {a b n : ℕ}

@[simp] theorem incs_idle : idle.incs a = 0 := rfl

@[simp] theorem drops_idle : idle.drops a = 0 := rfl

@[simp] theorem read_idle : idle.read a = none := rfl

theorem incs_pos (h : 0 < x.incs a) : x = incRead a ∨ ∃ n, x = incWrite a n := by
  cases x with
  | incRead p =>
    by_cases hp : p = a
    · exact .inl (hp ▸ rfl)
    · simp [incs, hp] at h
  | incWrite p n =>
    by_cases hp : p = a
    · exact .inr ⟨n, hp ▸ rfl⟩
    · simp [incs, hp] at h
  | _ => simp [incs] at h

theorem drops_pos (h : 0 < x.drops a) : x = decRead a ∨ ∃ n, x = decWrite a n := by
  cases x with
  | decRead b =>
    by_cases hb : b = a
    · exact .inl (hb ▸ rfl)
    · simp [drops, hb] at h
  | decWrite b n =>
    by_cases hb : b = a
    · exact .inr ⟨n, hb ▸ rfl⟩
    · simp [drops, hb] at h
  | _ => simp [drops] at h

theorem read_eq (h : x.read a = some n) : x = decWrite a n := by
  cases x with
  | decWrite b m =>
    by_cases hb : b = a
    · subst hb
      simp only [read, if_pos, Option.some.injEq] at h
      rw [h]
    · simp [read, hb] at h
  | _ => simp [read] at h

end Access

/-- The trees of all threads with the calls under way. Beside the state of the code, `holder` is the thread
that a node belongs to, and `raced` are the nodes of whose count a write has been lost. -/
structure MTCounts (ι D : Type*) extends MTRun ι D where
  access : ι → Access
  holder : ℕ → ι
  raced : Finset ℕ

namespace MTCounts

variable {ι D : Type*}

section Model

variable [DecidableEq ι] [SetData D]

/-- No thread has a tree yet. -/
def start (ι D : Type*) [SetData D] (t : ι) : MTCounts ι D :=
  { MTRun.start ι D with access := fun _ => .idle, holder := fun _ => t, raced := ∅ }

def go (r : MTCounts ι D) (t : ι) (x : Access) : MTCounts ι D := { r with access := Function.update r.access t x }

/-- `create_node` up to `inc_refs`: the node is made as without a parent, which is then stored. -/
def create (r : MTCounts ι D) (t : ι) (parent : ℕ) : MTCounts ι D :=
  let (a, mem, tree) := r.tree.createNode t r.mem 0
  { r with
    tree
    mem := { mem with parent := Function.update mem.parent a parent }
    live := insert a r.live
    owned := insert a r.owned
    made := Function.update r.made a (parent, default)
    holder := Function.update r.holder a t
    access := Function.update r.access t (if parent = 0 then .idle else .incRead parent) }

def setCount (r : MTCounts ι D) (a refs : ℕ) : MTCounts ι D :=
  { r with mem := { r.mem with heap := { r.mem.heap with header := Function.update r.mem.heap.header a refs } } }

/-- The write of `dec_refs`, and the rest of the round of `release_node` when the count is zero. -/
def decWrite (r : MTCounts ι D) (t : ι) (a refs : ℕ) : MTCounts ι D :=
  let (tree, s) := r.tree.threadLocalTree t
  let (n, heap, allocator) := tree.allocator.decRefs a
    { r.mem.heap with header := Function.update r.mem.heap.header a refs }
  let raced := if refs = r.mem.heap.header a then r.raced else insert a r.raced
  if n = 0 then
    { r with
      tree := s.store t { numNodes := tree.numNodes - 1, allocator }
      mem := { r.mem with heap, data := Function.update r.mem.data a (SetData.clear (r.mem.data a)) }
      live := r.live.erase a
      raced
      access := Function.update r.access t (if r.mem.parent a = 0 then .idle else .decRead (r.mem.parent a)) }
  else
    { r with
      tree := s.store t { tree with allocator }
      mem := { r.mem with heap }
      raced
      access := Function.update r.access t .idle }

/-- `release_node` up to the first `dec_refs`. -/
def release (r : MTCounts ι D) (t : ι) (a : ℕ) : MTCounts ι D :=
  { r with owned := r.owned.erase a }.go t (.decRead a)

/-- The next read or write of the call that the thread is in. -/
def advance (r : MTCounts ι D) (t : ι) : MTCounts ι D :=
  match r.access t with
  | .idle => r
  | .incRead p => r.go t (.incWrite p (r.mem.heap.header p))
  | .incWrite p refs => (r.setCount p (refs + 1)).go t .idle
  | .decRead a => r.go t (.decWrite a (r.mem.heap.header a))
  | .decWrite a refs => r.decWrite t a refs

/-- A node goes to another thread; the queue of the scheduler is one that makes no calls. -/
def hand (r : MTCounts ι D) (a : ℕ) (u : ι) : MTCounts ι D := { r with holder := Function.update r.holder a u }

/-- The thread is between two calls. -/
def Idle (r : MTCounts ι D) (t : ι) : Prop := r.access t = .idle

/-- The node belongs to the thread. -/
def Holds (r : MTCounts ι D) (t : ι) (a : ℕ) : Prop := a ∈ r.owned ∧ r.holder a = t

instance {r : MTCounts ι D} {t : ι} : Decidable (r.Idle t) := inferInstanceAs (Decidable (_ = _))

instance {r : MTCounts ι D} {t : ι} {a : ℕ} : Decidable (r.Holds t a) := inferInstanceAs (Decidable (_ ∧ _))

/-- One step of some thread. Only nodes that nobody has branched on change hands. -/
inductive Step : MTCounts ι D → MTCounts ι D → Prop
  | create {r : MTCounts ι D} {t : ι} {p : ℕ} (hi : r.Idle t)
      (hp : p = 0 ∨ r.Holds t p ∧ r.mem.parent p ∉ r.owned) : Step r (r.create t p)
  | write {r : MTCounts ι D} {t : ι} {a : ℕ} (hi : r.Idle t) (ha : r.Holds t a) (d : D) :
      Step r { r with toMTRun := r.toMTRun.write a d }
  | hand {r : MTCounts ι D} {t : ι} {a : ℕ} (hi : r.Idle t) (ha : r.Holds t a) (hp : r.mem.parent a ∉ r.owned)
      (hc : ∀ c ∈ r.live, r.mem.parent c ≠ a) (u : ι) : Step r (r.hand a u)
  | release {r : MTCounts ι D} {t : ι} {a : ℕ} (hi : r.Idle t) (ha : r.Holds t a) : Step r (r.release t a)
  | advance {r : MTCounts ι D} (t : ι) : Step r (r.advance t)

end Model

/-! ### The invariant -/

section Inv

variable [Fintype ι] {r r' : MTCounts ι D} {t u : ι} {a b c p n : ℕ} {x : Access}

/-- The references to a node that have not been counted down: of live children, of its owner, and those
being dropped. -/
def refs (r : MTCounts ι D) (a : ℕ) : ℕ := refCount r.mem.parent r.live r.owned a + ∑ t, (r.access t).drops a

def counter (r : MTCounts ι D) (a : ℕ) : Counter ι where
  value := r.mem.heap.header a + ∑ t, (r.access t).incs a
  refs := r.refs a
  reads t := (r.access t).read a
  raced := a ∈ r.raced

/-- The blocks and the links of the nodes. -/
structure Shape (r : MTCounts ι D) : Prop where
  blocks : ∃ free, SharedBlocks r.mem r.tree r.live free
  owned_subset : r.owned ⊆ r.live
  ne_zero : 0 ∉ r.live
  parent_mem : ∀ a ∈ r.live, r.mem.parent a ≠ 0 → r.mem.parent a ∈ r.live
  ranked : ∃ rank : ℕ → ℕ, ∀ a ∈ r.live, r.mem.parent a ≠ 0 → rank (r.mem.parent a) < rank a
  made_eq : ∀ a ∈ r.live, (r.mem.parent a, r.mem.data a) = r.made a

/-- Which thread can be at the count of which node: while a node is owned, only its holder. -/
structure Use (r : MTCounts ι D) : Prop where
  inc : ∀ t p, 0 < (r.access t).incs p → r.Holds t p
  incWrite : ∀ t p n, r.access t = .incWrite p n → n = r.mem.heap.header p
  dec : ∀ t a, 0 < (r.access t).drops a → a ∈ r.live ∧
    (a ∈ r.owned → r.holder a = t ∧ r.mem.parent a ∉ r.owned) ∧
    (r.mem.parent a ∈ r.owned → r.holder (r.mem.parent a) = t)
  child : ∀ c ∈ r.live, r.mem.parent c ∈ r.owned →
    r.Holds (r.holder (r.mem.parent c)) c ∨ 0 < (r.access (r.holder (r.mem.parent c))).drops c
  leaf : ∀ c ∈ r.live, r.mem.parent c ≠ 0 → r.mem.parent (r.mem.parent c) ∉ r.owned
  fresh : ∀ a ∈ r.live, r.mem.parent a ∈ r.owned →
    a ∉ r.raced ∧ ∀ t n, r.access t = .decWrite a n → n = r.mem.heap.header a

/-- What the counts say. -/
structure Counted (r : MTCounts ι D) : Prop where
  counter : ∀ a ∈ r.live, (r.counter a).Inv
  needed : ∀ a ∈ r.live, a ∉ r.raced → 0 < r.refs a
  raced_subset : r.raced ⊆ r.live

structure Inv (r : MTCounts ι D) : Prop where
  shape : r.Shape
  use : r.Use
  counted : r.Counted

theorem start_inv [SetData D] (t : ι) : (start ι D t).Inv where
  shape := by
    obtain ⟨rank, free, F, B⟩ := MTRun.start_inv (ι := ι) (D := D)
    exact ⟨⟨free, B⟩, F.owned_subset, F.ne_zero, F.parent_mem, ⟨rank, F.rank_lt⟩, F.made_eq⟩
  use := by
    refine ⟨?_, ?_, ?_, ?_, ?_, ?_⟩ <;> simp [start, MTRun.start, Access.incs, Access.drops]
  counted := by
    refine ⟨?_, ?_, ?_⟩ <;> simp [start, MTRun.start]

namespace Use

omit [Fintype ι] in
/-- A thread that adds to a count is alone at it. -/
theorem drops_of_inc (h : r.Use) (ht : 0 < (r.access t).incs p) (u : ι) : (r.access u).drops p = 0 := by
  by_contra hne
  obtain ⟨howned, hholder⟩ := h.inc t p ht
  obtain ⟨_, hdec, _⟩ := h.dec u p (Nat.pos_of_ne_zero hne)
  obtain rfl : u = t := (hdec howned).1.symm.trans hholder
  obtain hx | ⟨n, hx⟩ := Access.incs_pos ht <;> simp [hx, Access.drops] at hne

theorem incs_of_dec (h : r.Use) (ht : 0 < (r.access t).drops a) : ∑ u, (r.access u).incs a = 0 := by
  refine Finset.sum_eq_zero fun u _ => ?_
  by_contra hne
  exact ht.ne' (h.drops_of_inc (Nat.pos_of_ne_zero hne) t)

omit [Fintype ι] in
/-- Nobody is at the count of a node whose holder is between two calls. -/
theorem drops_of_holds (h : r.Use) (hi : r.Idle t) (ha : r.Holds t a) (u : ι) : (r.access u).drops a = 0 := by
  by_contra hne
  obtain ⟨_, hdec, _⟩ := h.dec u a (Nat.pos_of_ne_zero hne)
  obtain rfl : u = t := (hdec ha.1).1.symm.trans ha.2
  simp [show r.access u = .idle from hi, Access.drops] at hne

end Use

/-! ### Steps that leave the counts alone -/

theorem counter_congr (hvalue : r'.mem.heap.header a + ∑ t, (r'.access t).incs a =
      r.mem.heap.header a + ∑ t, (r.access t).incs a) (hrefs : r'.refs a = r.refs a)
    (hread : ∀ t, (r'.access t).read a = (r.access t).read a) (hraced : a ∈ r'.raced ↔ a ∈ r.raced) :
    r'.counter a = r.counter a := by
  simp only [counter, hvalue, hrefs, hread, hraced]

variable [DecidableEq ι]

theorem refs_go (r : MTCounts ι D) (t : ι) (x : Access) (a : ℕ) :
    (r.go t x).refs a + (r.access t).drops a = r.refs a + x.drops a := by
  have hsum := sum_update_add r.access (fun y => y.drops a) t x
  simp only [refs, go]
  omega

theorem incs_go (r : MTCounts ι D) (t : ι) (x : Access) (a : ℕ) :
    ∑ u, ((r.go t x).access u).incs a + (r.access t).incs a = ∑ u, (r.access u).incs a + x.incs a :=
  sum_update_add r.access (fun y => y.incs a) t x

omit [Fintype ι] in
theorem access_go_self : (r.go t x).access t = x := Function.update_self ..

omit [Fintype ι] in
theorem access_go_of_ne (h : u ≠ t) : (r.go t x).access u = r.access u := Function.update_of_ne h ..

omit [Fintype ι] in
/-- What holds of the accesses after a step of `t`. -/
theorem forall_go {P : ι → Access → Prop} (hx : P t x) (h : ∀ u, u ≠ t → P u (r.access u)) (u : ι) :
    P u ((r.go t x).access u) := by
  by_cases hu : u = t
  · subst hu
    rwa [access_go_self]
  · rw [access_go_of_ne hu]
    exact h u hu

theorem Inv.release (h : r.Inv) (hi : r.Idle t) (ha : r.Holds t a) : (r.release t a).Inv := by
  have hlive := h.shape.owned_subset ha.1
  have hidle : r.access t = .idle := hi
  have hrefs : ∀ b, (r.release t a).refs b = r.refs b := fun b => by
    have hgo := refs_go { r with owned := r.owned.erase a } t (.decRead a) b
    have hold : refCount r.mem.parent r.live r.owned b = _ := refCount_erase_owned ha.1
    rw [hidle, Access.drops_idle, add_zero] at hgo
    rw [MTCounts.release, hgo]
    simp only [refs, Access.drops, hold]
    by_cases hb : b = a
    · simp [hb]; omega
    · simp [hb, Ne.symm hb]
  have hcounter : ∀ b, (r.release t a).counter b = r.counter b := fun b => by
    refine counter_congr ?_ (hrefs b) (fun u => ?_) Iff.rfl
    · have hgo := incs_go { r with owned := r.owned.erase a } t (.decRead a) b
      rw [hidle, Access.incs_idle, add_zero] at hgo
      exact congrArg _ hgo
    · exact forall_go (P := fun u x => x.read b = (r.access u).read b) (by rw [hidle]; rfl) (fun _ _ => rfl) u
  refine ⟨?_, ?_, ?_⟩
  · obtain ⟨hblocks, howned, hzero, hparent, hranked, hmade⟩ := h.shape
    exact ⟨hblocks, (Finset.erase_subset _ _).trans howned, hzero, hparent, hranked, hmade⟩
  · refine ⟨fun u => ?_, fun u => ?_, fun u b => ?_, fun b hb hp => ?_, fun b hb h0 hp => ?_, fun b hb hp => ?_⟩
    · refine forall_go (P := fun u x => ∀ p, 0 < x.incs p → Holds _ u p) ?_ (fun u hu p hp => ?_) u
      · simp [Access.incs]
      · obtain ⟨howned, hholder⟩ := h.use.inc u p hp
        refine ⟨Finset.mem_erase.mpr ⟨?_, howned⟩, hholder⟩
        rintro rfl
        exact hu (hholder.symm.trans ha.2)
    · refine forall_go (P := fun u x => ∀ p n, x = .incWrite p n → n = r.mem.heap.header p) ?_
        (fun u _ => h.use.incWrite u) u
      simp
    · refine forall_go (P := fun u x => 0 < x.drops b → b ∈ r.live ∧ (b ∈ r.owned.erase a → r.holder b = u ∧
        r.mem.parent b ∉ r.owned.erase a) ∧ (r.mem.parent b ∈ r.owned.erase a → r.holder (r.mem.parent b) = u))
        (fun hx => ?_) (fun u _ hx => ?_) u
      · obtain hx | ⟨n, hx⟩ := Access.drops_pos hx
        · obtain rfl := Access.decRead.inj hx
          refine ⟨hlive, fun hmem => absurd rfl (Finset.ne_of_mem_erase hmem), fun hp => ?_⟩
          rcases h.use.child a hlive (Finset.mem_of_mem_erase hp) with hholds | hpos
          · exact hholds.2.symm.trans ha.2
          · exact absurd (h.use.drops_of_holds hi ha _) hpos.ne'
        · cases hx
      · obtain ⟨hb, hown, hpar⟩ := h.use.dec u b hx
        exact ⟨hb, fun hmem => ⟨(hown (Finset.mem_of_mem_erase hmem)).1,
          fun hp => (hown (Finset.mem_of_mem_erase hmem)).2 (Finset.mem_of_mem_erase hp)⟩,
          fun hp => hpar (Finset.mem_of_mem_erase hp)⟩
    · have hpo := Finset.mem_of_mem_erase hp
      by_cases hba : b = a
      · subst hba
        rcases h.use.child b hb hpo with hholds | hpos
        · refine .inr ?_
          have hheld : r.holder (r.mem.parent b) = t := hholds.2.symm.trans ha.2
          show 0 < (Function.update r.access t (.decRead b) (r.holder (r.mem.parent b))).drops b
          rw [hheld, Function.update_self]
          simp [Access.drops]
        · exact absurd (h.use.drops_of_holds hi ha _) hpos.ne'
      · rcases h.use.child b hb hpo with hholds | hpos
        · exact .inl ⟨Finset.mem_erase.mpr ⟨hba, hholds.1⟩, hholds.2⟩
        · refine .inr ?_
          show 0 < (Function.update r.access t (.decRead a) (r.holder (r.mem.parent b))).drops b
          rw [Function.update_of_ne]
          · exact hpos
          · intro heq
            rw [heq, hidle] at hpos
            exact lt_irrefl 0 hpos
    · exact h.use.leaf b hb h0 (Finset.mem_of_mem_erase hp)
    · obtain ⟨hraced, hall⟩ := h.use.fresh b hb (Finset.mem_of_mem_erase hp)
      refine ⟨hraced, ?_⟩
      exact forall_go (P := fun u x => ∀ n, x = .decWrite b n → n = r.mem.heap.header b) (by simp) fun u _ => hall u
  · exact ⟨fun b hb => hcounter b ▸ h.counted.counter b hb, fun b hb hr => hrefs b ▸ h.counted.needed b hb hr,
      h.counted.raced_subset⟩

/-- Steps of `t` that only move on: of a count only what has been read of it changes. -/
theorem Inv.go (h : r.Inv) (hdrops : ∀ b, x.drops b = (r.access t).drops b)
    (hincs : ∀ b, x.incs b = (r.access t).incs b)
    (hinc : ∀ p n, x = .incWrite p n → n = r.mem.heap.header p)
    (hdec : ∀ b n, x = .decWrite b n → n = r.mem.heap.header b)
    (hread : ∀ b ∈ r.live, (r.counter b).Inv →
      Counter.Inv { r.counter b with reads := fun u => ((r.go t x).access u).read b }) : (r.go t x).Inv := by
  have hrefs : ∀ b, (r.go t x).refs b = r.refs b := fun b => by
    have hgo := refs_go r t x b
    have heq := hdrops b
    omega
  have hsum : ∀ b, ∑ u, ((r.go t x).access u).incs b = ∑ u, (r.access u).incs b := fun b => by
    have hgo := incs_go r t x b
    have heq := hincs b
    omega
  have hall : ∀ u b, ((r.go t x).access u).drops b = (r.access u).drops b := fun u b =>
    forall_go (P := fun u x => x.drops b = (r.access u).drops b) (hdrops b) (fun _ _ => rfl) u
  refine ⟨⟨h.shape.1, h.shape.2, h.shape.3, h.shape.4, h.shape.5, h.shape.6⟩, ⟨?_, ?_, ?_, ?_, h.use.leaf, ?_⟩, ?_⟩
  · refine fun u p hp => h.use.inc u p ?_
    rwa [forall_go (P := fun u x => x.incs p = (r.access u).incs p) (hincs p) (fun _ _ => rfl) u] at hp
  · exact fun u p n => forall_go (P := fun _ x => x = .incWrite p n → n = r.mem.heap.header p) (hinc p n)
      (fun u _ => h.use.incWrite u p n) u
  · exact fun u b hb => h.use.dec u b (hall u b ▸ hb)
  · intro c hc hp
    rw [hall]
    exact h.use.child c hc hp
  · refine fun b hb hp => ⟨(h.use.fresh b hb hp).1, fun u n => ?_⟩
    exact forall_go (P := fun _ x => x = .decWrite b n → n = r.mem.heap.header b) (hdec b n)
      (fun u _ => (h.use.fresh b hb hp).2 u n) u
  · refine ⟨fun b hb => ?_, fun b hb hr => hrefs b ▸ h.counted.needed b hb hr, h.counted.raced_subset⟩
    have hcount := hread b hb (h.counted.counter b hb)
    rw [counter, hsum, hrefs]
    exact hcount

/-- `t` reads the count of a node it drops. -/
theorem Inv.decRead (h : r.Inv) (ht : r.access t = .decRead a) :
    (r.go t (.decWrite a (r.mem.heap.header a))).Inv := by
  have hpos : 0 < (r.access t).drops a := by simp [ht, Access.drops]
  have hsum := h.use.incs_of_dec hpos
  refine h.go (fun b => by rw [ht]; rfl) (fun b => by rw [ht]; rfl) (fun p n hx => by cases hx) (fun b n hx => ?_)
    fun b hb hcount => ?_
  · obtain ⟨rfl, rfl⟩ := Access.decWrite.inj hx
    rfl
  · by_cases hba : b = a
    · subst hba
      have hvalue : (r.counter b).value = r.mem.heap.header b := by rw [counter, hsum, add_zero]
      have hreads : (fun u => ((r.go t (.decWrite b (r.mem.heap.header b))).access u).read b) =
          ((r.counter b).read t).reads := funext fun u => by
        refine forall_go (P := fun u x => x.read b = ((r.counter b).read t).reads u) ?_ (fun u hu => ?_) u
        · simp [Counter.read, Access.read, hvalue]
        · simp [Counter.read, hu, counter]
      rw [hreads]
      exact hcount.read t
    · have hreads : (fun u => ((r.go t (.decWrite a (r.mem.heap.header a))).access u).read b) = (r.counter b).reads :=
        funext fun u => forall_go (P := fun u x => x.read b = (r.access u).read b)
          (by simp [ht, Access.read, Ne.symm hba]) (fun _ _ => rfl) u
      rw [hreads]
      exact hcount

theorem Inv.incRead (h : r.Inv) (ht : r.access t = .incRead p) :
    (r.go t (.incWrite p (r.mem.heap.header p))).Inv := by
  refine h.go (fun b => by rw [ht]; rfl) (fun b => by rw [ht]; rfl) (fun q n hx => ?_) (fun b n hx => by cases hx)
    fun b hb hcount => ?_
  · obtain ⟨rfl, rfl⟩ := Access.incWrite.inj hx
    rfl
  · have hreads : (fun u => ((r.go t (.incWrite p (r.mem.heap.header p))).access u).read b) = (r.counter b).reads :=
      funext fun u => forall_go (P := fun u x => x.read b = (r.access u).read b) (by rw [ht]; rfl) (fun _ _ => rfl) u
    rw [hreads]
    exact hcount

omit [DecidableEq ι] [Fintype ι] in
theorem setCount_header : (r.setCount a n).mem.heap.header b = if b = a then n else r.mem.heap.header b :=
  Function.update_apply ..

omit [DecidableEq ι] [Fintype ι] in
theorem Shape.setCount (h : r.Shape) (ha : a ∈ r.live) (n : ℕ) : (r.setCount a n).Shape := by
  obtain ⟨⟨free, B⟩, howned, hzero, hparent, hranked, hmade⟩ := h
  exact ⟨⟨free, B.keep ha⟩, howned, hzero, hparent, hranked, hmade⟩

/-- `t` writes the count of the parent of its new node. -/
theorem Inv.incWrite (h : r.Inv) (ht : r.access t = .incWrite p n) : ((r.setCount p (n + 1)).go t .idle).Inv := by
  have hpos : 0 < (r.access t).incs p := by simp [ht, Access.incs]
  obtain ⟨howned, hholder⟩ := h.use.inc t p hpos
  have hlive := h.shape.owned_subset howned
  have hn := h.use.incWrite t p n ht
  have hone : ∀ u, u ≠ t → (r.access u).incs p = 0 := fun u hu => by
    by_contra hne
    exact hu ((h.use.inc u p (Nat.pos_of_ne_zero hne)).2.symm.trans hholder)
  have hdrops : ∀ u b, (((r.setCount p (n + 1)).go t .idle).access u).drops b = (r.access u).drops b := fun u b =>
    forall_go (P := fun u x => x.drops b = (r.access u).drops b) (by rw [ht]; rfl) (fun _ _ => rfl) u
  have hread : ∀ u b, (((r.setCount p (n + 1)).go t .idle).access u).read b = (r.access u).read b := fun u b =>
    forall_go (P := fun u x => x.read b = (r.access u).read b) (by rw [ht]; rfl) (fun _ _ => rfl) u
  have hheader : ∀ b, ((r.setCount p (n + 1)).go t .idle).mem.heap.header b =
      if b = p then n + 1 else r.mem.heap.header b := fun b => setCount_header
  have hrefs : ∀ b, ((r.setCount p (n + 1)).go t .idle).refs b = r.refs b := fun b => by
    have hgo := refs_go (r.setCount p (n + 1)) t .idle b
    have heq : ((r.setCount p (n + 1)).access t).drops b = 0 := by
      show (r.access t).drops b = 0
      rw [ht]
      rfl
    rw [heq, Access.drops_idle, add_zero, add_zero] at hgo
    exact hgo
  have hcounter : ∀ b, ((r.setCount p (n + 1)).go t .idle).counter b = r.counter b := fun b => by
    refine counter_congr ?_ (hrefs b) (fun u => hread u b) Iff.rfl
    have hgo := incs_go (r.setCount p (n + 1)) t .idle b
    have heq : ((r.setCount p (n + 1)).access t).incs b = if p = b then 1 else 0 := by
      show (r.access t).incs b = if p = b then 1 else 0
      rw [ht]
      rfl
    have hold : ∑ u, ((r.setCount p (n + 1)).access u).incs b = ∑ u, (r.access u).incs b := rfl
    rw [heq, Access.incs_idle, add_zero, hold] at hgo
    rw [hheader]
    by_cases hb : b = p
    · subst hb
      rw [if_pos rfl] at hgo
      rw [if_pos rfl]
      omega
    · rw [if_neg (Ne.symm hb)] at hgo
      rw [if_neg hb]
      omega
  have hshape := h.shape.setCount hlive (n + 1)
  refine ⟨⟨hshape.1, hshape.2, hshape.3, hshape.4, hshape.5, hshape.6⟩, ⟨?_, ?_, ?_, ?_, h.use.leaf, ?_⟩, ?_⟩
  · exact fun u q => forall_go (P := fun u x => 0 < x.incs q → r.Holds u q) (fun hx => absurd hx (lt_irrefl _))
      (fun u _ => h.use.inc u q) u
  · refine fun u q m => forall_go (P := fun u x => x = .incWrite q m → m = _) (fun hx => by cases hx)
      (fun u hu hx => ?_) u
    have hq : q ≠ p := by
      rintro rfl
      have hzero := hone u hu
      rw [show r.access u = .incWrite q m from hx] at hzero
      simp [Access.incs] at hzero
    rw [hheader, if_neg hq]
    exact h.use.incWrite u q m hx
  · exact fun u b hb => h.use.dec u b (hdrops u b ▸ hb)
  · intro c hc hp
    rw [hdrops]
    exact h.use.child c hc hp
  · refine fun b hb hp => ⟨(h.use.fresh b hb hp).1, fun u m => ?_⟩
    refine forall_go (P := fun u x => x = .decWrite b m → m = _) (fun hx => by cases hx) (fun u _ hx => ?_) u
    have hbp : b ≠ p := by
      rintro rfl
      have hzero := h.use.drops_of_inc hpos u
      rw [show r.access u = .decWrite b m from hx] at hzero
      simp [Access.drops] at hzero
    rw [hheader, if_neg hbp]
    exact (h.use.fresh b hb hp).2 u m hx
  · exact ⟨fun b hb => hcounter b ▸ h.counted.counter b hb, fun b hb hr => hrefs b ▸ h.counted.needed b hb hr,
      h.counted.raced_subset⟩

omit [DecidableEq ι] in
/-- A node that nobody has branched on changes hands. -/
theorem Inv.hand (h : r.Inv) (hi : r.Idle t) (ha : r.Holds t a) (hp : r.mem.parent a ∉ r.owned)
    (hc : ∀ c ∈ r.live, r.mem.parent c ≠ a) (u : ι) : (r.hand a u).Inv := by
  have hother : ∀ b, b ≠ a → Function.update r.holder a u b = r.holder b := fun b hb => Function.update_of_ne hb ..
  have hfree := h.use.drops_of_holds hi ha
  refine ⟨⟨h.shape.1, h.shape.2, h.shape.3, h.shape.4, h.shape.5, h.shape.6⟩,
    ⟨fun v q hq => ?_, h.use.incWrite, fun v b hb => ?_, fun c hcl hpo => ?_, h.use.leaf, h.use.fresh⟩,
    ⟨h.counted.1, h.counted.2, h.counted.3⟩⟩
  · obtain ⟨hq', hv⟩ := h.use.inc v q hq
    have hqa : q ≠ a := by
      rintro rfl
      obtain rfl : v = t := hv.symm.trans ha.2
      have hzero : (r.access v).incs q = 0 := by rw [show r.access v = .idle from hi, Access.incs_idle]
      exact hq.ne' hzero
    exact ⟨hq', (hother q hqa).trans hv⟩
  · obtain ⟨hbl, hown, hpar⟩ := h.use.dec v b hb
    have hba : b ≠ a := by
      rintro rfl
      exact hb.ne' (hfree v)
    exact ⟨hbl, fun hmem => ⟨(hother b hba).trans (hown hmem).1, (hown hmem).2⟩,
      fun hmem => (hother _ (hc b hbl)).trans (hpar hmem)⟩
  · have hca : c ≠ a := by
      rintro rfl
      exact hp hpo
    have hpc : Function.update r.holder a u (r.mem.parent c) = r.holder (r.mem.parent c) := hother _ (hc c hcl)
    show (c ∈ r.owned ∧ Function.update r.holder a u c = Function.update r.holder a u (r.mem.parent c)) ∨
      0 < (r.access (Function.update r.holder a u (r.mem.parent c))).drops c
    rw [hpc, hother c hca]
    exact h.use.child c hcl hpo

omit [DecidableEq ι] in
/-- The holder of a node fills in its data. -/
theorem Inv.write [SetData D] (h : r.Inv) (a : ℕ) (d : D) : Inv { r with toMTRun := r.toMTRun.write a d } := by
  obtain ⟨⟨⟨free, B⟩, howned, hzero, hparent, hranked, hmade⟩, ⟨h1, h2, h3, h4, h5, h6⟩, ⟨h7, h8, h9⟩⟩ := h
  refine ⟨⟨⟨free, { B with }⟩, howned, hzero, hparent, hranked, fun b hb => ?_⟩, ⟨h1, h2, h3, h4, h5, h6⟩,
    ⟨h7, h8, h9⟩⟩
  by_cases hba : b = a
  · subst hba
    simp only [MTRun.write, Function.update_self, ← hmade b hb]
  · simp only [MTRun.write, Function.update_of_ne hba]
    exact hmade b hb

/-! ### Counting down -/

theorem refs_eq (ht : 0 < (r.access t).drops a) : 0 < r.refs a ∧ (r.refs a = 1 →
    a ∉ r.owned ∧ (∀ c ∈ r.live, r.mem.parent c ≠ a) ∧ ∀ u, u ≠ t → (r.access u).drops a = 0) := by
  have hsum := Finset.add_sum_erase Finset.univ (fun u => (r.access u).drops a) (Finset.mem_univ t)
  simp only [refs, ← hsum] at *
  refine ⟨by omega, fun hone => ?_⟩
  have hzero : ¬ 0 < refCount r.mem.parent r.live r.owned a := by omega
  obtain ⟨hchild, howned⟩ := not_or.mp (mt refCount_pos_iff.mpr hzero)
  refine ⟨howned, fun c hc hp => hchild ⟨c, hc, hp⟩, fun u hu => ?_⟩
  have hrest : ∑ u ∈ Finset.univ.erase t, (r.access u).drops a = 0 := by omega
  exact Finset.sum_eq_zero_iff.mp hrest u (Finset.mem_erase.mpr ⟨hu, Finset.mem_univ u⟩)

omit [DecidableEq ι] in
/-- A node below an owned one is dropped by its last reference. -/
theorem Inv.refs_eq_one (h : r.Inv) (ht : r.access t = .decWrite a n) (hp : r.mem.parent a ∈ r.owned) :
    r.refs a = 1 := by
  have hpos : 0 < (r.access t).drops a := by simp [ht, Access.drops]
  obtain ⟨hlive, hown, hpar⟩ := h.use.dec t a hpos
  have hcount : ¬ 0 < refCount r.mem.parent r.live r.owned a := by
    rw [refCount_pos_iff]
    rintro (⟨c, hc, rfl⟩ | hmem)
    · exact h.use.leaf c hc (fun h0 => h.shape.ne_zero (h0 ▸ hlive)) hp
    · exact (hown hmem).2 hp
  have hsum : ∑ u, (r.access u).drops a = (r.access t).drops a := by
    refine Finset.sum_eq_single t (fun u _ hu => ?_) fun hmem => absurd (Finset.mem_univ t) hmem
    by_contra hne
    exact hu (((h.use.dec u a (Nat.pos_of_ne_zero hne)).2.2 hp).symm.trans (hpar hp))
  rw [refs, hsum, ht]
  simp only [Access.drops, if_pos]
  omega

/-- What the write of `dec_refs` by `t` does, the last one of `a` or not, when `t` goes on with `x`. -/
structure Dropped (r r' : MTCounts ι D) (t : ι) (a : ℕ) (x : Access) : Prop where
  incs_next : ∀ b, x.incs b = 0
  read_next : ∀ b, x.read b = none
  access : r'.access = Function.update r.access t x
  blocks : ∃ free, SharedBlocks r'.mem r'.tree r'.live free
  header : ∀ b, b ≠ a → r'.mem.heap.header b = r.mem.heap.header b
  parent : r'.mem.parent = r.mem.parent
  data : ∀ b ∈ r'.live, r'.mem.data b = r.mem.data b
  made : r'.made = r.made
  owned : r'.owned = r.owned
  holder : r'.holder = r.holder
  raced : ∀ b, b ≠ a → (b ∈ r'.raced ↔ b ∈ r.raced)

/-- The count of `a` stays above zero. -/
structure Lowered (r r' : MTCounts ι D) (t : ι) (a n : ℕ) : Prop extends Dropped r r' t a .idle where
  live : r'.live = r.live
  header_self : r'.mem.heap.header a = n - 1
  raced_self : a ∈ r'.raced ↔ a ∈ r.raced ∨ n ≠ r.mem.heap.header a

/-- The node is destroyed, and its parent is next. -/
structure Destroyed (r r' : MTCounts ι D) (t : ι) (a : ℕ) : Prop
    extends Dropped r r' t a (if r.mem.parent a = 0 then .idle else .decRead (r.mem.parent a)) where
  live : r'.live = r.live.erase a

namespace Dropped

section

omit [Fintype ι]

theorem forall_access {P : ι → Access → Prop} (W : r.Dropped r' t a x) (hx : P t x)
    (h : ∀ u, u ≠ t → P u (r.access u)) (u : ι) : P u (r'.access u) := by
  rw [W.access]
  exact forall_go hx h u

theorem read_of_ne (W : r.Dropped r' t a x) (ht : r.access t = .decWrite a n) (hb : b ≠ a) (u : ι) :
    (r'.access u).read b = (r.access u).read b :=
  W.forall_access (P := fun u x => x.read b = (r.access u).read b)
    (by rw [W.read_next, ht]; simp [Access.read, Ne.symm hb]) (fun _ _ => rfl) u

theorem holds_iff (W : r.Dropped r' t a x) : r'.Holds u b ↔ r.Holds u b := by
  unfold Holds
  rw [W.owned, W.holder]

theorem inc (W : r.Dropped r' t a x) (h : r.Use) (u : ι) (p : ℕ) : 0 < (r'.access u).incs p → r'.Holds u p := by
  rw [W.holds_iff]
  exact W.forall_access (P := fun u x => 0 < x.incs p → r.Holds u p) (by simp [W.incs_next]) (fun u _ => h.inc u p) u

theorem incWrite (W : r.Dropped r' t a x) (h : r.Use) (ht : r.access t = .decWrite a n) (u : ι) (p m : ℕ) :
    r'.access u = .incWrite p m → m = r'.mem.heap.header p := by
  refine W.forall_access (P := fun _ x => x = .incWrite p m → m = r'.mem.heap.header p) (fun hx => ?_)
    (fun u _ hx => ?_) u
  · have hzero := W.incs_next p
    simp [hx, Access.incs] at hzero
  · have hinc : 0 < (r.access u).incs p := by simp [show r.access u = .incWrite p m from hx, Access.incs]
    have hpa : p ≠ a := by
      rintro rfl
      have hzero := h.drops_of_inc hinc t
      simp [ht, Access.drops] at hzero
    rw [W.header p hpa]
    exact h.incWrite u p m hx

theorem decWrite (W : r.Dropped r' t a x) (hb : b ≠ a) {m : ℕ}
    (h : ∀ u, r.access u = .decWrite b m → m = r.mem.heap.header b) (u : ι) :
    r'.access u = .decWrite b m → m = r'.mem.heap.header b := by
  rw [W.header b hb]
  refine W.forall_access (P := fun _ x => x = .decWrite b m → m = r.mem.heap.header b) (fun hx => ?_)
    (fun u _ => h u) u
  have hnone := W.read_next b
  simp [hx, Access.read] at hnone

end

theorem incs (W : r.Dropped r' t a x) (ht : r.access t = .decWrite a n) (b : ℕ) :
    ∑ u, (r'.access u).incs b = ∑ u, (r.access u).incs b := by
  have hsum := sum_update_add r.access (fun y => y.incs b) t x
  have hzero : (r.access t).incs b = 0 := by simp [ht, Access.incs]
  rw [hzero, W.incs_next, ← W.access] at hsum
  exact hsum

theorem drops (W : r.Dropped r' t a x) (ht : r.access t = .decWrite a n) (b : ℕ) :
    ∑ u, (r'.access u).drops b + (if b = a then 1 else 0) = ∑ u, (r.access u).drops b + x.drops b := by
  have hsum := sum_update_add r.access (fun y => y.drops b) t x
  have hself : (r.access t).drops b = if b = a then 1 else 0 := by
    rw [ht]
    simp only [Access.drops, eq_comm]
  rw [hself, ← W.access] at hsum
  exact hsum

/-- Of another count nothing changes, as long as its references do not. -/
theorem counter_of_ne (W : r.Dropped r' t a x) (ht : r.access t = .decWrite a n) (hb : b ≠ a)
    (hrefs : r'.refs b = r.refs b) : r'.counter b = r.counter b :=
  counter_congr (by rw [W.incs ht, W.header b hb]) hrefs (W.read_of_ne ht hb) (W.raced b hb)

end Dropped

namespace Lowered

section

omit [Fintype ι]

theorem shape (W : r.Lowered r' t a n) (h : r.Shape) : r'.Shape := by
  obtain ⟨_, howned, hzero, hparent, hranked, hmade⟩ := h
  refine ⟨W.blocks, ?_, ?_, ?_, ?_, fun b hb => ?_⟩
  · rwa [W.owned, W.live]
  · rwa [W.live]
  · rwa [W.live, W.parent]
  · rwa [W.live, W.parent]
  · rw [W.data b hb, W.parent, W.made]
    exact hmade b (W.live ▸ hb)

theorem use (W : r.Lowered r' t a n) (h : r.Use) (ht : r.access t = .decWrite a n)
    (hparent : r.mem.parent a ∉ r.owned) : r'.Use := by
  have hne : ∀ {b}, r.mem.parent b ∈ r.owned → b ≠ a := fun hb hba => hparent (hba ▸ hb)
  refine ⟨W.inc h, W.incWrite h ht, fun u b => ?_, fun c hc hp => ?_, ?_, fun b hb hp => ?_⟩
  · rw [W.live, W.owned, W.holder, W.parent]
    exact W.forall_access (P := fun u x => 0 < x.drops b → b ∈ r.live ∧ (b ∈ r.owned → r.holder b = u ∧
      r.mem.parent b ∉ r.owned) ∧ (r.mem.parent b ∈ r.owned → r.holder (r.mem.parent b) = u)) (by simp)
      (fun u _ => h.dec u b) u
  · rw [W.parent, W.owned] at hp
    rw [W.live] at hc
    rw [W.parent, W.holder, W.holds_iff]
    refine (h.child c hc hp).imp_right fun hd => ?_
    refine W.forall_access (P := fun u x => 0 < (r.access u).drops c → 0 < x.drops c) (fun hx => ?_)
      (fun _ _ hx => hx) _ hd
    simp [ht, Access.drops, Ne.symm (hne hp)] at hx
  · rw [W.live, W.parent, W.owned]
    exact h.leaf
  · rw [W.parent, W.owned] at hp
    obtain ⟨hrb, hall⟩ := h.fresh b (W.live ▸ hb) hp
    exact ⟨fun hmem => hrb ((W.raced b (hne hp)).mp hmem), fun u m => W.decWrite (hne hp) (fun u => hall u m) u⟩

end

theorem refs (W : r.Lowered r' t a n) (ht : r.access t = .decWrite a n) (b : ℕ) :
    r'.refs b + (if b = a then 1 else 0) = r.refs b := by
  have hdrops := W.drops ht b
  rw [Access.drops_idle, add_zero] at hdrops
  rw [MTCounts.refs, W.parent, W.live, W.owned, add_assoc, hdrops, MTCounts.refs]

theorem refs_of_ne (W : r.Lowered r' t a n) (ht : r.access t = .decWrite a n) (hb : b ≠ a) :
    r'.refs b = r.refs b := by
  have hrefs := W.refs ht b
  rwa [if_neg hb, add_zero] at hrefs

/-- The count has been written, which may come after a write that has not been seen. -/
theorem counter_self (W : r.Lowered r' t a n) (h : r.Use) (ht : r.access t = .decWrite a n) :
    r'.counter a = (r.counter a).write t n := by
  have hrefs := W.refs ht a
  have hincs := h.incs_of_dec (t := t) (a := a) (by simp [ht, Access.drops])
  rw [if_pos rfl] at hrefs
  simp only [counter, Counter.write, Counter.mk.injEq]
  refine ⟨?_, by omega, funext fun u => ?_, ?_⟩
  · rw [W.incs ht, hincs, add_zero, W.header_self]
  · exact W.forall_access (P := fun u x => x.read a = Function.update (fun u => (r.access u).read a) t none u)
      (by simp) (fun u hu => by rw [Function.update_of_ne hu]) u
  · rw [hincs, add_zero]
    exact propext W.raced_self

theorem counted (W : r.Lowered r' t a n) (h : r.Inv) (ht : r.access t = .decWrite a n) (hn : n - 1 ≠ 0)
    (ha : a ∈ r.live) : r'.Counted := by
  have hpos : 0 < (r.access t).drops a := by simp [ht, Access.drops]
  have hread : (r.counter a).reads t = some n := by simp [counter, ht, Access.read]
  have hwritten := (h.counted.counter a ha).write hread (refs_eq hpos).1
  rw [← W.counter_self h.use ht] at hwritten
  refine ⟨fun b hb => ?_, fun b hb hr => ?_, fun b hb => ?_⟩
  · by_cases hba : b = a
    · exact hba ▸ hwritten
    · rw [W.counter_of_ne ht hba (W.refs_of_ne ht hba)]
      exact h.counted.counter b (W.live ▸ hb)
  · by_cases hba : b = a
    · subst hba
      have hrefs : (r'.counter b).value = r'.refs b := hwritten.fair hr
      have hvalue : (r'.counter b).value = n - 1 := by rw [W.counter_self h.use ht]; rfl
      rw [← hrefs, hvalue]
      exact Nat.pos_of_ne_zero hn
    · rw [W.refs_of_ne ht hba]
      exact h.counted.needed b (W.live ▸ hb) fun hmem => hr ((W.raced b hba).mpr hmem)
  · rw [W.live]
    by_cases hba : b = a
    · exact hba ▸ ha
    · exact h.counted.raced_subset ((W.raced b hba).mp hb)

end Lowered

namespace Destroyed

section

omit [Fintype ι]

theorem mem_live (W : r.Destroyed r' t a) : b ∈ r'.live ↔ b ≠ a ∧ b ∈ r.live := by
  rw [W.live]
  exact Finset.mem_erase

theorem shape (W : r.Destroyed r' t a) (h : r.Shape) (ha : a ∉ r.owned) (hchild : ∀ c ∈ r.live, r.mem.parent c ≠ a) :
    r'.Shape := by
  obtain ⟨_, howned, hzero, hparent, ⟨rank, hrank⟩, hmade⟩ := h
  have hmem : ∀ {b}, b ∈ r'.live → b ∈ r.live := fun hb => (W.mem_live.mp hb).2
  refine ⟨W.blocks, fun b hb => ?_, fun h0 => hzero (hmem h0), fun b hb h0 => ?_, ⟨rank, fun b hb => ?_⟩,
    fun b hb => ?_⟩
  · have hb := W.owned ▸ hb
    exact W.mem_live.mpr ⟨ne_of_mem_of_not_mem hb ha, howned hb⟩
  · rw [W.parent] at h0 ⊢
    exact W.mem_live.mpr ⟨hchild b (hmem hb), hparent b (hmem hb) h0⟩
  · rw [W.parent]
    exact hrank b (hmem hb)
  · rw [W.data b hb, W.parent, W.made]
    exact hmade b (hmem hb)

/-- Nobody else is at the count, and `t` goes on to the parent. -/
theorem use (W : r.Destroyed r' t a) (h : r.Use) (hshape : r.Shape) (ht : r.access t = .decWrite a n)
    (hchild : ∀ c ∈ r.live, r.mem.parent c ≠ a) (halone : ∀ u, u ≠ t → (r.access u).drops a = 0) : r'.Use := by
  obtain ⟨ha, _, hparent⟩ := h.dec t a (by simp [ht, Access.drops])
  refine ⟨W.inc h, W.incWrite h ht, fun u b => ?_, fun c hc hp => ?_, fun c hc => ?_, fun b hb hp => ?_⟩
  · rw [W.mem_live, W.owned, W.holder, W.parent]
    refine W.forall_access (P := fun u x => 0 < x.drops b → (b ≠ a ∧ b ∈ r.live) ∧ (b ∈ r.owned → r.holder b = u ∧
      r.mem.parent b ∉ r.owned) ∧ (r.mem.parent b ∈ r.owned → r.holder (r.mem.parent b) = u))
      (fun hx => ?_) (fun u hu hx => ?_) u
    · split at hx
      · exact absurd hx (lt_irrefl 0)
      · next h0 =>
        obtain rfl : r.mem.parent a = b := by
          obtain hx | ⟨m, hx⟩ := Access.drops_pos hx
          · exact Access.decRead.inj hx
          · cases hx
        have hleaf := h.leaf a ha h0
        exact ⟨⟨hchild a ha, hshape.parent_mem a ha h0⟩, fun hmem => ⟨hparent hmem, hleaf⟩,
          fun hmem => absurd hmem hleaf⟩
    · obtain ⟨hbl, hrest⟩ := h.dec u b hx
      refine ⟨⟨?_, hbl⟩, hrest⟩
      rintro rfl
      exact hx.ne' (halone u hu)
  · obtain ⟨hca, hcl⟩ := W.mem_live.mp hc
    rw [W.parent, W.owned] at hp
    rw [W.parent, W.holder, W.holds_iff]
    refine (h.child c hcl hp).imp_right fun hd => ?_
    refine W.forall_access (P := fun u x => 0 < (r.access u).drops c → 0 < x.drops c) (fun hx => ?_)
      (fun _ _ hx => hx) _ hd
    simp [ht, Access.drops, Ne.symm hca] at hx
  · rw [W.parent, W.owned]
    exact h.leaf c (W.mem_live.mp hc).2
  · obtain ⟨hba, hbl⟩ := W.mem_live.mp hb
    rw [W.parent, W.owned] at hp
    obtain ⟨hrb, hall⟩ := h.fresh b hbl hp
    exact ⟨fun hmem => hrb ((W.raced b hba).mp hmem), fun u m => W.decWrite hba (fun u => hall u m) u⟩

end

/-- The reference that the node held to its parent is being dropped. -/
theorem refs (W : r.Destroyed r' t a) (h : r.Shape) (ht : r.access t = .decWrite a n) (ha : a ∈ r.live)
    (hb : b ∈ r'.live) : r'.refs b = r.refs b := by
  obtain ⟨hba, hbl⟩ := W.mem_live.mp hb
  have hb0 : b ≠ 0 := fun hb0 => h.ne_zero (hb0 ▸ hbl)
  have hdrops := W.drops ht b
  have hnext : (if r.mem.parent a = 0 then Access.idle else .decRead (r.mem.parent a)).drops b =
      if b = r.mem.parent a then 1 else 0 := by
    split
    · next h0 => rw [h0, if_neg hb0, Access.drops_idle]
    · simp only [Access.drops, eq_comm]
  have hcount : refCount r.mem.parent r.live r.owned b = _ := refCount_erase_live ha
  rw [if_neg hba, add_zero, hnext] at hdrops
  rw [MTCounts.refs, W.parent, W.live, W.owned, hdrops, MTCounts.refs, hcount]
  omega

theorem counted (W : r.Destroyed r' t a) (h : r.Inv) (ht : r.access t = .decWrite a n) (ha : a ∈ r.live)
    (hraced : r'.raced = r.raced) (hnr : a ∉ r.raced) : r'.Counted := by
  refine ⟨fun b hb => ?_, fun b hb => ?_, fun b hb => ?_⟩
  · obtain ⟨hba, hbl⟩ := W.mem_live.mp hb
    rw [W.counter_of_ne ht hba (W.refs h.shape ht ha hb)]
    exact h.counted.counter b hbl
  · rw [W.refs h.shape ht ha hb, hraced]
    exact h.counted.needed b (W.mem_live.mp hb).2
  · rw [hraced] at hb
    exact W.mem_live.mpr ⟨ne_of_mem_of_not_mem hb hnr, h.counted.raced_subset hb⟩

end Destroyed

/-! ### Creating -/

variable [SetData D]

omit [Fintype ι] in
/-- `create_node` without a parent. -/
theorem exists_created {m : Memory D} {s : MTSearchTree ι} {live : Finset ℕ} {free : ι → List ℕ}
    (B : SharedBlocks m s live free) (t : ι) : ∃ a m' s' free', s.createNode t m 0 = (a, m', s') ∧ a ∉ live ∧
      a ≠ 0 ∧ m'.heap.header a = 1 ∧ (∀ b ∈ live, m'.heap.header b = m.heap.header b) ∧
      m'.parent = Function.update m.parent a 0 ∧ m'.data = Function.update m.data a default ∧
      SharedBlocks m' s' (insert a live) free' := by
  obtain ⟨htree, ht, hmap, B⟩ := B.threadLocalTree t
  obtain ⟨free', S, hna, ha0, B'⟩ := B.create ht (.inl rfl : (0 : ℕ) = 0 ∨ 0 ∈ live)
  refine ⟨(s.createNode t m 0).1, (s.createNode t m 0).2.1, (s.createNode t m 0).2.2, Function.update free t free',
    rfl, ?_⟩
  simp only [MTSearchTree.createNode, htree]
  rw [hmap] at *
  refine ⟨hna, ha0, ?_, fun b hb => ?_, rfl, rfl, B'⟩
  · rw [SearchTree.createNode_header, S.header_self, if_neg (by simp)]
  · exact SearchTree.createNode_header_of_ne S (B.lt_brk hb) (ne_of_mem_of_not_mem hb hna) (.inr rfl)

/-- What `create_node` of `t` below `p` makes of the trees; `a` is the new node. -/
structure Made (r r' : MTCounts ι D) (t : ι) (p a : ℕ) : Prop where
  notMem : a ∉ r.live
  ne_zero : a ≠ 0
  blocks : ∃ free, SharedBlocks r'.mem r'.tree r'.live free
  header_self : r'.mem.heap.header a = 1
  header : ∀ b ∈ r.live, r'.mem.heap.header b = r.mem.heap.header b
  parent : r'.mem.parent = Function.update r.mem.parent a p
  data : r'.mem.data = Function.update r.mem.data a default
  live : r'.live = insert a r.live
  owned : r'.owned = insert a r.owned
  made : r'.made = Function.update r.made a (p, default)
  holder : r'.holder = Function.update r.holder a t
  access : r'.access = Function.update r.access t (if p = 0 then .idle else .incRead p)
  raced : r'.raced = r.raced

omit [Fintype ι] in
theorem exists_made (h : r.Shape) (t : ι) (p : ℕ) : ∃ a, r.Made (r.create t p) t p a := by
  obtain ⟨free, B⟩ := h.blocks
  obtain ⟨a, m, s, free', heq, hna, ha0, hself, hheader, hparent, hdata, B'⟩ := exists_created B t
  have hr : r.create t p = { r with
      tree := s
      mem := { m with parent := Function.update r.mem.parent a p }
      live := insert a r.live
      owned := insert a r.owned
      made := Function.update r.made a (p, default)
      holder := Function.update r.holder a t
      access := Function.update r.access t (if p = 0 then .idle else .incRead p) } := by
    rw [MTCounts.create, heq]
    simp only [hparent, Function.update_idem]
  rw [hr]
  exact ⟨a, hna, ha0, ⟨free', { B' with }⟩, hself, hheader, rfl, hdata, rfl, rfl, rfl, rfl, rfl, rfl⟩

namespace Made

section

omit [Fintype ι]

theorem ne_of_mem (M : r.Made r' t p a) (hb : b ∈ r.live) : b ≠ a := ne_of_mem_of_not_mem hb M.notMem

theorem mem_live (M : r.Made r' t p a) : b ∈ r'.live ↔ b = a ∨ b ∈ r.live := by
  rw [M.live]
  exact Finset.mem_insert

theorem mem_owned (M : r.Made r' t p a) : b ∈ r'.owned ↔ b = a ∨ b ∈ r.owned := by
  rw [M.owned]
  exact Finset.mem_insert

theorem parent_self (M : r.Made r' t p a) : r'.mem.parent a = p := by
  rw [M.parent]
  exact Function.update_self ..

theorem parent_of_mem (M : r.Made r' t p a) (hb : b ∈ r.live) : r'.mem.parent b = r.mem.parent b := by
  rw [M.parent]
  exact Function.update_of_ne (M.ne_of_mem hb) ..

theorem holder_self (M : r.Made r' t p a) : r'.holder a = t := by
  rw [M.holder]
  exact Function.update_self ..

theorem holder_of_mem (M : r.Made r' t p a) (hb : b ∈ r.live) : r'.holder b = r.holder b := by
  rw [M.holder]
  exact Function.update_of_ne (M.ne_of_mem hb) ..

/-- What holds of the accesses: `t` is at the count of the parent, if there is one. -/
theorem forall_access {P : ι → Access → Prop} (M : r.Made r' t p a) (hidle : p = 0 → P t .idle)
    (hinc : p ≠ 0 → P t (.incRead p)) (h : ∀ u, u ≠ t → P u (r.access u)) (u : ι) : P u (r'.access u) := by
  rw [M.access]
  refine forall_go ?_ h u
  split
  · next h0 => exact hidle h0
  · next h0 => exact hinc h0

theorem drops (M : r.Made r' t p a) (hi : r.Idle t) (u : ι) (b : ℕ) :
    (r'.access u).drops b = (r.access u).drops b := by
  have hidle : r.access t = .idle := hi
  exact M.forall_access (P := fun u x => x.drops b = (r.access u).drops b) (fun _ => hidle ▸ rfl)
    (fun _ => hidle ▸ rfl) (fun _ _ => rfl) u

theorem read (M : r.Made r' t p a) (hi : r.Idle t) (u : ι) (b : ℕ) :
    (r'.access u).read b = (r.access u).read b := by
  have hidle : r.access t = .idle := hi
  exact M.forall_access (P := fun u x => x.read b = (r.access u).read b) (fun _ => hidle ▸ rfl) (fun _ => hidle ▸ rfl)
    (fun _ _ => rfl) u

/-- No thread was at the count of the new node. -/
theorem drops_self (M : r.Made r' t p a) (h : r.Use) (u : ι) : (r.access u).drops a = 0 := by
  by_contra hpos
  exact M.notMem (h.dec u a (Nat.pos_of_ne_zero hpos)).1

theorem parent_ne (M : r.Made r' t p a) (h : r.Shape) : ∀ c ∈ r.live, r.mem.parent c ≠ a :=
  fun c hc hca => M.notMem (hca ▸ h.parent_mem c hc (hca ▸ M.ne_zero))

theorem shape (M : r.Made r' t p a) (h : r.Shape) (hp : p = 0 ∨ p ∈ r.live) : r'.Shape := by
  obtain ⟨rank, hrank⟩ := h.ranked
  refine ⟨M.blocks, ?_, ?_, ?_, ⟨Function.update rank a (rank p + 1), ?_⟩, ?_⟩
  · rw [M.owned, M.live]
    exact Finset.insert_subset_insert _ h.owned_subset
  · exact fun h0 => (M.mem_live.mp h0).elim (fun heq => M.ne_zero heq.symm) h.ne_zero
  · intro b hb h0
    rcases M.mem_live.mp hb with rfl | hb
    · rw [M.parent_self] at h0 ⊢
      exact M.mem_live.mpr (.inr (hp.resolve_left h0))
    · rw [M.parent_of_mem hb] at h0 ⊢
      exact M.mem_live.mpr (.inr (h.parent_mem b hb h0))
  · intro b hb h0
    rcases M.mem_live.mp hb with rfl | hb
    · rw [M.parent_self] at h0 ⊢
      rw [Function.update_self, Function.update_of_ne (M.ne_of_mem (hp.resolve_left h0))]
      exact Nat.lt_succ_self _
    · rw [M.parent_of_mem hb] at h0 ⊢
      rw [Function.update_of_ne (M.parent_ne h b hb), Function.update_of_ne (M.ne_of_mem hb)]
      exact hrank b hb h0
  · intro b hb
    rcases M.mem_live.mp hb with rfl | hb
    · rw [M.parent_self, M.data, M.made, Function.update_self, Function.update_self]
    · rw [M.parent_of_mem hb, M.data, M.made, Function.update_of_ne (M.ne_of_mem hb),
        Function.update_of_ne (M.ne_of_mem hb)]
      exact h.made_eq b hb

end

theorem incs (M : r.Made r' t p a) (h : r.Shape) (hi : r.Idle t) (hb : b ∈ r.live) :
    ∑ u, (r'.access u).incs b = ∑ u, (r.access u).incs b + if b = p then 1 else 0 := by
  have hgo := incs_go r t (if p = 0 then .idle else .incRead p) b
  have hidle : r.access t = .idle := hi
  rw [hidle, Access.incs_idle, add_zero] at hgo
  have hsame : r'.access = (r.go t (if p = 0 then .idle else .incRead p)).access := M.access
  rw [hsame, hgo]
  by_cases hp0 : p = 0
  · have hbp : b ≠ p := fun hbp => h.ne_zero (hp0 ▸ hbp ▸ hb)
    rw [if_pos hp0, if_neg hbp, Access.incs_idle]
  · rw [if_neg hp0]
    simp only [Access.incs, eq_comm]

theorem incs_self (M : r.Made r' t p a) (h : r.Inv) (hpa : p ≠ a) : ∑ u, (r'.access u).incs a = 0 := by
  refine Finset.sum_eq_zero fun u _ => ?_
  refine M.forall_access (P := fun _ x => x.incs a = 0) (fun _ => rfl) (fun _ => if_neg hpa) (fun u _ => ?_) u
  by_contra hpos
  exact M.notMem (h.shape.owned_subset (h.use.inc u a (Nat.pos_of_ne_zero hpos)).1)

theorem refs (M : r.Made r' t p a) (h : r.Inv) (hi : r.Idle t) (hpa : p ≠ a) (b : ℕ) :
    r'.refs b = if b = a then 1 else r.refs b + if b = p then 1 else 0 := by
  have hcount := refCount_insert (b := b) M.notMem (fun hmem => M.notMem (h.shape.owned_subset hmem))
    (M.parent_ne h.shape) hpa
  have hsum : ∑ u, (r'.access u).drops b = ∑ u, (r.access u).drops b :=
    Finset.sum_congr rfl fun u _ => M.drops hi u b
  rw [MTCounts.refs, hsum, M.parent, M.live, M.owned, hcount]
  by_cases hb : b = a
  · rw [if_pos hb, if_pos hb, hb, Finset.sum_eq_zero fun u _ => M.drops_self h.use u, add_zero]
  · rw [if_neg hb, if_neg hb, MTCounts.refs]
    exact Nat.add_right_comm ..

/-- The thread that makes the node holds its parent, which has no owned node above it. -/
theorem use (M : r.Made r' t p a) (h : r.Inv) (hi : r.Idle t)
    (hp : p = 0 ∨ r.Holds t p ∧ r.mem.parent p ∉ r.owned) : r'.Use := by
  have hmem : ∀ {b}, b ∈ r.owned → b ∈ r.live := fun hb => h.shape.owned_subset hb
  have hchild := M.parent_ne h.shape
  constructor
  case inc =>
    refine fun u => M.forall_access (P := fun u x => ∀ q, 0 < x.incs q → r'.Holds u q) (by simp) (fun hp0 q hq => ?_)
      (fun u _ q hq => ?_) u
    · obtain rfl : p = q := by
        by_contra hpq
        simp [Access.incs, hpq] at hq
      obtain ⟨⟨hpo, hph⟩, _⟩ := hp.resolve_left hp0
      exact ⟨M.mem_owned.mpr (.inr hpo), (M.holder_of_mem (hmem hpo)).trans hph⟩
    · obtain ⟨hqo, hqh⟩ := h.use.inc u q hq
      exact ⟨M.mem_owned.mpr (.inr hqo), (M.holder_of_mem (hmem hqo)).trans hqh⟩
  case incWrite =>
    refine fun u => M.forall_access (P := fun _ x => ∀ q n, x = .incWrite q n → n = r'.mem.heap.header q) (by simp)
      (by simp) (fun u _ q n hx => ?_) u
    rw [M.header q (hmem (h.use.inc u q (by simp [hx, Access.incs])).1)]
    exact h.use.incWrite u q n hx
  case dec =>
    intro u b hb
    rw [M.drops hi] at hb
    obtain ⟨hbl, hown, hpar⟩ := h.use.dec u b hb
    rw [M.parent_of_mem hbl, M.holder_of_mem hbl, M.mem_owned, M.mem_owned, M.mem_live]
    refine ⟨.inr hbl, fun hbo => ?_, fun hbo => ?_⟩
    · obtain ⟨hh, hnp⟩ := hown (hbo.resolve_left (M.ne_of_mem hbl))
      exact ⟨hh, not_or.mpr ⟨hchild b hbl, hnp⟩⟩
    · have hbo := hbo.resolve_left (hchild b hbl)
      rw [M.holder_of_mem (hmem hbo)]
      exact hpar hbo
  case child =>
    intro c hc hpo
    rcases M.mem_live.mp hc with rfl | hc
    · rw [M.parent_self] at hpo ⊢
      have hpo := (M.mem_owned.mp hpo).resolve_left fun hpc => ?_
      · obtain ⟨⟨_, hph⟩, _⟩ := hp.resolve_left fun h0 => h.shape.ne_zero (h0 ▸ hmem hpo)
        exact .inl ⟨M.mem_owned.mpr (.inl rfl), M.holder_self.trans ((M.holder_of_mem (hmem hpo)).trans hph).symm⟩
      · exact M.ne_of_mem (hmem (hp.resolve_left (hpc ▸ M.ne_zero)).1.1) hpc
    · rw [M.parent_of_mem hc] at hpo ⊢
      have hpo := (M.mem_owned.mp hpo).resolve_left (hchild c hc)
      rw [M.holder_of_mem (hmem hpo), M.drops hi]
      refine (h.use.child c hc hpo).imp_left fun hheld => ?_
      exact ⟨M.mem_owned.mpr (.inr hheld.1), (M.holder_of_mem hc).trans hheld.2⟩
  case leaf =>
    intro c hc h0
    rcases M.mem_live.mp hc with rfl | hc
    · rw [M.parent_self] at h0 ⊢
      obtain ⟨hheld, hnp⟩ := hp.resolve_left h0
      rw [M.parent_of_mem (hmem hheld.1), M.mem_owned]
      exact not_or.mpr ⟨hchild p (hmem hheld.1), hnp⟩
    · rw [M.parent_of_mem hc] at h0 ⊢
      have hpl := h.shape.parent_mem c hc h0
      rw [M.parent_of_mem hpl, M.mem_owned]
      exact not_or.mpr ⟨hchild _ hpl, h.use.leaf c hc h0⟩
  case fresh =>
    intro b hb hpo
    rw [M.raced]
    rcases M.mem_live.mp hb with rfl | hb
    · refine ⟨fun hr => M.notMem (h.counted.raced_subset hr), fun u n hx => ?_⟩
      have hzero := (M.drops hi u b).trans (M.drops_self h.use u)
      simp [hx, Access.drops] at hzero
    · rw [M.parent_of_mem hb] at hpo
      obtain ⟨hrb, hall⟩ := h.use.fresh b hb ((M.mem_owned.mp hpo).resolve_left (hchild b hb))
      refine ⟨hrb, fun u n hx => ?_⟩
      rw [M.header b hb]
      have hread := M.read hi u b
      rw [hx] at hread
      exact hall u n (Access.read_eq (hread.symm.trans (by simp [Access.read])))

/-- The count of the new node is that of its owner. -/
theorem counter_self (M : r.Made r' t p a) (h : r.Inv) (hi : r.Idle t) (hpa : p ≠ a) : (r'.counter a).Inv := by
  have hvalue : (r'.counter a).value = 1 := by
    rw [counter, M.incs_self h hpa]
    exact M.header_self
  have hone : (r'.counter a).refs = 1 := by
    show r'.refs a = 1
    rw [M.refs h hi hpa, if_pos rfl]
  have hnone : ∀ u, (r'.counter a).reads u = none := fun u => by
    show (r'.access u).read a = none
    rw [M.read hi]
    by_contra hsome
    obtain ⟨n, hn⟩ := Option.ne_none_iff_exists'.mp hsome
    have hzero := M.drops_self h.use u
    rw [Access.read_eq hn] at hzero
    simp [Access.drops] at hzero
  have hfair : ¬ (r'.counter a).raced := fun hmem => M.notMem (h.counted.raced_subset (M.raced ▸ hmem))
  refine ⟨fun u n hn => ?_, fun u n hn => ?_, fun _ => hvalue.trans hone.symm, fun hmem => absurd hmem hfair⟩
  · rw [hnone] at hn
    cases hn
  · rw [hnone] at hn
    cases hn

/-- Of the other counts only that of the parent is higher. -/
theorem counter_of_mem (M : r.Made r' t p a) (h : r.Inv) (hi : r.Idle t) (hpa : p ≠ a) (hb : b ∈ r.live) :
    r'.counter b = { r.counter b with
      value := (r.counter b).value + if b = p then 1 else 0
      refs := (r.counter b).refs + if b = p then 1 else 0 } := by
  simp only [counter, Counter.mk.injEq]
  refine ⟨?_, ?_, funext fun u => M.read hi u b, by rw [M.raced]⟩
  · rw [M.incs h.shape hi hb, M.header b hb, add_assoc]
  · rw [M.refs h hi hpa, if_neg (M.ne_of_mem hb)]

theorem counted (M : r.Made r' t p a) (h : r.Inv) (hi : r.Idle t) (hpa : p ≠ a) (hp : p = 0 ∨ r.Holds t p) :
    r'.Counted := by
  refine ⟨fun b hb => ?_, fun b hb hr => ?_, ?_⟩
  · rcases M.mem_live.mp hb with rfl | hb
    · exact M.counter_self h hi hpa
    · have hcount := h.counted.counter b hb
      rw [M.counter_of_mem h hi hpa hb]
      by_cases hbp : b = p
      · subst hbp
        have hheld := hp.resolve_left fun h0 => h.shape.ne_zero (h0 ▸ hb)
        refine hcount.add (fun u => ?_) _
        by_contra hsome
        obtain ⟨n, hn⟩ := Option.ne_none_iff_exists'.mp hsome
        have hzero := h.use.drops_of_holds hi hheld u
        rw [Access.read_eq hn] at hzero
        simp [Access.drops] at hzero
      · simp only [if_neg hbp, add_zero]
        exact hcount
  · rw [M.refs h hi hpa]
    rcases M.mem_live.mp hb with rfl | hb
    · rw [if_pos rfl]
      exact Nat.one_pos
    · rw [if_neg (M.ne_of_mem hb)]
      exact Nat.add_pos_left (h.counted.needed b hb (M.raced ▸ hr)) _
  · rw [M.raced]
    exact fun b hb => M.mem_live.mpr (.inr (h.counted.raced_subset hb))

end Made

theorem Inv.create (h : r.Inv) (hi : r.Idle t) (hp : p = 0 ∨ r.Holds t p ∧ r.mem.parent p ∉ r.owned) :
    (r.create t p).Inv := by
  obtain ⟨a, M⟩ := exists_made h.shape t p
  have hlive : p = 0 ∨ p ∈ r.live := hp.imp_right fun hheld => h.shape.owned_subset hheld.1.1
  have hpa : p ≠ a := by
    rcases hlive with rfl | hmem
    exacts [M.ne_zero.symm, M.ne_of_mem hmem]
  exact ⟨M.shape h.shape hlive, M.use h hi hp, M.counted h hi hpa (hp.imp_right And.left)⟩

/-! ### The write of `dec_refs` -/

section

omit [Fintype ι]

/-- A count that stays above zero. -/
theorem decWrite_of_ne (hn : n - 1 ≠ 0) : r.decWrite t a n =
    { r with
      tree := (r.tree.threadLocalTree t).2.store t (r.tree.threadLocalTree t).1
      mem := { r.mem with heap := { r.mem.heap with header := Function.update r.mem.heap.header a (n - 1) } }
      raced := if n = r.mem.heap.header a then r.raced else insert a r.raced
      access := Function.update r.access t .idle } := by
  simp [decWrite, decRefs, hn]

/-- The last reference: the node is destroyed, and its parent is next. -/
theorem decWrite_of_eq (hn : n - 1 = 0) : r.decWrite t a n =
    { r with
      tree := (r.tree.threadLocalTree t).2.store t ⟨(r.tree.threadLocalTree t).1.numNodes - 1,
        { (r.tree.threadLocalTree t).1.allocator with freeList := a }⟩
      mem := { r.mem with
        heap := { r.mem.heap with
          header := Function.update r.mem.heap.header a (r.tree.threadLocalTree t).1.allocator.freeList }
        data := Function.update r.mem.data a (SetData.clear (r.mem.data a)) }
      live := r.live.erase a
      raced := if n = r.mem.heap.header a then r.raced else insert a r.raced
      access := Function.update r.access t (if r.mem.parent a = 0 then .idle else .decRead (r.mem.parent a)) } := by
  simp [decWrite, decRefs, hn]

theorem lowered (h : r.Shape) (t : ι) (ha : a ∈ r.live) (hn : n - 1 ≠ 0) : r.Lowered (r.decWrite t a n) t a n := by
  rw [decWrite_of_ne hn]
  obtain ⟨free, B⟩ := h.blocks
  obtain ⟨htree, _, hmap, B⟩ := B.threadLocalTree t
  refine ⟨⟨fun _ => rfl, fun _ => rfl, rfl, ⟨free, ?_⟩, fun b hb => Function.update_of_ne hb .., rfl, fun _ _ => rfl,
    rfl, rfl, rfl, fun b hb => ?_⟩, rfl, Function.update_self .., ?_⟩
  · simp only [htree, ← hmap, MTSearchTree.store_map]
    exact B.keep ha
  · show b ∈ (if n = r.mem.heap.header a then r.raced else insert a r.raced) ↔ b ∈ r.raced
    split
    · rfl
    · rw [Finset.mem_insert, or_iff_right hb]
  · show a ∈ (if n = r.mem.heap.header a then r.raced else insert a r.raced) ↔ _
    split
    · next heq => simp [heq]
    · next hne => simp [hne]

theorem destroyed (h : r.Shape) (t : ι) (ha : a ∈ r.live) (hn : n - 1 = 0) (hseen : n = r.mem.heap.header a) :
    r.Destroyed (r.decWrite t a n) t a := by
  rw [decWrite_of_eq hn, if_pos hseen]
  obtain ⟨free, B⟩ := h.blocks
  obtain ⟨htree, hthreads, hmap, B⟩ := B.threadLocalTree t
  have hself : (r.tree.threadLocalTree t).1 = (r.tree.threadLocalTree t).2.map t := by rw [hmap, htree]
  refine ⟨⟨fun b => ?_, fun b => ?_, rfl, ⟨Function.update free t (a :: free t), ?_⟩,
    fun b hb => Function.update_of_ne hb .., rfl, fun b hb => Function.update_of_ne (Finset.ne_of_mem_erase hb) ..,
    rfl, rfl, rfl, fun _ _ => Iff.rfl⟩, rfl⟩
  · split <;> rfl
  · split <;> rfl
  · simp only [hself]
    exact B.destroy hthreads ha

end

/-- A count that stays above zero. -/
theorem Inv.decWrite_of_ne (h : r.Inv) (ht : r.access t = .decWrite a n) (hn : n - 1 ≠ 0) :
    (r.decWrite t a n).Inv := by
  have hpos : 0 < (r.access t).drops a := by simp [ht, Access.drops]
  obtain ⟨hlive, _, _⟩ := h.use.dec t a hpos
  have hcount := h.counted.counter a hlive
  have hvalue : (r.counter a).value = r.mem.heap.header a := by rw [counter, h.use.incs_of_dec hpos, add_zero]
  have hparent : r.mem.parent a ∉ r.owned := fun hmem => by
    have hone : (r.counter a).refs = 1 := h.refs_eq_one ht hmem
    obtain ⟨hnr, hfresh⟩ := h.use.fresh a hlive hmem
    have hfair := hcount.fair hnr
    have hheader := hfresh t n ht
    omega
  have W := lowered h.shape t hlive hn
  exact ⟨W.shape h.shape, W.use h.use ht hparent, W.counted h ht hn hlive⟩

/-- A node destroyed by its last reference: no write of its count was lost, and nobody is left at it. -/
theorem Inv.decWrite_of_eq (h : r.Inv) (ht : r.access t = .decWrite a n) (hn : n - 1 = 0) :
    (r.decWrite t a n).Inv := by
  have hpos : 0 < (r.access t).drops a := by simp [ht, Access.drops]
  obtain ⟨hlive, _, _⟩ := h.use.dec t a hpos
  have hread : (r.counter a).reads t = some n := by simp [counter, ht, Access.read]
  obtain ⟨hone, hfair⟩ := (h.counted.counter a hlive).write_zero hread (refs_eq hpos).1 hn
  obtain ⟨hna, hchild, halone⟩ := (refs_eq hpos).2 hone
  obtain ⟨hnr, hseen⟩ := not_or.mp hfair
  have hseen : n = r.mem.heap.header a := by
    have hvalue : (r.counter a).value = r.mem.heap.header a := by rw [counter, h.use.incs_of_dec hpos, add_zero]
    exact hvalue ▸ not_not.mp hseen
  have hraced : (r.decWrite t a n).raced = r.raced := by rw [MTCounts.decWrite_of_eq hn, if_pos hseen]
  have W := destroyed h.shape t hlive hn hseen
  exact ⟨W.shape h.shape hna hchild, W.use h.use h.shape ht hchild halone, W.counted h ht hlive hraced hnr⟩

theorem Inv.advance (h : r.Inv) (t : ι) : (r.advance t).Inv := by
  rw [MTCounts.advance]
  cases ht : r.access t with
  | idle => exact h
  | incRead p => exact h.incRead ht
  | incWrite p n => exact h.incWrite ht
  | decRead a => exact h.decRead ht
  | decWrite a n =>
    by_cases hn : n - 1 = 0
    · exact h.decWrite_of_eq ht hn
    · exact h.decWrite_of_ne ht hn

theorem inv_preserved : Preserved (Step (ι := ι) (D := D)) Inv := by
  intro r r' h hstep
  cases hstep with
  | create hi hp => exact h.create hi hp
  | write _ _ d => exact h.write _ d
  | hand hi ha hp hc u => exact h.hand hi ha hp hc u
  | release hi ha => exact h.release hi ha
  | advance t => exact h.advance t

/-! ### Calls one after another -/

section Calls

omit [Fintype ι]

theorem advance_incRead (ht : r.access t = .incRead p) :
    (r.advance t).advance t = (r.setCount p (r.mem.heap.header p + 1)).go t .idle := by
  rw [MTCounts.advance, MTCounts.advance, ht]
  simp only [access_go_self]
  rw [go, setCount, go]
  simp only [go, setCount, Function.update_idem]

theorem go_decWrite : (r.go t x).decWrite t a n = r.decWrite t a n := by
  simp only [MTCounts.decWrite, go, Function.update_idem]
  rfl

theorem advance_decRead (ht : r.access t = .decRead a) :
    (r.advance t).advance t = r.decWrite t a (r.mem.heap.header a) := by
  rw [MTCounts.advance, MTCounts.advance, ht]
  simp only [access_go_self]
  exact go_decWrite

omit [SetData D] in
theorem access_restored (hi : r.Idle t) : Function.update r.access t .idle = r.access :=
  Function.update_eq_self_iff.mpr (Eq.symm hi)

/-- `create_node` that no other thread runs into. -/
theorem create_calls (hi : r.Idle t) : (((r.create t p).advance t).advance t).toMTRun = r.toMTRun.create t p ∧
    (((r.create t p).advance t).advance t).access = r.access := by
  by_cases hp : p = 0
  · have hself : (r.create t p).access t = .idle := by simp [MTCounts.create, hp]
    have hstay : (r.create t p).advance t = r.create t p := by rw [MTCounts.advance, hself]
    rw [hstay, hstay]
    simp [MTCounts.create, hp, access_restored hi, MTRun.create, MTSearchTree.createNode, SearchTree.createNode]
  · have hself : (r.create t p).access t = .incRead p := by simp [MTCounts.create, hp]
    rw [advance_incRead hself]
    simp [MTCounts.create, hp, access_restored hi, MTRun.create, MTSearchTree.createNode, SearchTree.createNode, go,
      setCount, incRefs]

/-- A round of `release_node` that no other thread runs into. -/
theorem decWrite_header (r : MTCounts ι D) (t : ι) (a : ℕ) : r.decWrite t a (r.mem.heap.header a) =
    if ((r.tree.threadLocalTree t).1.allocator.decRefs a r.mem.heap).1 = 0 then
      { r with
        tree := (r.tree.threadLocalTree t).2.store t ⟨(r.tree.threadLocalTree t).1.numNodes - 1,
          ((r.tree.threadLocalTree t).1.allocator.decRefs a r.mem.heap).2.2⟩
        mem := ⟨((r.tree.threadLocalTree t).1.allocator.decRefs a r.mem.heap).2.1, r.mem.parent,
          Function.update r.mem.data a (SetData.clear (r.mem.data a))⟩
        live := r.live.erase a
        access := Function.update r.access t (if r.mem.parent a = 0 then .idle else .decRead (r.mem.parent a)) }
    else
      { r with
        tree := (r.tree.threadLocalTree t).2.store t ⟨(r.tree.threadLocalTree t).1.numNodes,
          ((r.tree.threadLocalTree t).1.allocator.decRefs a r.mem.heap).2.2⟩
        mem := ⟨((r.tree.threadLocalTree t).1.allocator.decRefs a r.mem.heap).2.1, r.mem.parent, r.mem.data⟩
        access := Function.update r.access t .idle } := by
  have hself : Function.update r.mem.heap.header a (r.mem.heap.header a) = r.mem.heap.header :=
    Function.update_eq_self ..
  rw [MTCounts.decWrite, if_pos rfl, hself]

theorem threadLocalTree_store {s : MTSearchTree ι} {tree : SearchTree} :
    ((s.threadLocalTree t).2.store t tree).threadLocalTree t = (tree, (s.threadLocalTree t).2.store t tree) := by
  have hmem : t ∈ ((s.threadLocalTree t).2.store t tree).threads := by
    rw [MTSearchTree.store_threads, MTSearchTree.threadLocalTree]
    split
    · assumption
    · exact Finset.mem_insert_self ..
  rw [MTSearchTree.threadLocalTree, if_pos hmem, MTSearchTree.store_map_self]

omit [DecidableEq ι] in
theorem releaseLoop_zero {fuel : ℕ} {tree tree' : SearchTree} {m m' : Memory D} {l : List ℕ}
    (h : SearchTree.releaseLoop fuel tree m 0 = some (l, m', tree')) : tree = tree' ∧ m = m' ∧ [] = l := by
  cases fuel with
  | zero => cases h
  | succ fuel =>
    simp only [SearchTree.releaseLoop, if_pos, Option.some.injEq, Prod.mk.injEq] at h
    exact ⟨h.2.2, h.2.1, h.1⟩

/-- The loop of `release_node` that no other thread runs into. -/
theorem releaseLoop_calls (fuel : ℕ) {l : List ℕ} {m : Memory D} {tree : SearchTree}
    (ht : r.access t = if a = 0 then .idle else .decRead a)
    (hl : SearchTree.releaseLoop fuel (r.tree.threadLocalTree t).1 r.mem a = some (l, m, tree)) :
    ∃ k, (fun r : MTCounts ι D => r.advance t)^[k] r = { r with
      tree := if a = 0 then r.tree else (r.tree.threadLocalTree t).2.store t tree
      mem := m
      live := r.live \ l.toFinset
      access := Function.update r.access t .idle } := by
  induction fuel generalizing r a l with
  | zero => cases hl
  | succ fuel ih =>
    by_cases ha : a = 0
    · simp only [SearchTree.releaseLoop, if_pos ha, Option.some.injEq, Prod.mk.injEq] at hl
      obtain ⟨rfl, rfl, rfl⟩ := hl
      rw [if_pos ha] at ht
      exact ⟨0, by simp [ha, access_restored ht]⟩
    · rw [if_neg ha] at ht
      have hround : (fun r : MTCounts ι D => r.advance t)^[2] r = _ :=
        (advance_decRead ht).trans (decWrite_header r t a)
      simp only [SearchTree.releaseLoop, if_neg ha] at hl
      by_cases hn : ((r.tree.threadLocalTree t).1.allocator.decRefs a r.mem.heap).1 = 0
      · rw [if_pos hn] at hround hl
        obtain ⟨⟨l', m', tree'⟩, hrest, heq⟩ := Option.map_eq_some_iff.mp hl
        simp only [Prod.mk.injEq] at heq
        obtain ⟨rfl, rfl, rfl⟩ := heq
        obtain ⟨k, hk⟩ := ih (r := (fun r : MTCounts ι D => r.advance t)^[2] r) (a := r.mem.parent a)
          (by rw [hround]; exact Function.update_self ..)
          (by rw [hround, threadLocalTree_store]; exact hrest)
        refine ⟨k + 2, ?_⟩
        have hstay : r.mem.parent a = 0 → (⟨(r.tree.threadLocalTree t).1.numNodes - 1,
            ((r.tree.threadLocalTree t).1.allocator.decRefs a r.mem.heap).2.2⟩ : SearchTree) = tree' := fun h0 => by
          rw [h0] at hrest
          exact (releaseLoop_zero hrest).1
        rw [Function.iterate_add_apply, hk, hround, threadLocalTree_store]
        simp only [if_neg ha, MTSearchTree.store_store, Function.update_idem, List.toFinset_cons, Finset.sdiff_insert,
          Finset.erase_sdiff_comm]
        split
        · next h0 => rw [hstay h0]
        · rfl
      · rw [if_neg hn] at hround hl
        simp only [Option.some.injEq, Prod.mk.injEq] at hl
        obtain ⟨rfl, rfl, rfl⟩ := hl
        refine ⟨2, ?_⟩
        rw [hround]
        simp [ha]

/-- `release_node` that no other thread runs into. -/
theorem release_calls {run : MTRun ι D} (hi : r.Idle t) (ha : a ≠ 0) (hr : r.toMTRun.release t a = some run) :
    ∃ k, (fun r : MTCounts ι D => r.advance t)^[k] (r.release t a) =
      { toMTRun := run, access := r.access, holder := r.holder, raced := r.raced } := by
  obtain ⟨⟨l, m, tree⟩, hnode, rfl⟩ := Option.map_eq_some_iff.mp hr
  obtain ⟨⟨l, m, tree⟩, hloop, heq⟩ := Option.map_eq_some_iff.mp hnode
  simp only [Prod.mk.injEq] at heq
  obtain ⟨rfl, rfl, rfl⟩ := heq
  have ht : (r.release t a).access t = if a = 0 then .idle else .decRead a := by
    rw [if_neg ha]
    exact Function.update_self ..
  obtain ⟨k, hk⟩ := releaseLoop_calls (r := r.release t a) _ ht hloop
  refine ⟨k, hk.trans ?_⟩
  simp only [if_neg ha, MTCounts.release, go, Function.update_idem, access_restored hi]
  rfl

end Calls

/-! ### What holds at every point of every run -/

omit [Fintype ι] [DecidableEq ι] [SetData D] in
/-- `a` is `b` or one of the nodes above it. -/
def Above (r : MTCounts ι D) (a b : ℕ) : Prop :=
  Relation.ReflTransGen (fun c p => p ≠ 0 ∧ r.mem.parent c = p) b a

/-- What the trees keep although writes of a count can be lost. -/
structure Sound (r : MTCounts ι D) : Prop where
  /-- The nodes in use and those above them are there, as they were made. -/
  owned_subset : r.owned ⊆ r.live
  parent_mem : ∀ a ∈ r.live, r.mem.parent a ≠ 0 → r.mem.parent a ∈ r.live
  made_eq : ∀ a ∈ r.live, (r.mem.parent a, r.mem.data a) = r.made a
  /-- Each block of the areas is live or in the free list of exactly one thread. -/
  block : ∃ free : ι → List ℕ,
    (∀ t, Linked r.mem.heap.header (r.tree.map t).allocator.freeList (free t) ∧ (free t).Nodup) ∧
      ∀ a, a ≠ 0 → a < r.mem.heap.brk →
        (a ∈ r.live ∧ ∀ t, a ∉ free t) ∨ (a ∉ r.live ∧ ∃! t, a ∈ free t)
  /-- No thread is handed a live node. -/
  created : ∀ t, (r.tree.createNode t r.mem 0).1 ∉ r.live
  /-- A count is too high just where a write was lost. -/
  count : ∀ a ∈ r.live, r.refs a ≤ r.mem.heap.header a + ∑ t, (r.access t).incs a ∧
    (r.refs a = r.mem.heap.header a + ∑ t, (r.access t).incs a ↔ a ∉ r.raced)
  raced_subset : r.raced ⊆ r.live
  /-- What is left when all nodes are released. -/
  leaked : (∀ t, r.Idle t) → r.owned = ∅ → ∀ a, a ∈ r.live ↔ ∃ b ∈ r.raced, r.Above a b

omit [DecidableEq ι] [SetData D] in
theorem Inv.exists_raced (h : r.Inv) (hi : ∀ t, r.Idle t) (howned : r.owned = ∅) (ha : a ∈ r.live) :
    ∃ b ∈ r.raced, r.Above a b := by
  obtain ⟨rank, hrank⟩ := h.shape.ranked
  obtain ⟨top, htop⟩ := (r.live.image rank).bddAbove
  -- upwards in rank, from a node to a child that keeps it
  induction hk : top - rank a using Nat.strong_induction_on generalizing a with
  | _ k ih =>
    by_cases hra : a ∈ r.raced
    · exact ⟨a, hra, .refl⟩
    · have hneeded := h.counted.needed a ha hra
      have hdrops : ∑ t, (r.access t).drops a = 0 := Finset.sum_eq_zero fun t _ => by
        rw [show r.access t = .idle from hi t, Access.drops_idle]
      rw [refs, hdrops, add_zero, refCount_pos_iff, howned] at hneeded
      obtain ⟨c, hc, rfl⟩ := hneeded.resolve_right (Finset.notMem_empty a)
      have h0 : r.mem.parent c ≠ 0 := fun h0 => h.shape.ne_zero (h0 ▸ ha)
      have hle : rank c ≤ top := htop (Finset.mem_coe.mpr (Finset.mem_image_of_mem rank hc))
      have hlt := hrank c hc h0
      obtain ⟨b, hb, habove⟩ := ih (top - rank c) (by omega) hc rfl
      exact ⟨b, hb, habove.tail ⟨h0, rfl⟩⟩

theorem Inv.sound (h : r.Inv) : r.Sound := by
  obtain ⟨free, B⟩ := h.shape.blocks
  refine ⟨h.shape.owned_subset, h.shape.parent_mem, h.shape.made_eq,
    ⟨free, fun t => ⟨B.linked t, B.nodup t⟩, fun a ha0 hlt => ?_⟩, fun t => ?_, fun a ha => ?_,
    h.counted.raced_subset, fun hi howned a => ⟨h.exists_raced hi howned, ?_⟩⟩
  · rcases (B.block a).mpr ⟨ha0, hlt⟩ with ha | ⟨t, ha⟩
    · exact .inl ⟨ha, fun t h => B.disjoint t a h ha⟩
    · refine .inr ⟨B.disjoint t a ha, t, ha, fun u hu => ?_⟩
      by_contra hut
      exact B.apart hut a hu ha
  · obtain ⟨a, m, s, _, heq, hna, _⟩ := exists_created B t
    rw [heq]
    exact hna
  · have hcount := h.counted.counter a ha
    refine ⟨hcount.refs_le, fun heq hra => ?_, fun hra => (hcount.fair hra).symm⟩
    exact (hcount.lost hra).1.ne heq
  · rintro ⟨b, hb, habove⟩
    induction habove with
    | refl => exact h.counted.raced_subset hb
    | tail _ hp ih => exact hp.2 ▸ h.shape.parent_mem _ ih (hp.2 ▸ hp.1)

omit [DecidableEq ι] [SetData D] in
theorem Inv.numNodes (h : r.Inv) : r.tree.numUnfreedNodes = r.live.card := by
  obtain ⟨_, B⟩ := h.shape.blocks
  exact B.numNodes

/-- A step that leaves all counters in the range of `int`. -/
def CountedStep (r r' : MTCounts ι D) : Prop := Step r r' ∧ r'.tree.InRange

/-- Word by word, no run that no counter overflows in frees a node in use or hands one out twice; the nodes it
leaks are those whose count has lost a write, and those above them. -/
theorem words_sound {t : ι} (h : Reaches CountedStep (start ι D t) r) :
    r.Sound ∧ NodesCounted r.tree r.live := by
  have hinv := inv_preserved.reaches (start_inv t) (reaches_mono (fun _ _ hstep => hstep.1) h)
  refine ⟨hinv.sound, MTSearchTree.InRange.counted ?_ hinv.numNodes⟩
  cases h with
  | refl => exact fun t ht => absurd ht (Finset.notMem_empty t)
  | tail _ hstep => exact hstep.2

end Inv

/-- Two threads release siblings at the same time, each reading the count of the parent before the other has
written it: all nodes are released, and the parent stays. -/
theorem words_sound_lost : ∃ r : MTCounts Bool ℕ, Reaches CountedStep (start Bool ℕ false) r ∧
    (∀ t, r.Idle t) ∧ r.owned = ∅ ∧ r.raced = {1} ∧ r.Sound ∧ r.tree.numUnfreedNodes = 1 := by
  let create (r : MTCounts Bool ℕ) := ((r.create false 1).advance false).advance false
  let made := create (create ((start Bool ℕ false).create false 0))
  let handed := (((made.release false 1).advance false).advance false).hand 3 true
  let released := (((handed.release false 2).advance false).advance false).release true 3
  let r := ((((((released.advance true).advance true).advance false).advance true).advance false).advance true)
  have hcreate : ∀ r : MTCounts Bool ℕ, r.Idle false → r.Holds false 1 ∧ r.mem.parent 1 ∉ r.owned →
      (r.create false 1).tree.InRange ∧ ((r.create false 1).advance false).tree.InRange ∧
        (create r).tree.InRange → Reaches CountedStep r (create r) := by
    rintro r hi hp ⟨h1, h2, h3⟩
    exact ((Relation.ReflTransGen.single ⟨.create hi (.inr hp), h1⟩).tail ⟨.advance false, h2⟩).tail
      ⟨.advance false, h3⟩
  have hmade : Reaches CountedStep (start Bool ℕ false) made :=
    ((Relation.ReflTransGen.single ⟨.create rfl (.inl rfl), by decide +kernel⟩).trans
      (hcreate _ (by decide +kernel) (by decide +kernel) (by decide +kernel))).trans
        (hcreate _ (by decide +kernel) (by decide +kernel) (by decide +kernel))
  have hhanded : Reaches CountedStep (start Bool ℕ false) handed :=
    (((hmade.tail ⟨.release (by decide +kernel) (by decide +kernel), by decide +kernel⟩).tail
      ⟨.advance false, by decide +kernel⟩).tail ⟨.advance false, by decide +kernel⟩).tail
        ⟨.hand (t := false) (by decide +kernel) (by decide +kernel) (by decide +kernel) (by decide +kernel) true,
          by decide +kernel⟩
  have hreleased : Reaches CountedStep (start Bool ℕ false) released :=
    (((hhanded.tail ⟨.release (by decide +kernel) (by decide +kernel), by decide +kernel⟩).tail
      ⟨.advance false, by decide +kernel⟩).tail ⟨.advance false, by decide +kernel⟩).tail
        ⟨.release (by decide +kernel) (by decide +kernel), by decide +kernel⟩
  have hr : Reaches CountedStep (start Bool ℕ false) r :=
    (((((hreleased.tail ⟨.advance true, by decide +kernel⟩).tail ⟨.advance true, by decide +kernel⟩).tail
      ⟨.advance false, by decide +kernel⟩).tail ⟨.advance true, by decide +kernel⟩).tail
        ⟨.advance false, by decide +kernel⟩).tail ⟨.advance true, by decide +kernel⟩
  exact ⟨r, hr, by decide +kernel, by decide +kernel, by decide +kernel, (words_sound hr).1, by decide +kernel⟩

end MTCounts

end Optimer
