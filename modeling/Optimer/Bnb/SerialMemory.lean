import Mathlib.Data.List.Perm.Basic
import Optimer.Bnb.Ledger
import Optimer.Bnb.SerialInterrupt
import Optimer.Lib.Matched

/-! `SerialBNB::solve` on the nodes of a `SearchTree`. The container holds addresses; `branch` reads a
node and its ancestors from memory, creates nodes below it, fills them in and releases some of them.
Every run does what the search over the nodes themselves does, and leaves no node behind. -/

namespace Optimer
open Transition

variable {D N X : Type*} [SetData D]

namespace Container

variable {α β : Type*} {S : Solver N} {c : Container} {R : α → β → Prop} {node : α → N} {node' : β → N} {a : α}
  {l rest : List α} {l' : List β}

omit [SetData D] in
/-- Two containers whose entries stand for the same nodes hand out entries that do. -/
theorem Pop.matched (h : c.Pop S node l a rest) (hl : List.Forall₂ R l l') (hR : ∀ a b, R a b → node a = node' b) :
    ∃ b rest', c.Pop S node' l' b rest' ∧ R a b ∧ List.Forall₂ R rest rest' := by
  cases c with
  | lifo =>
    obtain rfl := h
    obtain ⟨b, rest', hab, hrest, rfl⟩ := List.forall₂_cons_left_iff.mp hl
    exact ⟨b, rest', rfl, hab, hrest⟩
  | priority =>
    obtain ⟨_, hl', hperm⟩ := List.perm_comp_forall₂ h.1.symm hl
    obtain ⟨b, rest', hab, hrest, rfl⟩ := List.forall₂_cons_left_iff.mp hl'
    refine ⟨b, rest', ⟨hperm.symm, fun y hy => ?_⟩, hab, hrest⟩
    obtain ⟨x, hx, hxy⟩ := hrest.exists_left hy
    rw [← hR a b hab, ← hR x y hxy]
    exact h.2 x hx

end Container

/-- How the nodes of a solver lie in the tree: `path` is the data of a node and of its ancestors. -/
structure Solver.Stored (S : Solver N) (path : N → List D) : Prop where
  injective : Function.Injective path
  child : ∀ {n}, S.Explored n → ∀ r sol, ∀ m ∈ (S.branch n r sol).nodes, ∃ d, path m = d :: path n

/-- The nodes of the search tree with two leaves. -/
def pairPath : Option Bool → List ℕ
  | none => [0]
  | some b => [if b then 2 else 1, 0]

theorem pairPath_stored : pairSolver.Stored pairPath where
  injective m n h := by
    rcases m with - | - | - <;> rcases n with - | - | - <;> simp_all [pairPath]
  child {n} _ r sol m hm := by
    cases n with
    | none => rcases List.mem_pair.mp hm with rfl | rfl <;> exact ⟨_, rfl⟩
    | some b => exact absurd hm List.not_mem_nil

/-! ### A call of `branch` -/

/-- A call of `branch`: the nodes it has created and not released, and how many it has released. -/
structure Work (D : Type*) where
  run : TreeRun D
  nodes : List ℕ := []
  released : ℕ := 0

namespace Work

/-- What `branch` does with the tree on the node `a`. -/
inductive Step (a : ℕ) : Work D → Work D → Prop
  | create {w : Work D} : Step a w
      { w with run := w.run.create a, nodes := w.run.created a :: w.nodes }
  | write {w : Work D} {x : ℕ} (hx : x ∈ w.nodes) (d : D) : Step a w { w with run := w.run.write x d }
  | release {w : Work D} {x : ℕ} {run : TreeRun D} (hx : x ∈ w.nodes) (hr : w.run.release x = some run) :
      Step a w { run, nodes := w.nodes.erase x, released := w.released + 1 }

variable {w w' : Work D} {base : Multiset ℕ} {a b x : ℕ} {l : List D} {d : D}

/-- During the call: `base` are the nodes of the caller. -/
structure Inv (base : Multiset ℕ) (w : Work D) : Prop where
  run : w.run.Inv
  held : w.run.ledger.Held base w.nodes

namespace Inv

variable (h : w.Inv base)

include h

theorem create (ha : a ∈ base) :
    Inv base { w with run := w.run.create a, nodes := w.run.created a :: w.nodes } := by
  obtain ⟨hnew, hnew0⟩ := TreeRun.created_spec (p := a) h.run
  exact ⟨TreeRun.create_inv h.run (.inr (h.held.live (.inl ha))), h.held.create hnew hnew0 ha⟩

omit [SetData D] in
theorem write (x : ℕ) (d : D) : Inv base { w with run := w.run.write x d } where
  run := TreeRun.write_inv h.run d
  held := h.held.write x d

theorem release (hx : x ∈ w.nodes) {run : TreeRun D} (hr : w.run.release x = some run) :
    Inv base { run, nodes := w.nodes.erase x, released := w.released + 1 } := by
  obtain ⟨run', hr', _, hinv⟩ := TreeRun.release_spec h.run (h.held.mem_owned.mpr (.inr hx))
  obtain rfl := Option.some.inj (hr.symm.trans hr')
  obtain ⟨live, hsub, hledger⟩ := TreeRun.release_ledger hr
  refine ⟨hinv, ?_⟩
  have hnew := hinv.ledger
  simp only [hledger] at hnew ⊢
  exact h.held.release (Multiset.mem_coe.mpr hx) hsub hnew

/-- The node that the call is about is given back. -/
theorem release_kept (ha : a ∈ base) {run : TreeRun D} (hr : w.run.release a = some run) :
    run.Inv ∧ run.ledger.Held (base.erase a) w.nodes := by
  obtain ⟨run', hr', _, hinv⟩ := TreeRun.release_spec h.run (h.held.mem_owned.mpr (.inl ha))
  obtain rfl := Option.some.inj (hr.symm.trans hr')
  obtain ⟨live, hsub, hledger⟩ := TreeRun.release_ledger hr
  refine ⟨hinv, ?_⟩
  have hnew := hinv.ledger
  rw [hledger] at hnew ⊢
  exact h.held.release_kept ha hsub hnew

theorem path_create (hb : b ∈ base ∨ b ∈ w.nodes) (hl : w.run.ledger.Path b l) :
    (w.run.create a).ledger.Path b l :=
  h.held.path_create (TreeRun.created_spec (p := a) h.run).1 hb hl

omit [SetData D] in
theorem path_write (hb : b ∈ base ∨ b ∈ w.nodes) (hx : x ∈ w.nodes) (hne : b ≠ x) (d : D)
    (hl : w.run.ledger.Path b l) : (w.run.write x d).ledger.Path b l :=
  h.held.path_write hb hx hne d hl

theorem step (ha : a ∈ base) (hstep : Step a w w') : w'.Inv base ∧
    ∀ b ∈ base, ∀ l, w.run.ledger.Path b l → w'.run.ledger.Path b l := by
  cases hstep with
  | create => exact ⟨h.create ha, fun b hb l => h.path_create (.inl hb)⟩
  | write hx d => exact ⟨h.write _ d, fun b hb l => h.path_write (.inl hb) hx (h.held.ne hb hx) d⟩
  | release hx hr => exact ⟨h.release hx hr, fun b _ l => TreeRun.release_path hr⟩

/-- A whole call leaves what the nodes of the caller and their ancestors hold. -/
theorem reaches (ha : a ∈ base) (hr : Reaches (Step a) w w') : w'.Inv base ∧
    ∀ b ∈ base, ∀ l, w.run.ledger.Path b l → w'.run.ledger.Path b l := by
  induction hr with
  | refl => exact ⟨h, fun _ _ _ => id⟩
  | tail _ hstep ih =>
    obtain ⟨hinv, hpath⟩ := ih.1.step ha hstep
    exact ⟨hinv, fun b hb l hl => hpath b hb l (ih.2 b hb l hl)⟩

omit h

/-! ### A call that makes given nodes -/

/-- A new node with the data `d` below `a`. -/
theorem exists_created (h : w.Inv base) (ha : a ∈ base) (hl : w.run.ledger.Path a l) (d : D) :
    ∃ w' x, Reaches (Step a) w w' ∧ w'.Inv base ∧ w'.nodes = x :: w.nodes ∧ w'.released = w.released ∧
      w'.run.ledger.Path x (d :: l) ∧
      ∀ b, b ∈ base ∨ b ∈ w.nodes → ∀ l, w.run.ledger.Path b l → w'.run.ledger.Path b l := by
  obtain ⟨hnew, hnew0⟩ := TreeRun.created_spec (p := a) h.run
  have hlive := h.held.live (.inl ha)
  have h₁ := h.create ha
  have hx : w.run.created a ∈ w.run.created a :: w.nodes := List.mem_cons_self
  have hself := hl.create_self h.run.ledger hnew hnew0 (.inr hlive)
  refine ⟨_, w.run.created a, (Relation.ReflTransGen.single .create).tail (.write hx d), h₁.write _ d, rfl, rfl,
    hself.write_self h₁.run.ledger (h₁.held.live (.inr hx)) (h₁.held.leaf _ hx) d, fun b hb l hl => ?_⟩
  exact h₁.path_write (hb.imp_right (List.mem_cons_of_mem _)) hx
    (ne_of_mem_of_not_mem (h.held.live hb) hnew) d (h.path_create hb hl)

theorem exists_kept (h : w.Inv base) (ha : a ∈ base) (hl : w.run.ledger.Path a l) (ds : List D) :
    ∃ w' new, Reaches (Step a) w w' ∧ w'.Inv base ∧ w'.nodes.Perm (new ++ w.nodes) ∧
      w'.released = w.released ∧ List.Forall₂ (fun x d => w'.run.ledger.Path x (d :: l)) new ds ∧
      ∀ b, b ∈ base ∨ b ∈ w.nodes → ∀ l, w.run.ledger.Path b l → w'.run.ledger.Path b l := by
  induction ds generalizing w with
  | nil => exact ⟨w, [], .refl, h, .refl _, rfl, .nil, fun _ _ _ => id⟩
  | cons d ds ih =>
    obtain ⟨w₁, x, hr₁, h₁, hnodes, hrel₁, hx, hold₁⟩ := h.exists_created ha hl d
    obtain ⟨w', new, hr, h', hperm, hrel, hnew, hold⟩ := ih h₁ (hold₁ a (.inl ha) l hl)
    rw [hnodes] at hperm hold
    refine ⟨w', x :: new, hr₁.trans hr, h', hperm.trans List.perm_middle, hrel.trans hrel₁,
      .cons (hold x (.inr List.mem_cons_self) _ hx) hnew, fun b hb l hl => ?_⟩
    exact hold b (hb.imp_right (List.mem_cons_of_mem _)) l (hold₁ b hb l hl)

theorem exists_released (h : w.Inv base) (ha : a ∈ base) (k : ℕ) :
    ∃ w', Reaches (Step a) w w' ∧ w'.Inv base ∧ w'.nodes = w.nodes ∧ w'.released = w.released + k ∧
      ∀ b ∈ base, ∀ l, w.run.ledger.Path b l → w'.run.ledger.Path b l := by
  induction k with
  | zero => exact ⟨w, .refl, h, rfl, rfl, fun _ _ _ => id⟩
  | succ k ih =>
    obtain ⟨w₁, hr₁, h₁, hnodes₁, hrel₁, hold₁⟩ := ih
    have h₂ := h₁.create ha
    have hx : w₁.run.created a ∈ w₁.run.created a :: w₁.nodes := List.mem_cons_self
    obtain ⟨run, hr, _⟩ := TreeRun.release_spec h₂.run (h₂.held.mem_owned.mpr (.inr hx))
    refine ⟨_, (hr₁.tail .create).tail (.release hx hr), h₂.release hx hr, ?_, ?_, fun b hb l hl => ?_⟩
    · simp only [List.erase_cons_head, hnodes₁]
    · simp only [hrel₁, Nat.add_assoc]
    · exact TreeRun.release_path hr (h₁.path_create (.inl hb) (hold₁ b hb l hl))

end Inv

end Work

/-! ### The loop -/

/-- The local variables of `solve`, with the addresses of the open nodes. -/
structure MemSearch (D : Type*) where
  run : TreeRun D
  nodes : List ℕ
  record : ValueType
  sol : Solution := {}
  interrupted : Bool := false

inductive MemState (D : Type*)
  | search (s : MemSearch D)
  | clean (s : MemSearch D)
  | returned (sol : Solution) (s : MemSearch D)

namespace MemState

def vars : MemState D → MemSearch D
  | search s => s
  | clean s => s
  | returned _ s => s

end MemState

namespace MemSearch

/-- The nodes that addresses stand for: `path` is the data of a node and its ancestors. -/
def Stands (path : N → List D) (r : TreeRun D) (l : List ℕ) (node : ℕ → N) : Prop :=
  ∀ a ∈ l, r.mem.Reads a (path (node a))

/-- The program steps of `solve`. The nodes that `branch` returns are those it has created and not
released. -/
inductive Step (S : Solver N) (path : N → List D) (c : Container) : MemState D → MemState D → Prop
  | body {s : MemSearch D} {node : ℕ → N} {a : ℕ} {rest new : List ℕ} {w : Work D} {run : TreeRun D}
      (hi : s.interrupted = false) (hnode : Stands path s.run s.nodes node)
      (hp : c.Pop S node s.nodes a rest) (hwork : Reaches (Work.Step a) { run := s.run } w)
      (hperm : w.nodes.Perm new)
      (hnew : List.Forall₂ (fun x n => w.run.mem.Reads x (path n)) new
        (S.branch (node a) s.record s.sol).nodes)
      (hreleased : w.released = (S.branch (node a) s.record s.sol).released.length)
      (hr : w.run.release a = some run) :
      Step S path c (.search s) (.search { s with
        run
        nodes := Container.pushAll rest new
        record := (S.branch (node a) s.record s.sol).record
        sol := (S.branch (node a) s.record s.sol).sol })
  | leave {s : MemSearch D} (h : s.nodes = [] ∨ s.interrupted = true) : Step S path c (.search s) (.clean s)
  | drop {s : MemSearch D} {node : ℕ → N} {a : ℕ} {rest : List ℕ} {run : TreeRun D}
      (hnode : Stands path s.run s.nodes node) (hp : c.Pop S node s.nodes a rest)
      (hr : s.run.release a = some run) : Step S path c (.clean s) (.clean { s with run, nodes := rest })
  | ret {s : MemSearch D} (h : s.nodes = []) :
      Step S path c (.clean s) (.returned { value := s.record, route := [] } s)

/-- `SIGINT` or `SIGTERM`. -/
inductive Signal : MemState D → MemState D → Prop
  | signal {s : MemSearch D} (hi : s.interrupted = false) :
      Signal (.search s) (.search { s with interrupted := true })

/-- A step of a run during which the signal may arrive. -/
def Interruptible (S : Solver N) (path : N → List D) (c : Container) (st st' : MemState D) : Prop :=
  Step S path c st st' ∨ Signal st st'

/-- The tree with the root, which `get_initial_node` has filled in. -/
def rooted (d : D) : TreeRun D :=
  ((TreeRun.start D).create 0).write ((TreeRun.start D).created 0) d

/-- `SerialBNB::solve` up to its loop. -/
def start (S : Solver N) (d : D) (record : ValueType) : MemState D :=
  if S.rank > minRankValue then
    .search
      { run := rooted d
        nodes := [(TreeRun.start D).created 0]
        record := if record > S.initialSolution.value then S.initialSolution.value else record }
  else .returned { value := record, route := [] } { run := TreeRun.start D, nodes := [], record := record }

variable {S : Solver N} {path : N → List D} {c : Container} {s : MemSearch D} {st st' : MemState D} {a : ℕ}
  {rest : List ℕ}

/-- The open nodes are those that are owned. -/
structure Inv (s : MemSearch D) : Prop where
  run : s.run.Inv
  held : s.run.ledger.Held s.nodes 0

omit [SetData D] in
theorem Inv.work (h : s.Inv) : Work.Inv s.nodes { run := s.run } := ⟨h.run, h.held⟩

omit [SetData D] in
theorem Inv.live (h : s.Inv) (ha : a ∈ s.nodes) : a ∈ s.run.live := h.held.live (.inl ha)

omit [SetData D] in
theorem Inv.mem_owned (h : s.Inv) (ha : a ∈ s.nodes) : a ∈ s.run.owned := h.held.mem_owned.mpr (.inl ha)

/-- The new nodes replace the node taken. -/
theorem Inv.body (h : s.Inv) (hp : s.nodes.Perm (a :: rest)) {w : Work D} {new : List ℕ} {run : TreeRun D}
    (hwork : Reaches (Work.Step a) { run := s.run } w) (hperm : w.nodes.Perm new)
    (hr : w.run.release a = some run) (record : ValueType) (sol : Solution) :
    Inv { s with run, nodes := Container.pushAll rest new, record, sol } := by
  have ha : a ∈ s.nodes := hp.mem_iff.mpr List.mem_cons_self
  obtain ⟨hw, _⟩ := h.work.reaches (Multiset.mem_coe.mpr ha) hwork
  obtain ⟨hrun, hheld⟩ := hw.release_kept (Multiset.mem_coe.mpr ha) hr
  refine ⟨hrun, ?_⟩
  have hpush : (Container.pushAll rest new : Multiset ℕ) = (s.nodes : Multiset ℕ).erase a + w.nodes := by
    rw [Multiset.coe_eq_coe.mpr hp, Multiset.coe_eq_coe.mpr hperm, Multiset.coe_erase, List.erase_cons_head,
      Multiset.coe_add, Multiset.coe_eq_coe]
    exact (Container.pushAll_perm rest new).trans List.perm_append_comm
  simp only [hpush]
  rw [← add_zero (w.nodes : Multiset ℕ)] at hheld
  exact hheld.keep

theorem Inv.drop (h : s.Inv) (hp : s.nodes.Perm (a :: rest)) {run : TreeRun D}
    (hr : s.run.release a = some run) : Inv { s with run, nodes := rest } := by
  have ha : a ∈ s.nodes := hp.mem_iff.mpr List.mem_cons_self
  obtain ⟨hrun, hheld⟩ := h.work.release_kept (Multiset.mem_coe.mpr ha) hr
  refine ⟨hrun, ?_⟩
  rw [Multiset.coe_eq_coe.mpr hp, Multiset.coe_erase, List.erase_cons_head] at hheld
  exact hheld

/-- What every point of a run keeps, interrupted or not. -/
def StateInv (st : MemState D) : Prop :=
  st.vars.Inv ∧ ∀ sol s, st = .returned sol s → s.nodes = []

theorem stateInv_preserved : Preserved (Interruptible S path c) (StateInv (D := D)) := by
  rintro st st' ⟨hinv, _⟩ (hstep | hsignal)
  · cases hstep with
    | body _ _ hp hwork hperm _ _ hr => exact ⟨hinv.body hp.perm hwork hperm hr _ _, nofun⟩
    | leave => exact ⟨hinv, nofun⟩
    | drop _ hp hr => exact ⟨hinv.drop hp.perm hr, nofun⟩
    | ret hnil =>
      refine ⟨hinv, fun sol s heq => ?_⟩
      cases heq
      exact hnil
  · cases hsignal with
    | signal => exact ⟨⟨hinv.run, hinv.held⟩, nofun⟩

/-- The root is the only node at first. -/
theorem rooted_spec (d : D) : (rooted d).Inv ∧
    (rooted d).ledger.Held ([(TreeRun.start D).created 0] : List ℕ) 0 ∧
    (rooted d).ledger.Path ((TreeRun.start D).created 0) [d] := by
  have hstart : (TreeRun.start D).Inv := TreeRun.start_inv
  obtain ⟨hnew, hnew0⟩ := TreeRun.created_spec (p := 0) hstart
  have hroot : ((TreeRun.start D).create 0).Inv := TreeRun.create_inv hstart (.inl rfl)
  have hself : ((TreeRun.start D).create 0).ledger.Path ((TreeRun.start D).created 0) [default] :=
    Ledger.Path.create_self (l := []) rfl hstart.ledger hnew hnew0 (.inl rfl)
  have hinv : (rooted d).Inv := TreeRun.write_inv hroot d
  refine ⟨hinv, ⟨hinv.ledger, rfl, by simp⟩, ?_⟩
  exact hself.write_self hroot.ledger (Finset.mem_insert_self _ _)
    (.create_self hstart.ledger hnew hnew0 hnew0.symm) d

theorem start_stateInv (d : D) (record : ValueType) : StateInv (start S d record) := by
  unfold start
  split
  · obtain ⟨hinv, hheld, _⟩ := rooted_spec d
    exact ⟨⟨hinv, hheld⟩, nofun⟩
  · have hinv : (TreeRun.start D).Inv := TreeRun.start_inv
    refine ⟨⟨hinv, hinv.ledger, rfl, by simp⟩, fun sol s heq => ?_⟩
    cases heq
    rfl

/-! ### Memory safety -/

/-- What holds of the tree at every point of `solve`. -/
structure Safe (s : MemSearch D) : Prop where
  /-- The nodes in use are the open nodes and their ancestors. -/
  live_iff : ∀ a, a ∈ s.run.live ↔ ∃ b ∈ s.nodes, ∃ l, Linked s.run.mem.parent b l ∧ a ∈ l
  numNodes : s.run.tree.numNodes = s.run.live.card
  /-- Whatever `branch` does on an open node, reading upwards from the open nodes finds nodes in use and
  what they held before the call. -/
  call : ∀ a ∈ s.nodes, ∀ w, Reaches (Work.Step a) { run := s.run } w → ∀ b ∈ s.nodes,
    (∃ l, Linked w.run.mem.parent b l ∧ ∀ x ∈ l, x ∈ w.run.live) ∧ ∀ l, s.run.mem.Reads b l → w.run.mem.Reads b l
  /-- The call leaves `release_node` able to give the node back. -/
  release : ∀ a ∈ s.nodes, ∀ w, Reaches (Work.Step a) { run := s.run } w → (w.run.release a).isSome

theorem Inv.safe (h : s.Inv) : s.Safe := by
  obtain ⟨rank, free, F, B⟩ := h.run
  refine ⟨fun a => ⟨fun ha => ?_, ?_⟩, B.numNodes, fun a ha w hwork b hb => ?_, fun a ha w hwork => ?_⟩
  · obtain ⟨b, hb, hl⟩ := F.exists_owner ha
    exact ⟨b, (h.held.mem_owned.mp hb).resolve_right (Multiset.notMem_zero b), hl⟩
  · rintro ⟨b, hb, l, hl, ha⟩
    obtain ⟨l', hl', hall⟩ := F.exists_linked (h.live hb)
    exact hall a (hl'.unique hl ▸ ha)
  · obtain ⟨hw, hold⟩ := h.work.reaches ha hwork
    obtain ⟨_, _, F', _⟩ := hw.run
    have hlive := hw.held.live (.inl hb)
    refine ⟨F'.exists_linked hlive, fun l hl => ?_⟩
    rw [h.run.reads_iff (h.live hb)] at hl
    exact (hw.run.reads_iff hlive).mpr (hold b hb l hl)
  · obtain ⟨hw, _⟩ := h.work.reaches ha hwork
    obtain ⟨run, hr, _⟩ := TreeRun.release_spec hw.run (hw.held.mem_owned.mpr (.inl ha))
    exact hr ▸ rfl

theorem Inv.unfreed (h : s.Inv) (hnil : s.nodes = []) : s.run.live = ∅ ∧ s.run.tree.numUnfreedNodes = 0 := by
  have hnone : s.run.owned.val = s.nodes + 0 := h.held.owned
  rw [hnil] at hnone
  have howned : s.run.owned = ∅ := Finset.val_eq_zero.mp hnone
  obtain ⟨_, _, F, _⟩ := h.run
  have hlive : s.run.live = ∅ := Forest.live_eq_empty (howned ▸ F)
  have hcard : s.run.live.card < 2 ^ 31 := by
    rw [hlive]
    exact Nat.two_pow_pos 31
  exact ⟨hlive, (h.run.sound hcard).unfreed howned⟩

/-- Any solver, any run of `solve`, interrupted or not: no node is read after it has been given back,
and after the return none is left. -/
theorem memory_safe (S : Solver N) (path : N → List D) (c : Container) (d : D) (record : ValueType)
    {st : MemState D} (hr : Reaches (Interruptible S path c) (start S d record) st) :
    st.vars.Safe ∧ ∀ sol s, st = .returned sol s → s.run.tree.numUnfreedNodes = 0 := by
  obtain ⟨hinv, hret⟩ := stateInv_preserved.reaches (start_stateInv d record) hr
  refine ⟨hinv.safe, fun sol s heq => ?_⟩
  subst heq
  have hs : s.Inv := hinv
  exact (hs.unfreed (hret sol s rfl)).2

/-- The search tree with two leaves, when the signal has arrived before the first round. -/
theorem memory_safe_pair :
    let s : MemSearch ℕ :=
      { run := rooted 0, nodes := [(TreeRun.start ℕ).created 0], record := 7, interrupted := true }
    (MemState.clean s).vars.Safe ∧ ∀ sol s', MemState.clean s = .returned sol s' →
      s'.run.tree.numUnfreedNodes = 0 :=
  memory_safe pairSolver pairPath .lifo 0 mVal
    (.tail (.single (.inr (.signal rfl))) (.inl (.leave (.inr rfl))))

/-! ### Refinement of the search over the nodes -/

/-- The two searches are at the same point. -/
structure Agrees (S : Solver N) (path : N → List D) (s : MemSearch D) (s' : Search N) : Prop where
  inv : s.Inv
  nodes : List.Forall₂ (fun a x => s.run.ledger.Path a (path x.1)) s.nodes s'.nodes
  explored : ∀ x ∈ s'.nodes, S.Explored x.1
  record : s.record = s'.record
  sol : s.sol = s'.sol
  interrupted : s.interrupted = s'.interrupted

/-- `Agrees` for the points of `solve`. -/
inductive Refines (S : Solver N) (path : N → List D) : MemState D → BnbState N → Prop
  | search {s : MemSearch D} {s' : Search N} (h : Agrees S path s s') : Refines S path (.search s) (.search s')
  | clean {s : MemSearch D} {s' : Search N} (h : Agrees S path s s') : Refines S path (.clean s) (.clean s')
  | returned {sol : Solution} {s : MemSearch D} {s' : Search N} (h : Agrees S path s s') (hnil : s.nodes = []) :
      Refines S path (.returned sol s) (.returned sol s')

namespace Agrees

variable {s' : Search N} {node : ℕ → N} {n : N} {i : ℕ} {rest' : List (N × ℕ)}

omit [SetData D] in
/-- What the open addresses stand for is determined. -/
theorem node_eq (h : Agrees S path s s') (hinj : Function.Injective path) (hnode : Stands path s.run s.nodes node) :
    List.Forall₂ (fun a x => s.run.ledger.Path a (path x.1) ∧ node a = x.1) s.nodes s'.nodes := by
  refine h.nodes.with_mem.imp fun a x hax => ⟨hax.2, hinj ?_⟩
  exact ((h.inv.run.reads_iff (h.inv.live hax.1.1)).mp (hnode a hax.1.1)).unique hax.2

omit [SetData D] in
/-- Every open address stands for a node. -/
theorem exists_node (h : Agrees S path s s') : ∃ node : ℕ → N, Stands path s.run s.nodes node := by
  have hall : ∀ a, ∃ n, a ∈ s.nodes → s.run.mem.Reads a (path n) := fun a => by
    by_cases ha : a ∈ s.nodes
    · obtain ⟨x, _, hpath⟩ := h.nodes.exists_right ha
      exact ⟨x.1, fun _ => (h.inv.run.reads_iff (h.inv.live ha)).mpr hpath⟩
    · exact ⟨S.initialNode, fun hmem => absurd hmem ha⟩
  choose node hnode using hall
  exact ⟨node, hnode⟩

/-- A round on both sides. -/
theorem body (h : Agrees S path s s') (hp : s.nodes.Perm (a :: rest)) (hp' : s'.nodes.Perm ((n, i) :: rest'))
    (hrest : List.Forall₂ (fun a x => s.run.ledger.Path a (path x.1)) rest rest') {w : Work D} {new : List ℕ}
    {run : TreeRun D} (hwork : Reaches (Work.Step a) { run := s.run } w) (hperm : w.nodes.Perm new)
    (hnew : List.Forall₂ (fun x n => w.run.mem.Reads x (path n)) new (S.branch n s.record s.sol).nodes)
    (hr : w.run.release a = some run) :
    Agrees S path { s with
      run
      nodes := Container.pushAll rest new
      record := (S.branch n s.record s.sol).record
      sol := (S.branch n s.record s.sol).sol } (s'.body S n i rest') := by
  have ha : a ∈ s.nodes := hp.mem_iff.mpr List.mem_cons_self
  obtain ⟨hw, hold⟩ := h.inv.work.reaches ha hwork
  have hexp : S.Explored n := h.explored _ (hp'.mem_iff.mpr List.mem_cons_self)
  refine ⟨h.inv.body hp hwork hperm hr _ _, ?_, ?_, ?_, ?_, h.interrupted⟩
  · simp only [Search.body, Container.pushAll_eq, ← h.record, ← h.sol]
    refine List.rel_append (List.rel_reverse ?_) ?_
    · rw [← List.zipIdx_map_fst s'.created (S.branch n s.record s.sol).nodes, List.forall₂_map_right_iff] at hnew
      refine hnew.with_mem.imp fun x m hxm => TreeRun.release_path hr ?_
      exact (hw.run.reads_iff (hw.held.live (.inr (hperm.mem_iff.mpr hxm.1.1)))).mp hxm.2
    · refine hrest.with_mem.imp fun b x hbx => TreeRun.release_path hr ?_
      exact hold b (hp.mem_iff.mpr (List.mem_cons_of_mem _ hbx.1.1)) _ hbx.2
  · intro x hx
    rcases List.mem_append.mp ((Container.pushAll_perm ..).mem_iff.mp hx) with hx | hx
    · exact .child hexp (List.fst_mem_of_mem_zipIdx hx)
    · exact h.explored x (hp'.mem_iff.mpr (List.mem_cons_of_mem _ hx))
  · simp only [Search.body, h.record, h.sol]
  · simp only [Search.body, h.record, h.sol]

theorem drop (h : Agrees S path s s') (hp : s.nodes.Perm (a :: rest)) (hp' : s'.nodes.Perm ((n, i) :: rest'))
    (hrest : List.Forall₂ (fun a x => s.run.ledger.Path a (path x.1)) rest rest') {run : TreeRun D}
    (hr : s.run.release a = some run) : Agrees S path { s with run, nodes := rest } (s'.drop i rest') where
  inv := h.inv.drop hp hr
  nodes := hrest.imp fun _ _ => TreeRun.release_path hr
  explored x hx := h.explored x (hp'.mem_iff.mpr (List.mem_cons_of_mem _ hx))
  record := h.record
  sol := h.sol
  interrupted := h.interrupted

omit [SetData D] in
theorem signal (h : Agrees S path s s') :
    Agrees S path { s with interrupted := true } { s' with interrupted := true } where
  inv := ⟨h.inv.run, h.inv.held⟩
  nodes := h.nodes
  explored := h.explored
  record := h.record
  sol := h.sol
  interrupted := rfl

omit [SetData D] in
theorem nil_iff (h : Agrees S path s s') : s.nodes = [] ↔ s'.nodes = [] := by
  rw [← List.length_eq_zero_iff, ← List.length_eq_zero_iff, h.nodes.length_eq]

end Agrees

/-- Each step on the tree is a step on the nodes. -/
theorem refines_simulates (hinj : Function.Injective path) :
    Simulates (Refines S path) (Interruptible S path c) (Search.Interruptible S c) := by
  rintro st st' t hR (hstep | hsignal)
  · cases hstep with
    | @body s node a rest new w run hi hnode hp hwork hperm hnew _ hr =>
      cases hR with
      | search h =>
        obtain ⟨⟨n, i⟩, rest', hp', ⟨_, hn⟩, hrest⟩ := hp.matched (h.node_eq hinj hnode) fun _ _ => And.right
        obtain rfl : node a = n := hn
        refine ⟨_, .inl (.body (h.interrupted ▸ hi) hp'), .search ?_⟩
        exact h.body hp.perm hp'.perm (hrest.imp fun _ _ => And.left) hwork hperm hnew hr
    | leave hl =>
      cases hR with
      | search h => exact ⟨_, .inl (.leave (hl.imp h.nil_iff.mp h.interrupted.symm.trans)), .clean h⟩
    | drop hnode hp hr =>
      cases hR with
      | clean h =>
        obtain ⟨⟨n, i⟩, rest', hp', _, hrest⟩ := hp.matched (h.node_eq hinj hnode) fun _ _ => And.right
        exact ⟨_, .inl (.drop hp'), .clean (h.drop hp.perm hp'.perm (hrest.imp fun _ _ => And.left) hr)⟩
    | ret hnil =>
      cases hR with
      | clean h => exact ⟨_, .inl (.ret (h.nil_iff.mp hnil)), h.record ▸ .returned h hnil⟩
  · cases hsignal with
    | signal hi =>
      cases hR with
      | search h => exact ⟨_, .inr (.signal (h.interrupted ▸ hi)), .search h.signal⟩

/-- `branch` can make the nodes it has to return, and the search over the tree goes on as long as the one
over the nodes. -/
theorem refined_simulates (P : S.Stored path) :
    Simulates (fun st' st => Refines S path st st') (Search.Interruptible S c) (Interruptible S path c) := by
  rintro st' st t hR (hstep | hsignal)
  · cases hstep with
    | @body s' n i rest' hi hp' =>
      cases hR with
      | @search s _ h =>
        obtain ⟨node, hnode⟩ := h.exists_node
        obtain ⟨a, rest, hp, ⟨hpath, hn⟩, hrest⟩ :=
          hp'.matched (h.node_eq P.injective hnode).flip fun _ _ h => h.2.symm
        obtain rfl : node a = n := hn
        have ha : a ∈ s.nodes := hp.perm.mem_iff.mpr List.mem_cons_self
        have hexp : S.Explored (node a) := h.explored _ (hp'.perm.mem_iff.mpr List.mem_cons_self)
        -- the data of the new nodes
        have hchild : ∀ m, ∃ d, m ∈ (S.branch (node a) s.record s.sol).nodes → path m = d :: path (node a) :=
          fun m => by
          by_cases hm : m ∈ (S.branch (node a) s.record s.sol).nodes
          · obtain ⟨d, hd⟩ := P.child hexp _ _ m hm
            exact ⟨d, fun _ => hd⟩
          · exact ⟨default, fun hmem => absurd hmem hm⟩
        choose data hdata using hchild
        obtain ⟨w₁, hr₁, hw₁, hnodes₁, hrel₁, hold₁⟩ :=
          h.inv.work.exists_released ha (S.branch (node a) s.record s.sol).released.length
        obtain ⟨w, new, hr₂, hw, hperm, hrel, hnew, _⟩ := hw₁.exists_kept ha (hold₁ a ha _ hpath)
          ((S.branch (node a) s.record s.sol).nodes.map data)
        rw [hnodes₁, List.append_nil] at hperm
        rw [List.forall₂_map_right_iff] at hnew
        obtain ⟨run, hr, _⟩ := TreeRun.release_spec hw.run (hw.held.mem_owned.mpr (.inl ha))
        have hreads : List.Forall₂ (fun x m => w.run.mem.Reads x (path m)) new
            (S.branch (node a) s.record s.sol).nodes :=
          hnew.with_mem.imp fun x m hxm =>
            (hw.run.reads_iff (hw.held.live (.inr (hperm.mem_iff.mpr hxm.1.1)))).mpr (hdata m hxm.1.2 ▸ hxm.2)
        refine ⟨_, .inl (.body (h.interrupted.symm ▸ hi) hnode hp (hr₁.trans hr₂) hperm hreads ?_ hr), .search ?_⟩
        · rw [hrel, hrel₁, Nat.zero_add]
        · exact h.body hp.perm hp'.perm (hrest.imp fun _ _ => And.left).flip (hr₁.trans hr₂) hperm hreads hr
    | leave hl =>
      cases hR with
      | search h => exact ⟨_, .inl (.leave (hl.imp h.nil_iff.mpr h.interrupted.trans)), .clean h⟩
    | drop hp' =>
      cases hR with
      | clean h =>
        obtain ⟨node, hnode⟩ := h.exists_node
        obtain ⟨a, rest, hp, _, hrest⟩ := hp'.matched (h.node_eq P.injective hnode).flip fun _ _ h => h.2.symm
        have ha : a ∈ _ := hp.perm.mem_iff.mpr List.mem_cons_self
        obtain ⟨run, hr, _⟩ := TreeRun.release_spec h.inv.run (h.inv.mem_owned ha)
        exact ⟨_, .inl (.drop hnode hp hr), .clean (h.drop hp.perm hp'.perm (hrest.imp fun _ _ => And.left).flip hr)⟩
    | ret hnil =>
      cases hR with
      | clean h =>
        exact ⟨_, .inl (.ret (h.nil_iff.mpr hnil)), h.record ▸ .returned h (h.nil_iff.mpr hnil)⟩
  · cases hsignal with
    | signal hi =>
      cases hR with
      | search h => exact ⟨_, .inr (.signal (h.interrupted.symm ▸ hi)), .search h.signal⟩

theorem start_refines {d : D} (hrank : S.rank > minRankValue) (hroot : path S.initialNode = [d])
    (record : ValueType) : Refines S path (start S d record) (serialStart S record) := by
  rw [start, serialStart, if_pos hrank, if_pos hrank]
  obtain ⟨hinv, hheld, hpath⟩ := rooted_spec d
  refine .search ⟨⟨hinv, hheld⟩, .cons (hroot ▸ hpath) .nil, ?_, rfl, rfl, rfl⟩
  rintro x hx
  obtain rfl := List.mem_singleton.mp hx
  exact .root

/-- What a search over the nodes does, the search over the tree does. -/
theorem correct_of_refines {s' : BnbState N} {post : BnbState N → Prop} (P : S.Stored path)
    (hR : Refines S path st s') (hs' : TotallyCorrect (Search.Interruptible S c) s' post) :
    TotallyCorrect (Interruptible S path c) st fun st => ∃ s', Refines S path st s' ∧ post s' :=
  .of_simulates (refines_simulates P.injective) (refined_simulates P) hR (fun _ s' h hpost => ⟨s', h, hpost⟩) hs'

/-- The end of a search over the tree. -/
theorem Refines.freed {sol : Solution} {s' : Search N} (h : Refines S path st (.returned sol s')) :
    ∃ s, st = .returned sol s ∧ s.interrupted = s'.interrupted ∧ s.run.live = ∅ ∧
      s.run.tree.numUnfreedNodes = 0 := by
  cases h with
  | @returned sol s _ h hnil =>
    obtain ⟨hlive, hunfreed⟩ := h.inv.unfreed hnil
    exact ⟨s, rfl, h.interrupted, hlive, hunfreed⟩

/-- `SerialBNB::solve` over the reference counted tree, interrupted at any point or not: every run ends with
no node left in the tree, so that the `CHECK` after the loops passes, and with the value that the search over
the nodes themselves returns. -/
theorem serial_memory_correct {X : Type*} {cost : X → ValueType} {sols : N → Set X} (C : S.Contract cost sols)
    (P : S.Stored path) (hrank : S.rank > minRankValue) {d : D} (hroot : path S.initialNode = [d]) (c : Container)
    (record : ValueType) :
    TotallyCorrect (Interruptible S path c) (start S d record) fun st => ∃ sol s, st = .returned sol s ∧
      sol.route = [] ∧ s.run.live = ∅ ∧ s.run.tree.numUnfreedNodes = 0 ∧
      S.Salvaged cost sols (min record S.initialSolution.value) s.interrupted sol.value := by
  have hserial := correct_of_refines P (start_refines hrank hroot record) (serial_interrupted C hrank c record)
  refine hserial.mono fun st hst => ?_
  obtain ⟨_, hR, v, sol, s', rfl, rfl, ⟨_, _, heq, _, hroute, _⟩, hsalvaged⟩ := hst
  obtain ⟨rfl, rfl⟩ := BnbState.returned.inj heq
  obtain ⟨s, rfl, hi, hlive, hunfreed⟩ := hR.freed
  exact ⟨sol, s, rfl, hroute, hlive, hunfreed, hi ▸ hsalvaged⟩

theorem serial_memory_correct_pair :
    TotallyCorrect (Interruptible pairSolver pairPath .priority) (start pairSolver 0 mVal) fun st => ∃ sol s,
      st = .returned sol s ∧ sol.route = [] ∧ s.run.live = ∅ ∧ s.run.tree.numUnfreedNodes = 0 ∧
      pairSolver.Salvaged pairCost pairSols (min mVal pairSolver.initialSolution.value) s.interrupted sol.value :=
  serial_memory_correct pairSolver_contract pairPath_stored (by decide) rfl .priority mVal

end MemSearch

end Optimer
