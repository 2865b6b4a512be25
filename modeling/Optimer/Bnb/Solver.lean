import Mathlib.Data.Rat.Defs
import Mathlib.Algebra.Order.Ring.Rat
import Mathlib.Order.Bounds.Basic
import Mathlib.Data.List.Nodup
import Optimer.Lib.Transition

/-! What the branch-and-bound loops use of a `Solver`, and the contract that makes them exact. -/

namespace Optimer

/-- `value_type`, in exact arithmetic. -/
abbrev ValueType := ℚ

/-- `M_VAL`, the value of the C++ literal `1e16f`. -/
def mVal : ValueType := 10000000272564224

/-- `Solver::Solution`. -/
structure Solution where
  value : ValueType := 0
  route : List ℕ := []
  deriving DecidableEq, Repr

/-- What one call of `branch` gives back: the record and the solution it was passed by reference,
the nodes it appended to `nodes`, and those it created and released itself. -/
structure Branched (N : Type*) where
  record : ValueType
  sol : Solution
  nodes : List N
  released : List N

/-- A solver after `init(data, search_tree)`. A node stands for itself and its ancestors; `less` is
`Set::operator<`, a strict order as the priority queue requires. -/
structure Solver (N : Type*) where
  rank : ℕ
  initialNode : N
  initialSolution : Solution
  branch : N → ValueType → Solution → Branched N
  less : N → N → Prop
  less_irrefl : ∀ n, ¬ less n n
  less_trans : ∀ {l m n}, less l m → less m n → less l n

namespace Solver

variable {N X : Type*}

/-- The nodes of the search tree: the root and what `branch` can return on them. -/
inductive Explored (S : Solver N) : N → Prop
  | root : Explored S S.initialNode
  | child {n m : N} {r : ValueType} {sol : Solution} :
      Explored S n → m ∈ (S.branch n r sol).nodes → Explored S m

variable {S : Solver N} {n m : N} {r : ValueType} {sol : Solution}

def Child (S : Solver N) (m n : N) : Prop := S.Explored n ∧ ∃ r sol, m ∈ (S.branch n r sol).nodes

/-- The branch-and-bound contract. `sols n` are the solutions in the set of `n`: a new record is the
smaller cost of a real solution, every solution cheaper than it stays in the set of a returned
node, and the search tree has no infinite path. -/
structure Contract (S : Solver N) (cost : X → ValueType) (sols : N → Set X) : Prop where
  record : ∀ {n}, S.Explored n → ∀ r sol, (S.branch n r sol).record = r ∨
    (S.branch n r sol).record < r ∧ ∃ x ∈ sols S.initialNode, cost x = (S.branch n r sol).record
  cover : ∀ {n}, S.Explored n → ∀ r sol, ∀ x ∈ sols n, cost x < (S.branch n r sol).record →
    ∃ m ∈ (S.branch n r sol).nodes, x ∈ sols m
  finite : WellFounded S.Child

namespace Contract

variable {cost : X → ValueType} {sols : N → Set X}

theorem record_le (C : S.Contract cost sols) (hn : S.Explored n) (r sol) :
    (S.branch n r sol).record ≤ r := by
  rcases C.record hn r sol with h | ⟨h, _⟩
  exacts [h.le, h.le]

end Contract

/-- What a search has to return: the least of the values it starts from and the costs of the
solutions of the root. -/
def Optimal (S : Solver N) (cost : X → ValueType) (sols : N → Set X) (init v : ValueType) : Prop :=
  IsLeast (insert init (cost '' sols S.initialNode)) v

theorem Optimal.unique {cost : X → ValueType} {sols : N → Set X} {init v w : ValueType}
    (h : S.Optimal cost sols init v) (h' : S.Optimal cost sols init w) : v = w :=
  IsLeast.unique h h'

/-- The record during a search and the nodes still open: the record is one of the values
searched for, and a cheaper solution lies in an open node. -/
structure Frontier (S : Solver N) (cost : X → ValueType) (sols : N → Set X) (init : ValueType)
    (opened : List N) (record : ValueType) : Prop where
  explored : ∀ n ∈ opened, S.Explored n
  attained : record = init ∨ ∃ x ∈ sols S.initialNode, cost x = record
  le_init : record ≤ init
  covered : ∀ x ∈ sols S.initialNode, cost x < record → ∃ n ∈ opened, x ∈ sols n

namespace Frontier

variable {cost : X → ValueType} {sols : N → Set X} {init record : ValueType}
  {opened rest : List N}

theorem start : S.Frontier cost sols init [S.initialNode] init where
  explored _ hn := List.mem_singleton.mp hn ▸ .root
  attained := .inl rfl
  le_init := le_rfl
  covered _ hx _ := ⟨S.initialNode, List.mem_singleton_self _, hx⟩

theorem perm (F : S.Frontier cost sols init opened record) (h : opened.Perm rest) :
    S.Frontier cost sols init rest record where
  explored n hn := F.explored n (h.mem_iff.mpr hn)
  attained := F.attained
  le_init := F.le_init
  covered x hx hlt :=
    let ⟨n, hn, hxn⟩ := F.covered x hx hlt
    ⟨n, h.mem_iff.mp hn, hxn⟩

/-- Branching on an open node, with any record that bounds the shared one from above. -/
theorem branch (C : S.Contract cost sols) (F : S.Frontier cost sols init (n :: rest) record)
    (sol : Solution) : S.Frontier cost sols init ((S.branch n record sol).nodes ++ rest)
      (S.branch n record sol).record where
  explored m hm := by
    rcases List.mem_append.mp hm with hm | hm
    · exact .child (F.explored n List.mem_cons_self) hm
    · exact F.explored m (List.mem_cons_of_mem _ hm)
  attained := by
    rcases C.record (F.explored n List.mem_cons_self) record sol with h | ⟨_, h⟩
    · exact h.symm ▸ F.attained
    · exact .inr h
  le_init := (C.record_le (F.explored n List.mem_cons_self) record sol).trans F.le_init
  covered x hx hlt := by
    have hn := F.explored n List.mem_cons_self
    obtain ⟨m, hm, hxm⟩ := F.covered x hx (hlt.trans_le (C.record_le hn record sol))
    rcases List.mem_cons.mp hm with rfl | hm
    · obtain ⟨c, hc, hxc⟩ := C.cover hn record sol x hxm hlt
      exact ⟨c, List.mem_append_left _ hc, hxc⟩
    · exact ⟨m, List.mem_append_right _ hm, hxm⟩

/-- With no open node left the record is optimal. -/
theorem optimal (F : S.Frontier cost sols init [] record) : S.Optimal cost sols init record := by
  refine ⟨F.attained.imp id fun ⟨x, hx, hc⟩ => ⟨x, hx, hc⟩, ?_⟩
  rintro _ (rfl | ⟨x, hx, rfl⟩)
  · exact F.le_init
  · by_contra hlt
    obtain ⟨n, hn, _⟩ := F.covered x hx (not_le.mp hlt)
    exact absurd hn List.not_mem_nil

end Frontier

end Solver

/-! ### A search tree with two leaves -/

def pairCost (b : Bool) : ValueType := if b then 3 else 5

def pairSols : Option Bool → Set Bool
  | none => Set.univ
  | some b => {b}

/-- A root over two solutions of cost `3` and `5`, branched into one node for each. -/
def pairSolver : Solver (Option Bool) where
  rank := 3
  initialNode := none
  initialSolution := { value := 7 }
  branch
    | none, r, sol => { record := r, sol := sol, nodes := [some false, some true], released := [] }
    | some b, r, sol =>
      { record := if pairCost b < r then pairCost b else r, sol := sol, nodes := [],
        released := [] }
  less _ _ := False
  less_irrefl _ h := h
  less_trans h _ := h

theorem pairSolver_contract : pairSolver.Contract pairCost pairSols where
  record {n} _ r sol := by
    cases n with
    | none => exact .inl rfl
    | some b =>
      by_cases h : pairCost b < r
      · have heq : (pairSolver.branch (some b) r sol).record = pairCost b := if_pos h
        exact .inr ⟨heq ▸ h, b, Set.mem_univ b, heq.symm⟩
      · exact .inl (if_neg h)
  cover {n} _ r sol x hx hlt := by
    cases n with
    | none =>
      refine ⟨some x, ?_, rfl⟩
      cases x <;> simp [pairSolver]
    | some b =>
      cases Set.mem_singleton_iff.mp hx
      have hle : (pairSolver.branch (some x) r sol).record ≤ pairCost x := by
        show (if pairCost x < r then pairCost x else r) ≤ pairCost x
        split
        exacts [le_rfl, not_lt.mp ‹_›]
      exact absurd hlt (not_lt.mpr hle)
  finite := by
    refine Subrelation.wf (r := InvImage (· < ·) fun n : Option Bool => if n = none then 1 else 0)
      ?_ (InvImage.wf _ wellFounded_lt)
    rintro m n ⟨_, r, sol, hm⟩
    cases n with
    | none =>
      rcases List.mem_pair.mp hm with rfl | rfl <;> exact Nat.one_pos
    | some b => exact absurd hm List.not_mem_nil

end Optimer
