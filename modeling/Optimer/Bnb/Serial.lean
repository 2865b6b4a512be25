import Mathlib.Data.List.Perm.Basic
import Mathlib.Data.Prod.Lex
import Mathlib.Order.WellFounded
import Optimer.Bnb.Solver

/-! The one-thread loops `SerialBNB::solve` and `SimpleBNB::solve`, with the containers they keep
the open nodes in. Every node carries the number of the `create_node` call that made it, so that
releases can be counted. -/

namespace Optimer
open Transition

/-- `LifoContainer` and `PriorityContainer`. -/
inductive Container
  | lifo
  | priority
  deriving DecidableEq

namespace Container

variable {N α : Type*} {S : Solver N} {node : α → N} {c : Container} {l rest : List α} {a : α}

/-- `top()` and `pop()` take `a` and leave `rest`. A priority queue hands out any node that no other
one precedes; nothing is assumed of the way it breaks ties. -/
def Pop (c : Container) (S : Solver N) (node : α → N) (l : List α) (a : α) (rest : List α) : Prop :=
  match c with
  | lifo => l = a :: rest
  | priority => l.Perm (a :: rest) ∧ ∀ b ∈ rest, ¬ S.less (node a) (node b)

/-- The loop that pushes `tmp_nodes`. -/
def pushAll (l new : List α) : List α := new.foldl (fun l a => a :: l) l

theorem pushAll_eq (l new : List α) : pushAll l new = new.reverse ++ l := by
  induction new generalizing l with
  | nil => rfl
  | cons a new ih =>
    rw [pushAll, List.foldl_cons, ← pushAll, ih, List.reverse_cons, List.append_assoc]
    rfl

theorem pushAll_perm (l new : List α) : (pushAll l new).Perm (new ++ l) := by
  rw [pushAll_eq]
  exact (List.reverse_perm new).append_right l

theorem Pop.perm (h : c.Pop S node l a rest) : l.Perm (a :: rest) := by
  cases c with
  | lifo => exact .of_eq h
  | priority => exact h.1

theorem Pop.ne_nil (h : c.Pop S node l a rest) : l ≠ [] := by
  rintro rfl
  exact absurd h.perm.length_eq (by simp)

/-- A finite list has an element that none of the others precedes. -/
theorem exists_maximal (S : Solver N) (node : α → N) (hl : l ≠ []) :
    ∃ a rest, l.Perm (a :: rest) ∧ ∀ b ∈ rest, ¬ S.less (node a) (node b) := by
  induction l with
  | nil => exact absurd rfl hl
  | cons a l ih =>
    by_cases hnil : l = []
    · exact ⟨a, [], by rw [hnil], by simp⟩
    obtain ⟨m, rest, hp, hmax⟩ := ih hnil
    by_cases hless : S.less (node m) (node a)
    · refine ⟨a, l, .refl _, fun b hb hab => ?_⟩
      rcases List.mem_cons.mp (hp.mem_iff.mp hb) with rfl | hb
      · exact S.less_irrefl _ (S.less_trans hless hab)
      · exact hmax b hb (S.less_trans hless hab)
    · refine ⟨m, a :: rest, (hp.cons a).trans (.swap m a rest), ?_⟩
      exact List.forall_mem_cons.mpr ⟨hless, hmax⟩

theorem exists_pop (c : Container) (S : Solver N) (node : α → N) (hl : l ≠ []) :
    ∃ a rest, c.Pop S node l a rest := by
  cases c with
  | lifo =>
    obtain ⟨a, rest, h⟩ := List.exists_cons_of_ne_nil hl
    exact ⟨a, rest, h⟩
  | priority => exact exists_maximal S node hl

end Container

/-- The local variables of `solve` once the search tree exists. -/
structure Search (N : Type*) where
  nodes : List (N × ℕ)
  record : ValueType
  sol : Solution := {}
  interrupted : Bool := false
  /-- The number of `create_node` calls, and the nodes released so far. -/
  created : ℕ
  released : List ℕ

/-- A point of `solve`: the loop, the cleaning loop after it, and after the return. -/
inductive BnbState (N : Type*)
  | search (s : Search N)
  | clean (s : Search N)
  | returned (sol : Solution) (s : Search N)

namespace Search

variable {N X : Type*} {S : Solver N} {c : Container} {s : Search N} {n : N} {i : ℕ}
  {rest : List (N × ℕ)}

/-- The body of the loop, on the node `(n, i)` taken from the container. -/
def body (S : Solver N) (s : Search N) (n : N) (i : ℕ) (rest : List (N × ℕ)) : Search N :=
  let b := S.branch n s.record s.sol
  { s with
    record := b.record
    sol := b.sol
    nodes := Container.pushAll rest (b.nodes.zipIdx s.created)
    created := s.created + b.nodes.length + b.released.length
    released := i :: (List.range' (s.created + b.nodes.length) b.released.length ++ s.released) }

/-- The body of the cleaning loop. -/
def drop (s : Search N) (i : ℕ) (rest : List (N × ℕ)) : Search N :=
  { s with nodes := rest, released := i :: s.released }

/-- The program steps of `solve`. -/
inductive Step (S : Solver N) (c : Container) : BnbState N → BnbState N → Prop
  | body {s : Search N} {n i rest} (hi : s.interrupted = false)
      (hp : c.Pop S Prod.fst s.nodes (n, i) rest) : Step S c (.search s) (.search (s.body S n i rest))
  | leave {s : Search N} (h : s.nodes = [] ∨ s.interrupted = true) :
      Step S c (.search s) (.clean s)
  | drop {s : Search N} {n i rest} (hp : c.Pop S Prod.fst s.nodes (n, i) rest) :
      Step S c (.clean s) (.clean (s.drop i rest))
  | ret {s : Search N} (h : s.nodes = []) :
      Step S c (.clean s) (.returned { value := s.record, route := [] } s)

/-- Every node created is in the container or has been released, each once. -/
def Balanced (s : Search N) : Prop :=
  (s.nodes.map Prod.snd ++ s.released).Perm (List.range s.created)

theorem Balanced.body (h : s.Balanced) (hp : s.nodes.Perm ((n, i) :: rest)) :
    (s.body S n i rest).Balanced := by
  have hold : (i :: (rest.map Prod.snd ++ s.released)).Perm (List.range s.created) := by
    refine .trans ?_ h
    simpa using ((hp.map Prod.snd).append_right s.released).symm
  simp only [Balanced, Search.body]
  generalize S.branch n s.record s.sol = b
  have hpush := ((Container.pushAll_perm rest (b.nodes.zipIdx s.created)).map Prod.snd)
  simp only [List.map_append, List.zipIdx_map_snd] at hpush
  set new := List.range' s.created b.nodes.length
  set gone := List.range' (s.created + b.nodes.length) b.released.length
  have hrange : (List.range s.created ++ (new ++ gone)).Perm
      (List.range (s.created + b.nodes.length + b.released.length)) := by
    have happend := List.range'_append_1 (s := 0) (m := s.created)
      (n := b.nodes.length + b.released.length)
    rw [Nat.zero_add] at happend
    rw [Nat.add_assoc, List.range_eq_range', List.range_eq_range', List.range'_append_1, happend]
  refine .trans ?_ hrange
  refine .trans ?_ (hold.append_right _)
  refine (hpush.append_right _).trans ?_
  rw [← Multiset.coe_eq_coe]
  simp only [← Multiset.coe_add, ← Multiset.cons_coe, ← Multiset.singleton_add]
  ac_rfl

theorem Balanced.drop (h : s.Balanced) (hp : s.nodes.Perm ((n, i) :: rest)) :
    (s.drop i rest).Balanced := by
  refine .trans ?_ h
  refine .trans ?_ ((hp.map Prod.snd).append_right s.released).symm
  simp [Search.drop]

/-! ### Every run of the loop -/

/-- What holds of an uninterrupted run at every point. -/
def Inv (S : Solver N) (cost : X → ValueType) (sols : N → Set X) (init : ValueType) :
    BnbState N → Prop
  | .search s => s.interrupted = false ∧ s.Balanced ∧
      S.Frontier cost sols init (s.nodes.map Prod.fst) s.record
  | .clean s => s.interrupted = false ∧ s.Balanced ∧ s.nodes = [] ∧
      S.Optimal cost sols init s.record
  | .returned sol s => s.released.Perm (List.range s.created) ∧ sol.route = [] ∧
      S.Optimal cost sols init sol.value

variable {cost : X → ValueType} {sols : N → Set X} {init : ValueType}

theorem pushAll_nodes (S : Solver N) (s : Search N) (n : N) (i : ℕ) (rest : List (N × ℕ)) :
    ((s.body S n i rest).nodes.map Prod.fst).Perm
      ((S.branch n s.record s.sol).nodes ++ rest.map Prod.fst) := by
  have h := (Container.pushAll_perm rest
    ((S.branch n s.record s.sol).nodes.zipIdx s.created)).map Prod.fst
  rwa [List.map_append, List.zipIdx_map_fst] at h

theorem inv_preserved (C : S.Contract cost sols) :
    Preserved (Step S c) (Inv S cost sols init) := by
  intro st st' hinv hstep
  cases hstep with
  | body _ hp =>
    obtain ⟨hi, hb, F⟩ := hinv
    have hperm := hp.perm.map Prod.fst
    refine ⟨hi, hb.body hp.perm, ?_⟩
    exact ((F.perm hperm).branch C _).perm (pushAll_nodes ..).symm
  | leave h =>
    obtain ⟨hi, hb, F⟩ := hinv
    have hnil := h.resolve_right (by simp [hi])
    rw [hnil] at F
    exact ⟨hi, hb, hnil, F.optimal⟩
  | drop hp =>
    exact absurd hinv.2.2.1 hp.ne_nil
  | ret h =>
    obtain ⟨hi, hb, hnil, hopt⟩ := hinv
    rw [Balanced, hnil] at hb
    exact ⟨hb, rfl, hopt⟩

/-- The nodes still to be searched, then the phase, get smaller. -/
def measure : BnbState N → ℕ × Multiset N
  | .search s => (2, (s.nodes.map Prod.fst : List N))
  | .clean _ => (1, 0)
  | .returned _ _ => (0, 0)

/-- The order of `measure`. -/
abbrev Smaller (S : Solver N) : ℕ × Multiset N → ℕ × Multiset N → Prop :=
  Prod.Lex (· < ·) (Relation.CutExpand S.Child)

theorem smaller_wf (C : S.Contract cost sols) : WellFounded (Smaller S) :=
  WellFounded.prod_lex wellFounded_lt C.finite.cutExpand

theorem measure_smaller {st st' : BnbState N} (hinv : Inv S cost sols init st)
    (hstep : Step S c st st') : Smaller S (measure st') (measure st) := by
  cases hstep with
  | body _ hp =>
    obtain ⟨_, _, F⟩ := hinv
    have hperm := hp.perm.map Prod.fst
    have hexp : S.Explored _ := F.explored _ (hperm.mem_iff.mpr List.mem_cons_self)
    refine .right _ ?_
    rw [Multiset.coe_eq_coe.mpr (pushAll_nodes ..)]
    exact cutExpand_of_perm hperm fun m hm => ⟨hexp, _, _, hm⟩
  | leave => exact .left _ _ (by decide)
  | drop hp =>
    exact absurd hinv.2.2.1 hp.ne_nil
  | ret => exact .left _ _ (by decide)

/-- A run only stops after the return. -/
theorem returned_of_stuck {st : BnbState N} (h : Stuck (Step S c) st) :
    ∃ sol s, st = .returned sol s := by
  cases st with
  | search s =>
    by_cases hl : s.nodes = [] ∨ s.interrupted = true
    · exact absurd (.leave hl) (h _)
    · obtain ⟨hne, hi⟩ := not_or.mp hl
      obtain ⟨⟨n, i⟩, rest, hp⟩ := c.exists_pop S Prod.fst hne
      exact absurd (.body (Bool.not_eq_true _ ▸ hi) hp) (h _)
  | clean s =>
    by_cases hl : s.nodes = []
    · exact absurd (.ret hl) (h _)
    · obtain ⟨⟨n, i⟩, rest, hp⟩ := c.exists_pop S Prod.fst hl
      exact absurd (.drop hp) (h _)
  | returned sol s => exact ⟨sol, s, rfl⟩

/-- The return of the value `v` with every created node released exactly once. -/
def Returns (v : ValueType) (st : BnbState N) : Prop :=
  ∃ sol s, st = .returned sol s ∧ sol.value = v ∧ sol.route = [] ∧
    s.released.Perm (List.range s.created)

/-- The loop from one open root node. -/
theorem search_correct (C : S.Contract cost sols) (c : Container) {s : Search N}
    (hs : Inv S cost sols init (.search s)) :
    TotallyCorrect (Step S c) (.search s)
      fun st => ∃ v, S.Optimal cost sols init v ∧ Returns v st := by
  refine totallyCorrect_of_measure (smaller_wf C) measure (inv_preserved C)
    (fun _ _ => measure_smaller) hs fun st hinv hstuck => ?_
  obtain ⟨sol, s, rfl⟩ := returned_of_stuck hstuck
  obtain ⟨hrel, hroute, hopt⟩ := hinv
  exact ⟨_, hopt, sol, s, rfl, rfl, hroute, hrel⟩

end Search

/-! ### The two entry points -/

variable {N X : Type*} {S : Solver N} {cost : X → ValueType} {sols : N → Set X}
  {record : ValueType} {c : Container}

/-- The search before its first round; the root is node number `0`. -/
def Search.init (S : Solver N) (record : ValueType) : Search N where
  nodes := [(S.initialNode, 0)]
  record := record
  created := 1
  released := []

/-- `MIN_RANK_VALUE`. -/
def minRankValue : ℕ := 2

/-- `SerialBNB::solve` up to its loop. -/
def serialStart (S : Solver N) (record : ValueType) : BnbState N :=
  if S.rank > minRankValue then
    .search (.init S (if record > S.initialSolution.value then S.initialSolution.value else record))
  else .returned { value := record, route := [] }
    { nodes := [], record := record, created := 0, released := [] }

/-- `SimpleBNB::solve` up to its loop; the record argument is replaced. -/
def simpleStart (S : Solver N) (record : ValueType) : BnbState N :=
  if S.rank > minRankValue then .search (.init S S.initialSolution.value)
  else .returned { value := record, route := [] }
    { nodes := [], record := record, created := 0, released := [] }

theorem serialStart_eq (hrank : S.rank > minRankValue) (hlt : S.initialSolution.value < mVal) :
    serialStart S mVal = .search (.init S S.initialSolution.value) := by
  rw [serialStart, if_pos hrank, if_pos hlt]

theorem Search.init_inv : Search.Inv S cost sols record (.search (.init S record)) :=
  ⟨rfl, .refl _, .start⟩

/-- `SerialBNB::solve` returns the least of the record argument, the initial solution and the
optimum of the root. -/
theorem serial_correct (C : S.Contract cost sols) (hrank : S.rank > minRankValue) (c : Container)
    (record : ValueType) : TotallyCorrect (Search.Step S c) (serialStart S record)
      fun st => ∃ v, S.Optimal cost sols (min record S.initialSolution.value) v ∧
        Search.Returns v st := by
  have hmin : (if record > S.initialSolution.value then S.initialSolution.value else record) =
      min record S.initialSolution.value := by
    split
    · next h => exact (min_eq_right h.le).symm
    · next h => exact (min_eq_left (not_lt.mp h)).symm
  rw [serialStart, if_pos hrank, hmin]
  exact Search.search_correct C c Search.init_inv

/-- `SimpleBNB::solve` returns the least of the initial solution and the optimum of the root. -/
theorem simple_correct (C : S.Contract cost sols) (hrank : S.rank > minRankValue) (record : ValueType) :
    TotallyCorrect (Search.Step S .lifo) (simpleStart S record)
      fun st => ∃ v, S.Optimal cost sols S.initialSolution.value v ∧ Search.Returns v st := by
  rw [simpleStart, if_pos hrank]
  exact Search.search_correct C .lifo Search.init_inv

/-- The loops agree: with the default record and either container, each run of `SerialBNB` and of
`SimpleBNB` ends, with the same value and every node released exactly once. -/
theorem serial_simple_agree (C : S.Contract cost sols) (hrank : S.rank > minRankValue)
    (hinit : S.initialSolution.value ≤ mVal) :
    ∃ v, S.Optimal cost sols S.initialSolution.value v ∧
      (∀ c, TotallyCorrect (Search.Step S c) (serialStart S mVal) (Search.Returns v)) ∧
      TotallyCorrect (Search.Step S .lifo) (simpleStart S mVal) (Search.Returns v) := by
  have hsimple := simple_correct C hrank mVal
  obtain ⟨_, _, _, v, hv, _⟩ := hsimple.exists_end
  have hserial := fun c => serial_correct C hrank c mVal
  rw [min_eq_right hinit] at hserial
  exact ⟨v, hv, fun c => (hserial c).mono fun st ⟨w, hw, hr⟩ => hv.unique hw ▸ hr,
    hsimple.mono fun st ⟨w, hw, hr⟩ => hv.unique hw ▸ hr⟩

/-- The two-leaf search meets the contract, and every loop returns its optimum. -/
theorem pairSolver_agree :
    ∃ v, pairSolver.Optimal pairCost pairSols 7 v ∧
      (∀ c, TotallyCorrect (Search.Step pairSolver c) (serialStart pairSolver mVal)
        (Search.Returns v)) ∧
      TotallyCorrect (Search.Step pairSolver .lifo) (simpleStart pairSolver mVal)
        (Search.Returns v) :=
  serial_simple_agree pairSolver_contract (by decide) (by decide)

end Optimer
