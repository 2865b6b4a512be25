import Optimer.Bnb.Serial

/-! `SerialBNB::solve` and `SimpleBNB::solve` when a signal arrives during the search. The loop is left
early, the cleaning loop releases what is open, and the record so far is returned. -/

namespace Optimer
open Transition

variable {N X : Type*} {S : Solver N} {cost : X → ValueType} {sols : N → Set X} {init v w : ValueType}

/-- A value that a search returns which may have been stopped: that of a solution, or the one it started
from. -/
structure Solver.Salvaged (S : Solver N) (cost : X → ValueType) (sols : N → Set X) (init : ValueType)
    (interrupted : Bool) (v : ValueType) : Prop where
  attained : v = init ∨ ∃ x ∈ sols S.initialNode, cost x = v
  le_init : v ≤ init
  optimal : interrupted = false → S.Optimal cost sols init v

namespace Solver.Salvaged

variable {interrupted : Bool}

/-- It never undercuts the optimum. -/
theorem optimal_le (h : S.Salvaged cost sols init interrupted v) (hw : S.Optimal cost sols init w) : w ≤ v := by
  refine hw.2 ?_
  rcases h.attained with rfl | ⟨x, hx, hc⟩
  · exact .inl rfl
  · exact .inr ⟨x, hx, hc⟩

theorem of_frontier {opened : List N} (F : S.Frontier cost sols init opened v)
    (h : interrupted = false → opened = []) : S.Salvaged cost sols init interrupted v where
  attained := F.attained
  le_init := F.le_init
  optimal hi := (h hi ▸ F).optimal

end Solver.Salvaged

namespace Search

variable {c : Container} {record : ValueType} {s : Search N} {st st' : BnbState N}

/-- `SIGINT` or `SIGTERM`. A second signal changes nothing, and after the loop the flag is not read. -/
inductive Signal : BnbState N → BnbState N → Prop
  | signal {s : Search N} (hi : s.interrupted = false) :
      Signal (.search s) (.search { s with interrupted := true })

/-- A step of a run during which the signal may arrive. -/
def Interruptible (S : Solver N) (c : Container) (st st' : BnbState N) : Prop :=
  Step S c st st' ∨ Signal st st'

/-- What holds of a run at every point, interrupted or not. -/
def Kept (S : Solver N) (cost : X → ValueType) (sols : N → Set X) (init : ValueType) : BnbState N → Prop
  | .search s => s.Balanced ∧ S.Frontier cost sols init (s.nodes.map Prod.fst) s.record
  | .clean s => s.Balanced ∧ S.Salvaged cost sols init s.interrupted s.record
  | .returned sol s => s.released.Perm (List.range s.created) ∧ sol.route = [] ∧
      S.Salvaged cost sols init s.interrupted sol.value

theorem kept_preserved (C : S.Contract cost sols) :
    Preserved (Interruptible S c) (Kept S cost sols init) := by
  intro st st' hinv hstep
  rcases hstep with hstep | hsignal
  · cases hstep with
    | body _ hp =>
      obtain ⟨hb, F⟩ := hinv
      refine ⟨hb.body hp.perm, ?_⟩
      exact ((F.perm (hp.perm.map Prod.fst)).branch C _).perm (pushAll_nodes ..).symm
    | leave h =>
      obtain ⟨hb, F⟩ := hinv
      refine ⟨hb, .of_frontier F fun hi => ?_⟩
      rw [h.resolve_right (by simp [hi]), List.map_nil]
    | drop hp => exact ⟨hinv.1.drop hp.perm, hinv.2⟩
    | ret h =>
      obtain ⟨hb, hsalvaged⟩ := hinv
      rw [Balanced, h] at hb
      exact ⟨hb, rfl, hsalvaged⟩
  · cases hsignal with
    | signal => exact hinv

/-- The phase, with the loop before and after the signal as two, then the nodes still to be taken. -/
def interruptMeasure : BnbState N → ℕ × Multiset N
  | .search s => (if s.interrupted then 2 else 3, (s.nodes.map Prod.fst : List N))
  | .clean s => (1, (s.nodes.map Prod.fst : List N))
  | .returned _ _ => (0, 0)

theorem interruptMeasure_smaller (hinv : Kept S cost sols init st) (hstep : Interruptible S c st st') :
    Smaller S (interruptMeasure st') (interruptMeasure st) := by
  rcases hstep with hstep | hsignal
  · cases hstep with
    | body hi hp =>
      obtain ⟨_, F⟩ := hinv
      have hperm := hp.perm.map Prod.fst
      have hexp : S.Explored _ := F.explored _ (hperm.mem_iff.mpr List.mem_cons_self)
      refine .right _ ?_
      rw [Multiset.coe_eq_coe.mpr (pushAll_nodes ..)]
      exact cutExpand_of_perm hperm fun m hm => ⟨hexp, _, _, hm⟩
    | leave =>
      refine .left _ _ ?_
      split <;> decide
    | @drop s n i rest hp =>
      have hcut : Relation.CutExpand S.Child (([] ++ rest.map Prod.fst : List N) : Multiset N)
          (s.nodes.map Prod.fst : List N) := cutExpand_of_perm (hp.perm.map Prod.fst) (by simp)
      exact .right _ hcut
    | ret => exact .left _ _ (by decide)
  · cases hsignal with
    | signal hi =>
      refine .left _ _ ?_
      simp [hi]

/-- A run that may be interrupted at any point ends, with every node released once. -/
theorem interruptible_correct (C : S.Contract cost sols) (c : Container) (hst : Kept S cost sols init st) :
    TotallyCorrect (Interruptible S c) st fun st => ∃ v sol s, st = .returned sol s ∧ sol.value = v ∧
      Returns v st ∧ S.Salvaged cost sols init s.interrupted v := by
  refine totallyCorrect_of_measure (smaller_wf C) interruptMeasure (kept_preserved C)
    (fun _ _ => interruptMeasure_smaller) hst fun st hinv hstuck => ?_
  obtain ⟨sol, s, rfl⟩ := returned_of_stuck fun t ht => hstuck t (.inl ht)
  obtain ⟨hrel, hroute, hsalvaged⟩ := hinv
  exact ⟨_, sol, s, rfl, rfl, ⟨sol, s, rfl, rfl, hroute, hrel⟩, hsalvaged⟩

end Search

theorem serialStart_search (hrank : S.rank > minRankValue) (record : ValueType) :
    serialStart S record = .search (.init S (min record S.initialSolution.value)) := by
  rw [serialStart, if_pos hrank]
  split
  · next h => rw [min_eq_right h.le]
  · next h => rw [min_eq_left (not_lt.mp h)]

theorem serial_interrupted (C : S.Contract cost sols) (hrank : S.rank > minRankValue) (c : Container)
    (record : ValueType) : TotallyCorrect (Search.Interruptible S c) (serialStart S record) fun st =>
      ∃ v sol s, st = .returned sol s ∧ sol.value = v ∧ Search.Returns v st ∧
        S.Salvaged cost sols (min record S.initialSolution.value) s.interrupted v := by
  rw [serialStart_search hrank]
  exact Search.interruptible_correct C c ⟨.refl _, .start⟩

/-- Both loops under signals at any points: every run of `SerialBNB::solve` and of `SimpleBNB::solve`
ends, has released every node exactly once, and returns the value it started from or that of a solution;
without a signal during the loop this is the optimum. -/
theorem serial_simple_interrupted (C : S.Contract cost sols) (hrank : S.rank > minRankValue)
    (record : ValueType) :
    (∀ c, TotallyCorrect (Search.Interruptible S c) (serialStart S record) fun st =>
      ∃ v sol s, st = .returned sol s ∧ sol.value = v ∧ Search.Returns v st ∧
        S.Salvaged cost sols (min record S.initialSolution.value) s.interrupted v) ∧
    TotallyCorrect (Search.Interruptible S .lifo) (simpleStart S record) fun st =>
      ∃ v sol s, st = .returned sol s ∧ sol.value = v ∧ Search.Returns v st ∧
        S.Salvaged cost sols S.initialSolution.value s.interrupted v := by
  constructor
  · exact fun c => serial_interrupted C hrank c record
  · rw [simpleStart, if_pos hrank]
    exact Search.interruptible_correct C .lifo ⟨.refl _, .start⟩

/-- The search tree with two leaves, interrupted or not. -/
theorem pairSolver_interrupted :
    (∀ c, TotallyCorrect (Search.Interruptible pairSolver c) (serialStart pairSolver mVal) fun st =>
      ∃ v sol s, st = .returned sol s ∧ sol.value = v ∧ Search.Returns v st ∧
        pairSolver.Salvaged pairCost pairSols (min mVal pairSolver.initialSolution.value) s.interrupted v) ∧
    TotallyCorrect (Search.Interruptible pairSolver .lifo) (simpleStart pairSolver mVal) fun st =>
      ∃ v sol s, st = .returned sol s ∧ sol.value = v ∧ Search.Returns v st ∧
        pairSolver.Salvaged pairCost pairSols pairSolver.initialSolution.value s.interrupted v :=
  serial_simple_interrupted pairSolver_contract (by decide) mVal

end Optimer
