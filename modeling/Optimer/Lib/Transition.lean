import Mathlib.Logic.Relation
import Mathlib.Logic.Hydra

/-! Runs of a nondeterministic program given by its step relation: reachability, invariants,
termination and total correctness, and the replacement order on worklists. -/

namespace Transition

variable {σ τ : Type*} {step : σ → σ → Prop} {s t : σ} {inv post : σ → Prop}

/-- A run of finitely many steps. -/
abbrev Reaches (step : σ → σ → Prop) : σ → σ → Prop := Relation.ReflTransGen step

/-- No step is left. -/
def Stuck (step : σ → σ → Prop) (s : σ) : Prop := ∀ t, ¬ step s t

/-- Every run from `s` is finite. -/
def Terminates (step : σ → σ → Prop) (s : σ) : Prop := Acc (fun t s => step s t) s

def Preserved (step : σ → σ → Prop) (inv : σ → Prop) : Prop :=
  ∀ ⦃s t⦄, inv s → step s t → inv t

theorem reaches_mono {step' : σ → σ → Prop} (h : ∀ s t, step s t → step' s t)
    (hr : Reaches step s t) : Reaches step' s t :=
  hr.lift id h

theorem Preserved.reaches (h : Preserved step inv) (hs : inv s) (hr : Reaches step s t) :
    inv t := by
  induction hr with
  | refl => exact hs
  | tail _ hstep ih => exact h ih hstep

theorem Terminates.tail (h : Terminates step s) (hr : Reaches step s t) : Terminates step t := by
  induction hr with
  | refl => exact h
  | tail _ hstep ih => exact ih.inv hstep

/-- A terminating program has a run to a state without a step. -/
theorem Terminates.exists_stuck (h : Terminates step s) :
    ∃ t, Reaches step s t ∧ Stuck step t := by
  induction h with
  | intro s _ ih =>
    by_cases hs : Stuck step s
    · exact ⟨s, .refl, hs⟩
    · obtain ⟨u, hu⟩ := not_forall_not.mp hs
      obtain ⟨t, hr, ht⟩ := ih u hu
      exact ⟨t, .head hu hr, ht⟩

/-- Termination by a measure that falls as long as the invariant holds. -/
theorem terminates_of_measure {lt : τ → τ → Prop} (wf : WellFounded lt) (f : σ → τ)
    (hp : Preserved step inv) (hf : ∀ ⦃s t⦄, inv s → step s t → lt (f t) (f s)) (hs : inv s) :
    Terminates step s := by
  generalize hx : f s = x
  induction x using wf.induction generalizing s with
  | _ x ih =>
    subst hx
    exact .intro s fun t ht => ih (f t) (hf hs ht) (hp hs ht) rfl

/-- Every run from `s` is finite, and the states runs end in satisfy `post`. -/
structure TotallyCorrect (step : σ → σ → Prop) (s : σ) (post : σ → Prop) : Prop where
  terminates : Terminates step s
  ends : ∀ ⦃t⦄, Reaches step s t → Stuck step t → post t

theorem TotallyCorrect.mono {post' : σ → Prop} (h : TotallyCorrect step s post)
    (hp : ∀ t, post t → post' t) : TotallyCorrect step s post' :=
  ⟨h.terminates, fun _ hr ht => hp _ (h.ends hr ht)⟩

/-- The rule of total correctness: an invariant, a measure and what the invariant says of a
state without a step. -/
theorem totallyCorrect_of_measure {lt : τ → τ → Prop} (wf : WellFounded lt) (f : σ → τ)
    (hp : Preserved step inv) (hf : ∀ ⦃s t⦄, inv s → step s t → lt (f t) (f s)) (hs : inv s)
    (hpost : ∀ t, inv t → Stuck step t → post t) : TotallyCorrect step s post :=
  ⟨terminates_of_measure wf f hp hf hs, fun t hr ht => hpost t (hp.reaches hs hr) ht⟩

theorem TotallyCorrect.exists_end (h : TotallyCorrect step s post) :
    ∃ t, Reaches step s t ∧ Stuck step t ∧ post t := by
  obtain ⟨t, hr, ht⟩ := h.terminates.exists_stuck
  exact ⟨t, hr, ht, h.ends hr ht⟩

section Simulation

variable {ρ : Type*} {R : σ → ρ → Prop} {step' : ρ → ρ → Prop} {s' t' : ρ} {post' : ρ → Prop}

/-- Every step from a state on the left is matched from a related state on the right. -/
def Simulates (R : σ → ρ → Prop) (step : σ → σ → Prop) (step' : ρ → ρ → Prop) : Prop :=
  ∀ ⦃s s' t⦄, R s s' → step s t → ∃ t', step' s' t' ∧ R t t'

theorem Simulates.reaches (h : Simulates R step step') (hR : R s s') (hr : Reaches step s t) :
    ∃ t', Reaches step' s' t' ∧ R t t' := by
  induction hr with
  | refl => exact ⟨s', .refl, hR⟩
  | tail _ hstep ih =>
    obtain ⟨u', hr', hR'⟩ := ih
    obtain ⟨t', hstep', ht'⟩ := h hR' hstep
    exact ⟨t', hr'.tail hstep', ht'⟩

theorem Simulates.terminates (h : Simulates R step step') (hR : R s s')
    (ht : Terminates step' s') : Terminates step s := by
  induction ht generalizing s with
  | intro s' _ ih =>
    refine .intro s fun t hst => ?_
    obtain ⟨t', hst', hR'⟩ := h hR hst
    exact ih t' hst' hR'

/-- Two programs that simulate each other are totally correct together. -/
theorem TotallyCorrect.of_simulates (h : Simulates R step step')
    (h' : Simulates (fun s' s => R s s') step' step) (hR : R s s')
    (hpost : ∀ ⦃t t'⦄, R t t' → post' t' → post t) (hc : TotallyCorrect step' s' post') :
    TotallyCorrect step s post := by
  refine ⟨h.terminates hR hc.terminates, fun t hr ht => ?_⟩
  obtain ⟨t', hr', hR'⟩ := h.reaches hR hr
  refine hpost hR' (hc.ends hr' fun u' hu' => ?_)
  obtain ⟨u, hu, _⟩ := h' hR' hu'
  exact ht u hu

/-- A program is totally correct if it takes the steps of one that is, in all states it comes to. -/
theorem TotallyCorrect.of_agree {step' : σ → σ → Prop} (hp : Preserved step' inv) (hs : inv s)
    (h : ∀ ⦃t⦄, Reaches step s t → inv t → ∀ u, step t u ↔ step' t u)
    (hc : TotallyCorrect step' s post) : TotallyCorrect step s post := by
  refine .of_simulates (R := fun t t' => t = t' ∧ Reaches step s t ∧ inv t) ?_ ?_ ⟨rfl, .refl, hs⟩ ?_ hc
  · rintro t _ u ⟨rfl, hr, hinv⟩ hu
    have hu' := (h hr hinv u).mp hu
    exact ⟨u, hu', rfl, hr.tail hu, hp hinv hu'⟩
  · rintro t _ u ⟨rfl, hr, hinv⟩ hu
    exact ⟨u, (h hr hinv u).mpr hu, rfl, hr.tail ((h hr hinv u).mpr hu), hp hinv hu⟩
  · rintro t _ ⟨rfl, _⟩ ht
    exact ht

end Simulation

section Worklist

variable {α : Type*} {child : α → α → Prop}

/-- One item of a worklist is replaced by finitely many of its children. -/
theorem cutExpand_of_perm {l rest new : List α} {a : α} (hl : l.Perm (a :: rest))
    (hnew : ∀ b ∈ new, child b a) :
    Relation.CutExpand child ((new ++ rest : List α) : Multiset α) (l : Multiset α) := by
  refine ⟨(new : Multiset α), a, fun b hb => hnew b (Multiset.mem_coe.mp hb), ?_⟩
  rw [Multiset.coe_eq_coe.mpr hl, ← Multiset.cons_coe, ← Multiset.coe_add,
    ← Multiset.singleton_add]
  ac_rfl

end Worklist

end Transition
