import Mathlib.Data.Finset.Card
import Mathlib.Order.Lattice

/-! Local search: sweeps over a list of moves, each made if it lowers the cost. -/

namespace LocalSearch

variable {σ ι T : Type*} [LinearOrder T] {cost : σ → T} {move : ι → σ → σ} {is : List ι} {s t : σ}

/-- One move, if it lowers the cost. -/
def step (cost : σ → T) (move : ι → σ → σ) (s : σ) (i : ι) : σ :=
  if cost (move i s) < cost s then move i s else s

/-- All moves in turn. -/
def sweep (cost : σ → T) (move : ι → σ → σ) (is : List ι) (s : σ) : σ := is.foldl (step cost move) s

theorem step_eq_or_lt (cost : σ → T) (move : ι → σ → σ) (s : σ) (i : ι) :
    step cost move s i = s ∨ cost (step cost move s i) < cost s := by
  unfold step
  split
  · next h => exact .inr h
  · exact .inl rfl

/-- A sweep that makes a move lowers the cost. -/
theorem sweep_eq_or_lt (cost : σ → T) (move : ι → σ → σ) (is : List ι) (s : σ) :
    sweep cost move is s = s ∨ cost (sweep cost move is s) < cost s := by
  induction is generalizing s with
  | nil => exact .inl rfl
  | cons i is ih =>
    show sweep cost move is (step cost move s i) = s ∨ cost (sweep cost move is (step cost move s i)) < cost s
    rcases step_eq_or_lt cost move s i with hi | hi
    · rw [hi]
      exact ih s
    · rcases ih (step cost move s i) with hs | hs
      · exact .inr (hs.symm ▸ hi)
      · exact .inr (hs.trans hi)

/-- A sweep changes nothing if and only if no move lowers the cost. -/
theorem sweep_eq_self_iff : sweep cost move is s = s ↔ ∀ i ∈ is, cost s ≤ cost (move i s) := by
  induction is with
  | nil => exact iff_of_true rfl fun _ h => absurd h List.not_mem_nil
  | cons i is ih =>
    rw [List.forall_mem_cons, ← ih]
    show sweep cost move is (step cost move s i) = s ↔ _
    constructor
    · intro h
      have hi : ¬ cost (move i s) < cost s := fun hlt => by
        rw [step, if_pos hlt] at h
        have hs : s = move i s ∨ cost s < cost (move i s) := by
          simpa only [h] using sweep_eq_or_lt cost move is (move i s)
        rcases hs with hs | hs
        · exact (congrArg cost hs).not_gt hlt
        · exact lt_asymm hlt hs
      rw [step, if_neg hi] at h
      exact ⟨not_lt.mp hi, h⟩
    · rintro ⟨hi, h⟩
      rwa [step, if_neg (not_lt.mpr hi)]

/-- What every move keeps, a sweep keeps. -/
theorem sweep_induction {P : σ → Prop} (h : ∀ i ∈ is, ∀ s, P s → P (move i s)) (hs : P s) :
    P (sweep cost move is s) := by
  induction is generalizing s with
  | nil => exact hs
  | cons i is ih =>
    refine ih (fun j hj => h j (List.mem_cons_of_mem i hj)) ?_
    unfold step
    split
    · exact h i List.mem_cons_self s hs
    · exact hs

/-- Those of some states that cost less; their number bounds the sweeps that are left. -/
def cheaper (cost : σ → T) (S : Finset σ) (s : σ) : Finset σ := S.filter fun t => cost t < cost s

theorem card_cheaper_lt {S : Finset σ} (ht : t ∈ S) (hlt : cost t < cost s) :
    (cheaper cost S t).card < (cheaper cost S s).card := by
  refine Finset.card_lt_card (Finset.ssubset_iff_of_subset ?_ |>.mpr ⟨t, ?_, ?_⟩)
  · exact fun r hr => Finset.mem_filter.mpr
      ⟨(Finset.mem_filter.mp hr).1, (Finset.mem_filter.mp hr).2.trans hlt⟩
  · exact Finset.mem_filter.mpr ⟨ht, hlt⟩
  · exact fun h => lt_irrefl _ (Finset.mem_filter.mp h).2

end LocalSearch
