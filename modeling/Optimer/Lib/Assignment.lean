import Mathlib.Algebra.BigOperators.Group.Finset.Basic
import Mathlib.Algebra.Order.BigOperators.Group.Finset
import Mathlib.Data.Finset.Card
import Mathlib.Data.Set.Function

/-! Weak duality of the assignment problem: prices that are below the cost of every pair and meet
the cost of the pairs of an assignment show that the assignment is a cheapest one. -/

namespace Assignment

variable {ι κ G : Type*} [AddCommGroup G] {rows : Finset ι} {cols : Finset κ} {cost : ι → κ → G} {u : ι → G}
    {v : κ → G} {p q : ι → κ}

/-- A bijection between the rows and the columns. -/
abbrev Assigns (rows : Finset ι) (cols : Finset κ) (p : ι → κ) : Prop :=
  Set.BijOn p rows cols

theorem assigns_of_injOn (hmaps : Set.MapsTo p rows cols) (hinj : Set.InjOn p rows)
    (hcard : cols.card ≤ rows.card) : Assigns rows cols p :=
  ⟨hmaps, hinj, Finset.surjOn_of_injOn_of_card_le p hmaps hinj hcard⟩

/-- No pair costs less than the prices of its row and of its column. -/
def Feasible [PartialOrder G] (rows : Finset ι) (cols : Finset κ) (cost : ι → κ → G) (u : ι → G)
    (v : κ → G) : Prop :=
  ∀ i ∈ rows, ∀ j ∈ cols, u i + v j ≤ cost i j

theorem sum_prices (hp : Assigns rows cols p) (u : ι → G) (v : κ → G) :
    ∑ i ∈ rows, (u i + v (p i)) = ∑ i ∈ rows, u i + ∑ j ∈ cols, v j := by
  rw [Finset.sum_add_distrib]
  congr 1
  exact Finset.sum_nbij p hp.mapsTo hp.injOn hp.surjOn fun _ _ => rfl

variable [PartialOrder G] [IsOrderedAddMonoid G]

/-- The prices bound the cost of every assignment. -/
theorem Feasible.prices_le (h : Feasible rows cols cost u v) (hq : Assigns rows cols q) :
    ∑ i ∈ rows, u i + ∑ j ∈ cols, v j ≤ ∑ i ∈ rows, cost i (q i) := by
  rw [← sum_prices hq u v]
  exact Finset.sum_le_sum fun i hi => h i hi _ (hq.mapsTo hi)

/-- An assignment of pairs that meet their prices is a cheapest one. -/
theorem Feasible.optimal (h : Feasible rows cols cost u v) (hp : Assigns rows cols p)
    (htight : ∀ i ∈ rows, cost i (p i) = u i + v (p i)) (hq : Assigns rows cols q) :
    ∑ i ∈ rows, cost i (p i) ≤ ∑ i ∈ rows, cost i (q i) := by
  calc ∑ i ∈ rows, cost i (p i) = ∑ i ∈ rows, (u i + v (p i)) := Finset.sum_congr rfl htight
    _ = ∑ i ∈ rows, u i + ∑ j ∈ cols, v j := sum_prices hp u v
    _ ≤ ∑ i ∈ rows, cost i (q i) := h.prices_le hq

end Assignment
