import Mathlib.Data.List.Basic

/-! Linked lists in a memory of words: `Linked next p l` says that following `next` from `p` visits
the addresses of `l` in order and ends in the null address `0`. -/

def Linked (next : ℕ → ℕ) : ℕ → List ℕ → Prop
  | p, [] => p = 0
  | p, a :: l => p = a ∧ a ≠ 0 ∧ Linked next (next a) l

namespace Linked

variable {next next' : ℕ → ℕ} {p a : ℕ} {l l' : List ℕ}

theorem congr (hc : Linked next p l) (he : ∀ a ∈ l, next' a = next a) : Linked next' p l := by
  induction l generalizing p with
  | nil => exact hc
  | cons a l ih =>
    obtain ⟨hp, ha, hl⟩ := hc
    refine ⟨hp, ha, ?_⟩
    rw [he a List.mem_cons_self]
    exact ih hl fun b hb => he b (List.mem_cons_of_mem _ hb)

/-- The links determine the list. -/
theorem unique (hc : Linked next p l) (hc' : Linked next p l') : l = l' := by
  induction l generalizing p l' with
  | nil =>
    cases l' with
    | nil => rfl
    | cons b l' => exact absurd (hc'.1.symm.trans hc) hc'.2.1
  | cons a l ih =>
    obtain ⟨rfl, ha, hl⟩ := hc
    cases l' with
    | nil => exact absurd hc' ha
    | cons b l' =>
      obtain ⟨rfl, _, hl'⟩ := hc'
      rw [ih hl hl']

theorem eq_nil_iff (hc : Linked next p l) : l = [] ↔ p = 0 := by
  cases l with
  | nil => exact iff_of_true rfl hc
  | cons a l =>
    obtain ⟨rfl, ha, _⟩ := hc
    exact iff_of_false (List.cons_ne_nil _ _) ha

/-- If every address links to one of smaller rank, then the walk from it ends, and each address
met on it satisfies what the links preserve. -/
theorem exists_of_rank (rank : ℕ → ℕ) (S : ℕ → Prop) (h0 : ∀ a, S a → a ≠ 0)
    (hS : ∀ a, S a → next a ≠ 0 → S (next a) ∧ rank (next a) < rank a) (ha : S a) :
    ∃ l, Linked next a l ∧ ∀ b ∈ l, S b := by
  generalize hn : rank a = n
  induction n using Nat.strongRecOn generalizing a with
  | _ n ih =>
    by_cases hz : next a = 0
    · exact ⟨[a], ⟨rfl, h0 a ha, hz⟩, fun b hb => List.mem_singleton.mp hb ▸ ha⟩
    · obtain ⟨hnext, hlt⟩ := hS a ha hz
      obtain ⟨l, hl, hall⟩ := ih _ (hn ▸ hlt) hnext rfl
      exact ⟨a :: l, ⟨rfl, h0 a ha, hl⟩, List.forall_mem_cons.mpr ⟨ha, hall⟩⟩

theorem head_mem (hc : Linked next p l) (hp : p ≠ 0) : p ∈ l := by
  cases l with
  | nil => exact absurd hc hp
  | cons a l => exact hc.1 ▸ List.mem_cons_self

theorem next_mem (hc : Linked next p l) (ha : a ∈ l) (h0 : next a ≠ 0) : next a ∈ l := by
  induction l generalizing p with
  | nil => cases ha
  | cons b l ih =>
    rcases List.mem_cons.mp ha with rfl | ha
    · exact List.mem_cons_of_mem _ (hc.2.2.head_mem h0)
    · exact List.mem_cons_of_mem _ (ih hc.2.2 ha)

end Linked

/-- The values met on the way from `p` to null. -/
def LinkedVals {α : Type*} (next : ℕ → ℕ) (val : ℕ → α) : ℕ → List α → Prop
  | p, [] => p = 0
  | p, x :: l => p ≠ 0 ∧ val p = x ∧ LinkedVals next val (next p) l

instance LinkedVals.decidable {α : Type*} [DecidableEq α] {next : ℕ → ℕ} {val : ℕ → α} :
    (p : ℕ) → (l : List α) → Decidable (LinkedVals next val p l)
  | _, [] => inferInstanceAs (Decidable (_ = _))
  | p, _ :: l =>
    have : Decidable (LinkedVals next val (next p) l) := LinkedVals.decidable (next p) l
    inferInstanceAs (Decidable (_ ∧ _ ∧ _))

namespace LinkedVals

variable {α : Type*} {next next' : ℕ → ℕ} {val val' : ℕ → α} {p : ℕ} {l l' : List α}

theorem unique (h : LinkedVals next val p l) (h' : LinkedVals next val p l') : l = l' := by
  induction l generalizing p l' with
  | nil =>
    cases l' with
    | nil => rfl
    | cons x l' => exact absurd h h'.1
  | cons x l ih =>
    cases l' with
    | nil => exact absurd h' h.1
    | cons x' l' => rw [← h.2.1, ← h'.2.1, ih h.2.2 h'.2.2]

/-- A way inside a set of addresses that the links do not leave. -/
theorem congr (h : LinkedVals next val p l) (S : ℕ → Prop) (hS : ∀ a, S a → next a ≠ 0 → S (next a))
    (he : ∀ a, S a → next' a = next a ∧ val' a = val a) (hp : p = 0 ∨ S p) :
    LinkedVals next' val' p l := by
  induction l generalizing p with
  | nil => exact h
  | cons x l ih =>
    obtain ⟨h0, hx, hl⟩ := h
    have hp := hp.resolve_left h0
    obtain ⟨hn, hv⟩ := he p hp
    refine ⟨h0, hv.trans hx, ?_⟩
    rw [hn]
    exact ih hl (or_iff_not_imp_left.mpr (hS p hp))

end LinkedVals
