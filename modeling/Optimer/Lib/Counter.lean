import Mathlib.Algebra.BigOperators.Group.Finset.Piecewise
import Mathlib.Logic.Function.Basic

/-! A reference count that several parties count down, each with a read and a later write. Where two of
them overlap one of the two is lost; the count is then too high for good. -/

namespace Optimer

/-- `refs` are the references that are not counted down yet, those under way included; `reads t` is what `t`
has read and not written back, and `raced` says that some write came after another one it had not seen. -/
structure Counter (ι : Type*) where
  value : ℕ
  refs : ℕ
  reads : ι → Option ℕ
  raced : Prop

namespace Counter

variable {ι : Type*} {c : Counter ι} {t u : ι} {n m : ℕ}

/-- Nobody writes a count below the references left, and a lost one shows. -/
structure Inv (c : Counter ι) : Prop where
  le : ∀ t n, c.reads t = some n → c.refs ≤ n
  seen : ∀ t n, c.reads t = some n → n = c.value ∨ c.refs < n
  fair : ¬ c.raced → c.value = c.refs
  lost : c.raced → c.refs < c.value ∧ ∀ t n, c.reads t = some n → c.refs < n

theorem Inv.refs_le (h : c.Inv) : c.refs ≤ c.value := by
  by_cases hr : c.raced
  · exact (h.lost hr).1.le
  · exact (h.fair hr).ge

section Step

variable [DecidableEq ι]

def read (c : Counter ι) (t : ι) : Counter ι := { c with reads := Function.update c.reads t (some c.value) }

/-- `t` writes back what it has read, less one. -/
def write (c : Counter ι) (t : ι) (n : ℕ) : Counter ι where
  value := n - 1
  refs := c.refs - 1
  reads := Function.update c.reads t none
  raced := c.raced ∨ n ≠ c.value

theorem reads_update {g : ι → Option ℕ} {x : Option ℕ} (h : Function.update g t x u = some n) :
    u = t ∧ x = some n ∨ g u = some n := by
  by_cases hu : u = t
  · subst hu
    rw [Function.update_self] at h
    exact .inl ⟨rfl, h⟩
  · rw [Function.update_of_ne hu] at h
    exact .inr h

theorem Inv.read (h : c.Inv) (t : ι) : (c.read t).Inv where
  le u n hu := by
    rcases reads_update hu with ⟨_, hn⟩ | hu
    · exact Option.some.inj hn ▸ h.refs_le
    · exact h.le u n hu
  seen u n hu := by
    rcases reads_update hu with ⟨_, hn⟩ | hu
    · exact .inl (Option.some.inj hn).symm
    · exact h.seen u n hu
  fair := h.fair
  lost hr := by
    obtain ⟨hlt, hall⟩ := h.lost hr
    refine ⟨hlt, fun u n hu => ?_⟩
    rcases reads_update hu with ⟨_, hn⟩ | hu
    · exact Option.some.inj hn ▸ hlt
    · exact hall u n hu

theorem reads_write (hu : (c.write t n).reads u = some m) : c.reads u = some m := by
  rcases reads_update hu with ⟨_, hn⟩ | hu
  · cases hn
  · exact hu

theorem Inv.write (h : c.Inv) (ht : c.reads t = some n) (hrefs : 0 < c.refs) : (c.write t n).Inv where
  le u m hu := (Nat.sub_le _ _).trans (h.le u m (reads_write hu))
  seen u m hu := .inr (Nat.sub_one_lt_of_le hrefs (h.le u m (reads_write hu)))
  fair hr := by
    obtain ⟨hrace, hn⟩ := not_or.mp hr
    have hvalue := h.fair hrace
    have hn := not_not.mp hn
    simp only [Counter.write]
    omega
  lost hr := by
    have hlt : c.refs < n := by
      rcases hr with hr | hne
      · exact (h.lost hr).2 t n ht
      · exact (h.seen t n ht).resolve_left hne
    refine ⟨?_, fun u m hu => Nat.sub_one_lt_of_le hrefs (h.le u m (reads_write hu))⟩
    simp only [Counter.write]
    omega

/-- A count of zero is written only for the last reference, and when none was lost. -/
theorem Inv.write_zero (h : c.Inv) (ht : c.reads t = some n) (hrefs : 0 < c.refs) (hn : n - 1 = 0) :
    c.refs = 1 ∧ ¬ (c.write t n).raced := by
  have hle := h.le t n ht
  refine ⟨by omega, fun hr => ?_⟩
  have hlost := ((h.write ht hrefs).lost hr).1
  simp only [Counter.write] at hlost
  omega

end Step

/-- One more reference, while nobody counts down. -/
theorem Inv.add (h : c.Inv) (hnone : ∀ t, c.reads t = none) (k : ℕ) :
    Inv { c with value := c.value + k, refs := c.refs + k } where
  le t n ht := by simp [hnone] at ht
  seen t n ht := by simp [hnone] at ht
  fair hr := by rw [h.fair hr]
  lost hr := ⟨Nat.add_lt_add_right (h.lost hr).1 k, fun t n ht => by simp [hnone] at ht⟩

end Counter

/-- The parties at one place add up. -/
theorem sum_update_add {ι β : Type*} [Fintype ι] [DecidableEq ι] (g : ι → β) (f : β → ℕ) (t : ι) (x : β) :
    ∑ u, f (Function.update g t x u) + f (g t) = ∑ u, f (g u) + f x := by
  have hup : (fun u => f (Function.update g t x u)) = Function.update (f ∘ g) t (f x) := Function.comp_update f g t x
  rw [hup, Finset.sum_update_of_mem (Finset.mem_univ t), ← Finset.add_sum_erase _ _ (Finset.mem_univ t),
    Finset.sdiff_singleton_eq_erase]
  simp only [Function.comp_apply]
  omega

end Optimer
