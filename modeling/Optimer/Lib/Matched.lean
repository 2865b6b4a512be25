import Mathlib.Data.List.Forall2

/-! Lists whose entries are related one by one. -/

namespace List.Forall₂

variable {α β : Type*} {R : α → β → Prop} {l : List α} {l' : List β} {a : α} {b : β}

theorem exists_right (h : Forall₂ R l l') (ha : a ∈ l) : ∃ b ∈ l', R a b := by
  induction h with
  | nil => cases ha
  | cons hab _ ih =>
    rcases mem_cons.mp ha with rfl | ha
    · exact ⟨_, mem_cons_self, hab⟩
    · obtain ⟨b, hb, hR⟩ := ih ha
      exact ⟨b, mem_cons_of_mem _ hb, hR⟩

theorem exists_left (h : Forall₂ R l l') (hb : b ∈ l') : ∃ a ∈ l, R a b := by
  have hflip : Forall₂ (fun b a => R a b) l' l := h.flip
  exact hflip.exists_right hb

/-- The entries that are related lie in the lists. -/
theorem with_mem (h : Forall₂ R l l') : Forall₂ (fun a b => (a ∈ l ∧ b ∈ l') ∧ R a b) l l' := by
  induction h with
  | nil => exact .nil
  | cons hab _ ih =>
    refine .cons ⟨⟨mem_cons_self, mem_cons_self⟩, hab⟩ (ih.imp fun a b ⟨⟨ha, hb⟩, hR⟩ => ⟨⟨?_, ?_⟩, hR⟩)
    exacts [mem_cons_of_mem _ ha, mem_cons_of_mem _ hb]

end List.Forall₂
