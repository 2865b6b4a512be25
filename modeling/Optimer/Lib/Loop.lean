import Mathlib.Data.Nat.Notation
import Mathlib.Tactic.TypeStar

/-! Loops without a known bound, run for a given number of rounds. -/

namespace Loop

variable {σ ρ : Type*} {body : σ → Option (σ ⊕ ρ)} {inv : σ → Prop} {post : ρ → Prop}

/-- At most `fuel` rounds of a loop. A round goes on from a new state, leaves the loop with a result
or fails; `none` also stands for a loop that is still going on. -/
def iterate (body : σ → Option (σ ⊕ ρ)) : ℕ → σ → Option ρ
  | 0, _ => none
  | fuel + 1, s =>
    match body s with
    | none => none
    | some (.inl t) => iterate body fuel t
    | some (.inr r) => some r

/-- A loop that goes on from a round that goes on. -/
theorem iterate_inl {s t : σ} {fuel : ℕ} (h : body s = some (.inl t)) :
    iterate body (fuel + 1) s = iterate body fuel t := by
  simp only [iterate, h]

theorem iterate_inr {s : σ} {r : ρ} {fuel : ℕ} (h : body s = some (.inr r)) :
    iterate body (fuel + 1) s = some r := by
  simp only [iterate, h]

/-- More rounds do not change the result. -/
theorem iterate_mono {s : σ} {r : ρ} {fuel fuel' : ℕ} (h : iterate body fuel s = some r)
    (hle : fuel ≤ fuel') : iterate body fuel' s = some r := by
  induction fuel generalizing s fuel' with
  | zero => exact nomatch h
  | succ fuel ih =>
    obtain ⟨fuel', rfl⟩ := Nat.exists_eq_succ_of_ne_zero (Nat.ne_of_gt (Nat.lt_of_lt_of_le fuel.succ_pos hle))
    cases hbody : body s with
    | none => simp only [iterate, hbody] at h; exact nomatch h
    | some x =>
      cases x with
      | inl t =>
        rw [iterate_inl hbody] at h ⊢
        exact ih h (Nat.le_of_succ_le_succ hle)
      | inr t => rwa [iterate_inr hbody] at h ⊢

/-- The rule of partial correctness: a loop that ends keeps the invariant up to its last round. -/
theorem iterate_partial (inv : σ → Prop) (post : ρ → Prop)
    (hstep : ∀ s t, inv s → body s = some (.inl t) → inv t)
    (hlast : ∀ s r, inv s → body s = some (.inr r) → post r) {s : σ} (hs : inv s) {fuel : ℕ} {r : ρ}
    (h : iterate body fuel s = some r) : post r := by
  induction fuel generalizing s with
  | zero => exact nomatch h
  | succ fuel ih =>
    cases hbody : body s with
    | none => simp only [iterate, hbody] at h; exact nomatch h
    | some x =>
      cases x with
      | inl t =>
        rw [iterate_inl hbody] at h
        exact ih (hstep s t hs hbody) h
      | inr t =>
        rw [iterate_inr hbody] at h
        exact Option.some.inj h ▸ hlast s t hs hbody

/-- The rule of total correctness: a round from a state with the invariant leaves the loop with the
postcondition, or keeps the invariant and makes the measure smaller. -/
theorem iterate_total (inv : σ → Prop) (μ : σ → ℕ)
    (hbody : ∀ s, inv s → (∃ t, body s = some (.inl t) ∧ inv t ∧ μ t < μ s) ∨
      ∃ r, body s = some (.inr r) ∧ post r)
    {s : σ} (hs : inv s) {fuel : ℕ} (hf : μ s < fuel) :
    ∃ r, iterate body fuel s = some r ∧ post r := by
  induction fuel generalizing s with
  | zero => exact absurd hf (Nat.not_lt_zero _)
  | succ fuel ih =>
    rcases hbody s hs with ⟨t, ht, hinv, hlt⟩ | ⟨r, hr, hpost⟩
    · rw [iterate_inl ht]
      exact ih hinv (Nat.lt_of_lt_of_le hlt (Nat.le_of_lt_succ hf))
    · exact ⟨r, iterate_inr hr, hpost⟩

/-- The rule of simulation: two loops that go round together from related states end together. -/
theorem iterate_simulates {σ' ρ' : Type*} {body' : σ' → Option (σ' ⊕ ρ')} (R : σ → σ' → Prop)
    (Q : ρ → ρ' → Prop) (hbody : ∀ s s', R s s' →
      (∃ t t', body s = some (.inl t) ∧ body' s' = some (.inl t') ∧ R t t') ∨
      ∃ r r', body s = some (.inr r) ∧ body' s' = some (.inr r') ∧ Q r r')
    {s : σ} {s' : σ'} (hs : R s s') {fuel : ℕ} {r' : ρ'} (h : iterate body' fuel s' = some r') :
    ∃ r, iterate body fuel s = some r ∧ Q r r' := by
  induction fuel generalizing s s' with
  | zero => exact nomatch h
  | succ fuel ih =>
    rcases hbody s s' hs with ⟨t, t', ht, ht', hR⟩ | ⟨r, q, hr, hq, hQ⟩
    · rw [iterate_inl ht'] at h
      rw [iterate_inl ht]
      exact ih hR h
    · rw [iterate_inr hq] at h
      exact ⟨r, iterate_inr hr, Option.some.inj h ▸ hQ⟩

/-- At most `rounds` rounds of a loop that may be left with a result; otherwise the last state. -/
def bounded (body : σ → σ ⊕ ρ) : ℕ → σ → σ ⊕ ρ
  | 0, s => .inl s
  | rounds + 1, s =>
    match body s with
    | .inl t => bounded body rounds t
    | .inr r => .inr r

/-- The rule of a bounded loop; the invariant knows how many rounds are over. -/
theorem bounded_rule (body : σ → σ ⊕ ρ) (inv : ℕ → σ → Prop) (post : ρ → Prop) {k m : ℕ}
    (hstep : ∀ j s, j < k + m → inv j s → match body s with
      | .inl t => inv (j + 1) t
      | .inr r => post r) {s : σ} (hs : inv k s) :
    match bounded body m s with
    | .inl t => inv (k + m) t
    | .inr r => post r := by
  induction m generalizing k s with
  | zero => exact hs
  | succ m ih =>
    have h := hstep k s (by omega) hs
    rw [bounded]
    cases hb : body s with
    | inl t =>
      rw [hb] at h
      rw [← Nat.add_assoc, Nat.add_right_comm]
      exact ih (fun j s hj => hstep j s (by omega)) h
    | inr r =>
      rw [hb] at h
      exact h

/-- The rule of a counting loop. -/
theorem foldl_range' {f : σ → ℕ → σ} {a m : ℕ} (inv : ℕ → σ → Prop)
    (hstep : ∀ k s, a ≤ k → k < a + m → inv k s → inv (k + 1) (f s k)) {s : σ} (hs : inv a s) :
    inv (a + m) ((List.range' a m).foldl f s) := by
  induction m generalizing a s with
  | zero => exact hs
  | succ m ih =>
    rw [List.range'_succ, List.foldl_cons, Nat.add_comm m, ← Nat.add_assoc]
    exact ih (fun k s hk hlt => hstep k s (by omega) (by omega))
      (hstep a s (Nat.le_refl a) (by omega) hs)

section Except

universe u

variable {ε α : Type*} {β γ : Type u} {post post' : ρ → Prop} {fail : ε → Prop} {x : Except ε ρ}

/-- What a computation ends with that may throw. -/
def Ends (post : ρ → Prop) (fail : ε → Prop) : Except ε ρ → Prop
  | .ok r => post r
  | .error e => fail e

theorem Ends.imp {fail' : ε → Prop} (h : Ends post fail x) (hpost : ∀ r, post r → post' r)
    (hfail : ∀ e, fail e → fail' e) : Ends post' fail' x := by
  cases x with
  | error e => exact hfail e h
  | ok r => exact hpost r h

theorem Ends.mono (h : Ends post fail x) (hpost : ∀ r, post r → post' r) : Ends post' fail x :=
  h.imp hpost fun _ he => he

theorem Ends.bind {inv : β → Prop} {post : γ → Prop} {x : Except ε β} {f : β → Except ε γ}
    (h : Ends inv fail x) (hf : ∀ s, inv s → Ends post fail (f s)) : Ends post fail (x >>= f) := by
  cases x with
  | error e => exact h
  | ok s => exact hf s h

/-- The rule of a loop over a list that may throw; the invariant knows what is done. -/
theorem Ends.foldlM {f : σ → α → Except ε σ} {l : List α} (inv : List α → σ → Prop)
    (hstep : ∀ done a rest s, l = done ++ a :: rest → inv done s →
      Ends (inv (done ++ [a])) fail (f s a)) {s : σ} (hs : inv [] s) :
    Ends (inv l) fail (l.foldlM f s) := by
  have h : ∀ rest done s, l = done ++ rest → inv done s → Ends (inv l) fail (rest.foldlM f s) := by
    intro rest
    induction rest with
    | nil =>
      rintro done s rfl hs
      rwa [List.append_nil]
    | cons a rest ih =>
      intro done s hl hs
      rw [List.foldlM_cons]
      exact (hstep done a rest s hl hs).bind fun t ht => ih (done ++ [a]) t (by rw [hl]; simp) ht
  exact h l [] s rfl hs

/-- The rule of a counting loop that may throw. -/
theorem Ends.range' {f : σ → ℕ → Except ε σ} {a m : ℕ} (inv : ℕ → σ → Prop)
    (hstep : ∀ k s, a ≤ k → k < a + m → inv k s → Ends (inv (k + 1)) fail (f s k)) {s : σ}
    (hs : inv a s) : Ends (inv (a + m)) fail ((List.range' a m).foldlM f s) := by
  induction m generalizing a s with
  | zero => exact hs
  | succ m ih =>
    rw [List.range'_succ, List.foldlM_cons, Nat.add_comm m, ← Nat.add_assoc]
    exact (hstep a s (Nat.le_refl a) (by omega) hs).bind fun t ht =>
      ih (fun k s hk hlt => hstep k s (by omega) (by omega)) ht

theorem Ends.range {f : σ → ℕ → Except ε σ} {n : ℕ} (inv : ℕ → σ → Prop)
    (hstep : ∀ k s, k < n → inv k s → Ends (inv (k + 1)) fail (f s k)) {s : σ} (hs : inv 0 s) :
    Ends (inv n) fail ((List.range n).foldlM f s) := by
  have h := Ends.range' (m := n) inv (fun k s _ hlt => hstep k s (Nat.zero_add n ▸ hlt)) hs
  rwa [Nat.zero_add, ← List.range_eq_range'] at h

theorem Ends.ok (h : Ends post (fun _ : ε => False) x) : ∃ r, x = .ok r ∧ post r := by
  cases x with
  | error e => exact h.elim
  | ok r => exact ⟨r, rfl, h⟩

/-- A counting loop that never throws ends with the invariant at its bound. -/
theorem foldlM_range {f : σ → ℕ → Except ε σ} {n : ℕ} (inv : ℕ → σ → Prop)
    (hstep : ∀ k s, k < n → inv k s → ∃ t, f s k = .ok t ∧ inv (k + 1) t) {s : σ} (hs : inv 0 s) :
    ∃ t, (List.range n).foldlM f s = .ok t ∧ inv n t := by
  refine Ends.ok (Ends.range inv (fun k s hk hinv => ?_) hs)
  obtain ⟨t, ht, hinv'⟩ := hstep k s hk hinv
  rw [ht]
  exact hinv'

end Except

section Option

variable {f : σ → ℕ → Option σ} {a m : ℕ}

/-- The rule of a counting loop that may give up: where it does not, the invariant holds at the end. -/
theorem foldlM_range'_partial (inv : ℕ → σ → Prop)
    (hstep : ∀ k s t, a ≤ k → k < a + m → inv k s → f s k = some t → inv (k + 1) t) {s t : σ}
    (hs : inv a s) (h : (List.range' a m).foldlM f s = some t) : inv (a + m) t := by
  induction m generalizing a s with
  | zero => exact Option.some.inj h ▸ hs
  | succ m ih =>
    rw [List.range'_succ, List.foldlM_cons] at h
    obtain ⟨u, hu, h⟩ := Option.bind_eq_some_iff.mp h
    rw [Nat.add_comm m, ← Nat.add_assoc]
    exact ih (fun k s t hk hlt => hstep k s t (by omega) (by omega))
      (hstep a s u (Nat.le_refl a) (by omega) hs hu) h

/-- The same where no round gives up. -/
theorem foldlM_range'_total (inv : ℕ → σ → Prop)
    (hstep : ∀ k s, a ≤ k → k < a + m → inv k s → ∃ t, f s k = some t ∧ inv (k + 1) t) {s : σ}
    (hs : inv a s) : ∃ t, (List.range' a m).foldlM f s = some t ∧ inv (a + m) t := by
  induction m generalizing a s with
  | zero => exact ⟨s, rfl, hs⟩
  | succ m ih =>
    obtain ⟨u, hu, hinv⟩ := hstep a s (Nat.le_refl a) (by omega) hs
    obtain ⟨t, ht, hinv'⟩ := ih (fun k s hk hlt => hstep k s (by omega) (by omega)) hinv
    refine ⟨t, ?_, by rwa [Nat.add_comm m, ← Nat.add_assoc]⟩
    rw [List.range'_succ, List.foldlM_cons, hu]
    exact ht

end Option

end Loop
