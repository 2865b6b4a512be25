import Mathlib.Data.List.Nodup
import Optimer.Tsp.ApSolver

/-! The partial assignment of `ApSolver`: `row_` and `primal` undo each other, `preprocess` starts so,
and the inner loop of `solve` keeps them so along an alternating path. -/

namespace Optimer.ApSolver

/-! ### Partial assignments -/

/-- `g` undoes `f`; both are partial, undefined from `n` on. -/
structure Matching (n : ℕ) (f g : ℕ → ℕ) : Prop where
  le : ∀ b < n, g b ≤ n
  left : ∀ a < n, f a < n → g (f a) = a
  right : ∀ b < n, g b < n → f (g b) = b

/-- No two indices share a value below `n`. -/
def Injective (n : ℕ) (f : ℕ → ℕ) : Prop := ∀ a < n, ∀ b < n, f a < n → f a = f b → a = b

variable {n k : ℕ} {f g row phi : ℕ → ℕ} {matrix : ℕ → ℕ → ValueType} {u v : ℕ → ValueType}

theorem Matching.injective (h : Matching n f g) : Injective n f := by
  intro a ha b hb hlt heq
  rw [← h.left a ha hlt, heq, h.left b hb (heq ▸ hlt)]

/-- The loop of `inverse` after its first `m` rounds. -/
theorem inverse_rounds {m b : ℕ} (hm : m ≤ n) (hb : b < n) :
    ((List.range m).foldl (inverseStep n f) (fun _ => n) b = n ∧ ∀ a < m, f a ≠ b) ∨
      ((List.range m).foldl (inverseStep n f) (fun _ => n) b < m ∧
        f ((List.range m).foldl (inverseStep n f) (fun _ => n) b) = b) := by
  induction m with
  | zero => exact .inl ⟨rfl, fun a ha => absurd ha (Nat.not_lt_zero a)⟩
  | succ m ih =>
    have ih := ih (Nat.le_of_succ_le hm)
    simp only [List.range_succ, List.foldl_append, List.foldl_cons, List.foldl_nil]
    generalize List.foldl _ _ (List.range m) = g at ih ⊢
    have hkeep (hfm : f m ≠ b) : (g b = n ∧ ∀ a < m + 1, f a ≠ b) ∨ g b < m + 1 ∧ f (g b) = b := by
      rcases ih with ⟨hg, hne⟩ | ⟨hg, heq⟩
      · refine .inl ⟨hg, fun a ha => ?_⟩
        rcases Nat.lt_succ_iff_lt_or_eq.mp ha with ha | rfl
        exacts [hne a ha, hfm]
      · exact .inr ⟨hg.trans (Nat.lt_succ_self m), heq⟩
    unfold inverseStep
    split
    · by_cases hbm : b = f m
      · subst hbm
        rw [Function.update_self]
        exact .inr ⟨Nat.lt_succ_self m, rfl⟩
      · rw [Function.update_of_ne hbm]
        exact hkeep (Ne.symm hbm)
    · next hlt => exact hkeep fun h => hlt (h ▸ hb)

theorem inverse_matching (hf : Injective n f) : Matching n f (inverse n f) where
  le b hb := by
    rcases inverse_rounds (f := f) le_rfl hb with ⟨h, _⟩ | ⟨h, _⟩
    exacts [h.le, h.le]
  left a ha hlt := by
    rcases inverse_rounds (f := f) le_rfl hlt with ⟨_, h⟩ | ⟨h, heq⟩
    · exact absurd rfl (h a ha)
    · exact hf _ h a ha (heq.symm ▸ hlt) heq
  right b hb hlt := by
    rcases inverse_rounds (f := f) le_rfl hb with ⟨h, _⟩ | ⟨_, heq⟩
    · exact absurd h (Nat.ne_of_lt hlt)
    · exact heq

theorem Matching.symm (h : Matching n f g) (hf : ∀ a < n, f a ≤ n) : Matching n g f :=
  ⟨hf, h.right, h.left⟩

theorem assignStep_cases (row : ℕ → ℕ) (i : ℕ) : assignStep n matrix u v row i = row ∨
    ∃ j, row j = n ∧ matrix i j = u i + v j ∧
      assignStep n matrix u v row i = Function.update row j i := by
  unfold assignStep
  split
  · next j hj =>
    have hj := List.find?_some hj
    simp only [decide_eq_true_eq] at hj
    exact .inr ⟨j, hj.1, hj.2, rfl⟩
  · exact .inl rfl

/-- The loop of `assignRows` after its first `m` rounds. -/
theorem assignRows_rounds {m : ℕ} (hm : m ≤ n) {row : ℕ → ℕ}
    (hr : (List.range m).foldl (assignStep n matrix u v) (fun _ => n) = row) :
    (∀ j, row j = n ∨ row j < m ∧ matrix (row j) j = u (row j) + v j) ∧
      ∀ i j, row i < n → row i = row j → i = j := by
  induction m generalizing row with
  | zero =>
    subst hr
    exact ⟨fun j => .inl rfl, fun i j hlt => absurd hlt (Nat.lt_irrefl n)⟩
  | succ m ih =>
    rw [List.range_succ, List.foldl_append, List.foldl_cons, List.foldl_nil] at hr
    have ih := ih (Nat.le_of_succ_le hm) rfl
    generalize List.foldl _ _ (List.range m) = row at ih hr
    obtain ⟨hrow, hinj⟩ := ih
    subst hr
    have hlt : ∀ j, row j ≠ m := fun j h => by
      rcases hrow j with h' | ⟨h', _⟩ <;> omega
    rcases assignStep_cases row m with h | ⟨j, _, htight, h⟩ <;> rw [h]
    · exact ⟨fun c => (hrow c).imp id fun h => ⟨h.1.trans (Nat.lt_succ_self m), h.2⟩, hinj⟩
    · refine ⟨fun c => ?_, fun a b => ?_⟩
      · by_cases hc : c = j
        · subst hc
          rw [Function.update_self]
          exact .inr ⟨Nat.lt_succ_self m, htight⟩
        · rw [Function.update_of_ne hc]
          exact (hrow c).imp id fun h => ⟨h.1.trans (Nat.lt_succ_self m), h.2⟩
      · by_cases ha : a = j <;> by_cases hb : b = j
        · exact fun _ _ => ha.trans hb.symm
        · subst ha
          rw [Function.update_self, Function.update_of_ne hb]
          exact fun _ h => absurd h.symm (hlt b)
        · subst hb
          rw [Function.update_self, Function.update_of_ne ha]
          exact fun _ h => absurd h (hlt a)
        · rw [Function.update_of_ne ha, Function.update_of_ne hb]
          exact hinj a b

theorem assignRows_injective (n : ℕ) (matrix : ℕ → ℕ → ValueType) (u v : ℕ → ValueType) :
    Injective n (assignRows n matrix u v) :=
  fun a _ b _ hlt heq => (assignRows_rounds le_rfl rfl).2 a b hlt heq

theorem assignRows_le (n : ℕ) (matrix : ℕ → ℕ → ValueType) (u v : ℕ → ValueType) (j : ℕ) :
    assignRows n matrix u v j ≤ n := by
  rcases (@assignRows_rounds n matrix u v n le_rfl _ rfl).1 j with h | ⟨h, _⟩
  exacts [h.le, h.le]

theorem assignRows_tight {j : ℕ} (h : assignRows n matrix u v j < n) :
    matrix (assignRows n matrix u v j) j = u (assignRows n matrix u v j) + v j := by
  rcases (@assignRows_rounds n matrix u v n le_rfl _ rfl).1 j with h' | ⟨_, h'⟩
  · exact absurd h' (Nat.ne_of_lt h)
  · exact h'

/-! ### Minima -/

theorem least_le {skip : ℕ → Bool} {f : ℕ → WithTop ValueType} {j : ℕ} (hj : j < n)
    (hs : skip j = false) : least n skip f ≤ f j := by
  induction n with
  | zero => exact absurd hj (Nat.not_lt_zero j)
  | succ n ih =>
    rw [least, List.range_succ, List.foldl_append, ← least, List.foldl_cons, List.foldl_nil]
    rcases Nat.lt_succ_iff_lt_or_eq.mp hj with hj | rfl
    · split
      · exact ih hj
      · exact (min_le_left _ _).trans (ih hj)
    · rw [if_neg (by simp [hs])]
      exact min_le_right _ _

theorem least_attained (n : ℕ) (skip : ℕ → Bool) (f : ℕ → WithTop ValueType) :
    least n skip f = ⊤ ∨ ∃ j < n, skip j = false ∧ least n skip f = f j := by
  induction n with
  | zero => exact .inl rfl
  | succ n ih =>
    have hold : least n skip f = ⊤ ∨ ∃ j < n + 1, skip j = false ∧ least n skip f = f j :=
      ih.imp id fun ⟨j, hj, h⟩ => ⟨j, hj.trans (Nat.lt_succ_self n), h⟩
    have hstep : least (n + 1) skip f =
        if skip n then least n skip f else min (least n skip f) (f n) := by
      rw [least, List.range_succ, List.foldl_append, ← least, List.foldl_cons, List.foldl_nil]
    rw [hstep]
    split
    · exact hold
    · next hn =>
      rcases min_choice (least n skip f) (f n) with h | h
      · rwa [h]
      · exact .inr ⟨n, Nat.lt_succ_self n, Bool.not_eq_true _ ▸ hn, h⟩

theorem minOver_le {f : ℕ → ValueType} {j : ℕ} (hj : j < n) : minOver n f ≤ f j := by
  have hle : least n (fun _ => false) (fun j => (f j : WithTop ValueType)) ≤ f j :=
    least_le (f := fun j => (f j : WithTop ValueType)) hj rfl
  rw [minOver]
  exact WithTop.untopD_le hle

theorem minOver_nonneg {f : ℕ → ValueType} (h : ∀ j < n, 0 ≤ f j) : 0 ≤ minOver n f := by
  rw [minOver]
  rcases least_attained n (fun _ => false) (fun j => (f j : WithTop ValueType)) with hl | ⟨j, hj, _, hl⟩
  · rw [hl, WithTop.untopD_top]
  · rw [hl, WithTop.untopD_coe]
    exact h j hj

/-! ### Alternating paths -/

/-- `j :: l` are the columns of the path that `pred_` and the assignment lead along from column `j`
to row `k`. -/
inductive AltPath (pred phi : ℕ → ℕ) (k : ℕ) : ℕ → List ℕ → Prop
  | last {j} : pred j = k → AltPath pred phi k j []
  | step {j l} : pred j ≠ k → AltPath pred phi k (phi (pred j)) l →
      AltPath pred phi k j (phi (pred j) :: l)

namespace AltPath

variable {pred pred' phi' : ℕ → ℕ} {j x : ℕ} {l : List ℕ}

theorem congr (h : AltPath pred phi k j l) (hpred : ∀ x ∈ j :: l, pred' x = pred x)
    (hphi : ∀ x ∈ j :: l, pred x ≠ k → phi' (pred x) = phi (pred x)) : AltPath pred' phi' k j l := by
  induction h with
  | @last j h => exact .last ((hpred j List.mem_cons_self).trans h)
  | @step j l hne _ ih =>
    have hj := hpred j List.mem_cons_self
    rw [← hphi j List.mem_cons_self hne, ← hj] at ih ⊢
    refine .step (hj ▸ hne) (ih (fun x hx => hpred x ?_) fun x hx => hphi x ?_)
    all_goals
      rw [hj, hphi j List.mem_cons_self hne] at hx
      exact List.mem_cons_of_mem j hx

/-- The path goes on from every column whose predecessor is not the first row. -/
theorem next_mem (h : AltPath pred phi k j l) (hx : x ∈ j :: l) (hne : pred x ≠ k) :
    phi (pred x) ∈ l := by
  induction h with
  | last h =>
    cases List.mem_singleton.mp hx
    exact absurd h hne
  | step _ _ ih =>
    rcases List.mem_cons.mp hx with rfl | hx
    · exact List.mem_cons_self
    · exact List.mem_cons_of_mem _ (ih hx)

end AltPath

/-- The state of the inner loop of `solve`: column `s.j` is to be given to the row before it, and
apart from that `row` and `phi` still fit together. -/
structure Flip.Inv (n : ℕ) (pred : ℕ → ℕ) (k : ℕ) (l : List ℕ) (s : Flip) : Prop where
  path : AltPath pred s.phi k s.j l
  nodup : (s.j :: l).Nodup
  lt : ∀ x ∈ s.j :: l, x < n ∧ pred x < n
  free : n ≤ s.phi k
  le : ∀ c < n, s.row c ≤ n
  left : ∀ i < n, s.phi i < n → s.phi i ≠ s.j → s.row (s.phi i) = i
  right : ∀ c < n, c ≠ s.j → s.row c < n → s.phi (s.row c) = c
  unused : ∀ i < n, s.phi i ≠ s.j

/-- What the inner loop does to the assignment: row `k` is assigned, no row loses its assignment, and
a row with another column has that column's predecessor edge. -/
structure Flipped (n : ℕ) (pred : ℕ → ℕ) (k : ℕ) (cols : List ℕ) (phi row' phi' : ℕ → ℕ) : Prop where
  matching : Matching n phi' row'
  assigned : phi' k < n
  kept : ∀ i < n, phi i < n → phi' i < n
  changed : ∀ i, phi' i = phi i ∨ phi' i ∈ cols ∧ pred (phi' i) = i

/-- A round that is not the last one. -/
theorem Flip.Inv.step {pred : ℕ → ℕ} {s : Flip} {l : List ℕ} (h : s.Inv n pred k (s.phi (pred s.j) :: l))
    (hne : pred s.j ≠ k) (hpath : AltPath pred s.phi k (s.phi (pred s.j)) l) :
    Flip.Inv n pred k l ⟨s.phi (pred s.j), Function.update s.row s.j (pred s.j),
      Function.update s.phi (pred s.j) s.j⟩ := by
  obtain ⟨j, row, phi⟩ := s
  obtain ⟨_, hnodup, hlt, hfree, hle, hleft, hright, hunused⟩ := h
  simp only at *
  set i := pred j with hi
  have hj := hlt j List.mem_cons_self
  have hnext : phi i < n := (hlt _ (List.mem_cons_of_mem _ List.mem_cons_self)).1
  have hjn : j ≠ phi i := fun h => (List.nodup_cons.mp hnodup).1 (h ▸ List.mem_cons_self)
  have hnl : phi i ∉ l := (List.nodup_cons.mp (List.nodup_cons.mp hnodup).2).1
  refine ⟨?_, (List.nodup_cons.mp hnodup).2, fun x hx => hlt x (List.mem_cons_of_mem j hx), ?_, ?_, ?_,
    ?_, ?_⟩ <;> simp only
  · refine hpath.congr (fun _ _ => rfl) fun x hx hxk => Function.update_of_ne (fun hxi => hnl ?_) _ _
    exact hxi ▸ hpath.next_mem hx hxk
  · rwa [Function.update_of_ne (Ne.symm hne)]
  · intro c hc
    rw [Function.update_apply]
    split
    exacts [hj.2.le, hle c hc]
  · intro r hr
    rw [Function.update_apply]
    split
    · next hri => exact fun _ _ => by rw [Function.update_self, hri]
    · intro hlt hne'
      rw [Function.update_of_ne (hunused r hr)]
      exact hleft r hr hlt (hunused r hr)
  · intro c hc hcn
    rw [Function.update_apply]
    split
    · next hcj => exact fun _ => by rw [Function.update_self, hcj]
    · next hcj =>
      intro hlt
      have hr := hright c hc hcj hlt
      rw [Function.update_of_ne (fun hri => hcn ?_)]
      · exact hr
      · rw [← hr, hri]
  · intro r hr
    rw [Function.update_apply]
    split
    · exact hjn
    · next hri =>
      intro heq
      refine hri ?_
      rw [← hleft r hr (heq ▸ hnext) (hunused r hr), heq, hleft i hj.2 hnext (hunused i hj.2)]

/-- The last round. -/
theorem Flip.Inv.last {pred : ℕ → ℕ} {s : Flip} {l : List ℕ} (h : s.Inv n pred k l)
    (hk : pred s.j = k) : Flipped n pred k (s.j :: l) s.phi (Function.update s.row s.j k)
      (Function.update s.phi k s.j) := by
  obtain ⟨j, row, phi⟩ := s
  obtain ⟨_, _, hlt, hfree, hle, hleft, hright, hunused⟩ := h
  simp only at *
  have hj := hlt j List.mem_cons_self
  have hkn : k < n := hk ▸ hj.2
  refine ⟨⟨?_, ?_, ?_⟩, ?_, ?_, ?_⟩
  · intro c hc
    rw [Function.update_apply]
    split
    exacts [hkn.le, hle c hc]
  · intro i hi
    rw [Function.update_apply]
    split
    · next hik => exact fun _ => by rw [Function.update_self, hik]
    · intro hlt
      rw [Function.update_of_ne (hunused i hi)]
      exact hleft i hi hlt (hunused i hi)
  · intro c hc
    rw [Function.update_apply]
    split
    · next hcj => exact fun _ => by rw [Function.update_self, hcj]
    · next hcj =>
      intro hlt
      have hr := hright c hc hcj hlt
      rw [Function.update_of_ne (fun hrk => ?_)]
      · exact hr
      · rw [hrk] at hr
        exact absurd (hr ▸ hfree) (Nat.not_le_of_lt hc)
  · rw [Function.update_self]
    exact hj.1
  · intro i hi hlt
    rw [Function.update_apply]
    split
    exacts [hj.1, hlt]
  · intro i
    rw [Function.update_apply]
    split
    · next hik => exact .inr ⟨List.mem_cons_self, hk.trans hik.symm⟩
    · exact .inl rfl

/-- The inner loop of `solve` flips the assignment along the path. -/
theorem flip_spec {pred : ℕ → ℕ} {l : List ℕ} {s : Flip} (h : s.Inv n pred k l) {fuel : ℕ}
    (hf : l.length < fuel) : ∃ row' phi', Loop.iterate (flipBody n pred k) fuel s = some (row', phi') ∧
      Flipped n pred k (s.j :: l) s.phi row' phi' := by
  induction fuel generalizing l s with
  | zero => exact absurd hf (Nat.not_lt_zero _)
  | succ fuel ih =>
    have hpath := h.path
    generalize hj : s.j = j at hpath
    cases hpath with
    | last hk =>
      subst hj
      have hbody : flipBody n pred k s = some (.inr (Function.update s.row s.j k,
          Function.update s.phi k s.j)) := by
        rw [flipBody, if_pos (h.lt _ List.mem_cons_self)]
        simp only [hk, if_true]
      exact ⟨_, _, Loop.iterate_inr hbody, h.last hk⟩
    | @step _ l hne hpath =>
      subst hj
      have hstep := h.step hne hpath
      have hbody : flipBody n pred k s = some (.inl ⟨s.phi (pred s.j),
          Function.update s.row s.j (pred s.j), Function.update s.phi (pred s.j) s.j⟩) := by
        rw [flipBody, if_pos (h.lt _ List.mem_cons_self)]
        simp only [hne, if_false]
      obtain ⟨row', phi', hrun, hflip⟩ := ih hstep (Nat.lt_of_succ_lt_succ hf)
      refine ⟨row', phi', (Loop.iterate_inl hbody).trans hrun, hflip.matching, hflip.assigned, ?_, ?_⟩
      · intro i hi hlt
        refine hflip.kept i hi ?_
        show Function.update s.phi (pred s.j) s.j i < n
        rw [Function.update_apply]
        split
        exacts [(h.lt _ List.mem_cons_self).1, hlt]
      · intro i
        rcases hflip.changed i with hi | ⟨hmem, hi⟩
        · by_cases heq : i = pred s.j
          · subst heq
            rw [hi.trans (Function.update_self ..)]
            exact .inr ⟨List.mem_cons_self, rfl⟩
          · exact .inl (hi.trans (Function.update_of_ne heq ..))
        · exact .inr ⟨List.mem_cons_of_mem _ hmem, hi⟩

end Optimer.ApSolver
