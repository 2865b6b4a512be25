import Optimer.Tsp.ApMatching

/-! What `ApSolver::solve` does to the assignment, whatever the prices are: a search that ends has found
an alternating path, so a run that ends has assigned every row to a column of its own. -/

namespace Optimer.ApSolver

variable {n k : ℕ} {row phi : ℕ → ℕ} {matrix : ℕ → ℕ → ValueType}

/-! ### The search for an augmenting path -/

namespace Scan

/-- The predecessor of a column is a scanned row. -/
def Reached (n : ℕ) (s : Scan) (j : ℕ) : Prop := s.pred j < n ∧ s.scannedU (s.pred j) = true

/-- The predecessors lead from a column back to row `k` over scanned columns. -/
def Leads (n : ℕ) (phi : ℕ → ℕ) (k : ℕ) (s : Scan) (j : ℕ) : Prop :=
  ∃ l, AltPath s.pred phi k j l ∧ (j :: l).Nodup ∧ ∀ x ∈ l, x < n ∧ s.scannedV x = true

/-- The invariant of the loop of `augment`, without prices. -/
structure Shape (n : ℕ) (row phi : ℕ → ℕ) (k : ℕ) (s : Scan) : Prop where
  i_lt : s.i < n
  scannedU : ∀ r < n, (s.scannedU r = true ∨ r = s.i) ↔
    (r = k ∨ ∃ j < n, s.scannedV j = true ∧ row j = r)
  scannedV : ∀ j < n, s.scannedV j = true → s.labeledV j = true ∧ row j < n
  labeled : ∀ j < n, s.labeledV j = true → s.Reached n j ∧ s.Leads n phi k j
  pi_val : ∀ j < n, s.labeledV j = false → s.pi j ≠ ⊤ → s.Reached n j

variable {s : Scan}

theorem scanRow_scannedU {r : ℕ} :
    (s.scanRow matrix).scannedU r = true ↔ s.scannedU r = true ∨ r = s.i := by
  by_cases hri : r = s.i <;> simp [Scan.scanRow, hri]

theorem nextColumn_some {j : ℕ} (h : s.nextColumn n = some j) :
    j < n ∧ s.labeledV j = true ∧ s.scannedV j = false := by
  have hp := List.find?_some h
  simp only [Bool.and_eq_true, Bool.not_eq_true'] at hp
  exact ⟨List.mem_range.mp (List.mem_of_find?_eq_some h), hp⟩

theorem nextColumn_none (h : s.nextColumn n = none) {j : ℕ} (hj : j < n)
    (hl : s.labeledV j = true) : s.scannedV j = true := by
  have hp := List.find?_eq_none.mp h j (List.mem_range.mpr hj)
  simpa [hl] using hp

/-- How a round treats the columns: those with a label keep their predecessor, and the others have
been left alone or have row `i` for it. -/
theorem scanRow_cases (j : ℕ) :
    (s.labeledV j = true → (s.scanRow matrix).labeledV j = true ∧ (s.scanRow matrix).pred j = s.pred j) ∧
    (s.labeledV j = false → (s.scanRow matrix).pred j = s.i ∨
      (s.scanRow matrix).pred j = s.pred j ∧ (s.scanRow matrix).pi j = s.pi j ∧
        (s.scanRow matrix).labeledV j = false) := by
  refine ⟨fun hl => ⟨by simp [Scan.scanRow, hl], if_neg (by simp [hl])⟩, fun hl => ?_⟩
  by_cases hhit : s.labeledV j = false ∧ (s.val matrix s.i j : WithTop ValueType) < s.pi j
  · exact .inl (if_pos hhit)
  · refine .inr ⟨if_neg hhit, if_neg hhit, ?_⟩
    exact (if_neg fun hand => hhit hand.1 : (s.scanRow matrix).labeledV j = s.labeledV j).trans hl

namespace Shape

theorem start (sol : Solution) (hk : k < n) : (Scan.start n k sol).Shape n row phi k where
  i_lt := hk
  scannedU r _ := by simp [Scan.start]
  scannedV _ _ h := absurd h Bool.false_ne_true
  labeled _ _ h := absurd h Bool.false_ne_true
  pi_val _ _ _ h := absurd rfl h

/-- A column reached from a scanned row is on a path that its predecessors lead along. -/
theorem extend (h : s.Shape n row phi k) (hm : Matching n phi row) {pred : ℕ → ℕ} {r j : ℕ}
    (hr : r < n) (hscan : s.scannedU r = true ∨ r = s.i) (hj : s.labeledV j = false)
    (hpred : pred j = r) (hold : ∀ x < n, s.labeledV x = true → pred x = s.pred x) :
    ∃ l, AltPath pred phi k j l ∧ (j :: l).Nodup ∧ ∀ x ∈ l, x < n ∧ s.scannedV x = true := by
  by_cases hrk : r = k
  · exact ⟨[], .last (hpred.trans hrk), by simp, by simp⟩
  obtain ⟨c, hc, hcs, hrow⟩ := ((h.scannedU r hr).mp hscan).resolve_left hrk
  have hcl := (h.scannedV c hc hcs).1
  obtain ⟨l, hpath, hnodup, hl⟩ := (h.labeled c hc hcl).2
  have hall : ∀ x ∈ c :: l, x < n ∧ s.scannedV x = true := List.forall_mem_cons.mpr ⟨⟨hc, hcs⟩, hl⟩
  have hphi : phi (pred j) = c := by
    rw [hpred, ← hrow]
    exact hm.right c hc (hrow ▸ hr)
  have hpath' : AltPath pred phi k c l := hpath.congr
    (fun x hx => hold x (hall x hx).1 (h.scannedV x (hall x hx).1 (hall x hx).2).1) fun _ _ _ => rfl
  refine ⟨c :: l, ?_, ?_, hall⟩
  · have hstep := AltPath.step (l := l) (hpred ▸ hrk) (hphi.symm ▸ hpath')
    rwa [hphi] at hstep
  · refine List.nodup_cons.mpr ⟨fun hmem => ?_, hnodup⟩
    have hx := hall j hmem
    exact absurd (h.scannedV j hx.1 hx.2).1 (by simp [hj])

/-- Scanning row `i` keeps the invariant. -/
theorem scanRow (h : s.Shape n row phi k) (hm : Matching n phi row) :
    (s.scanRow matrix).Shape n row phi k := by
  have hmono : ∀ r, s.scannedU r = true → (s.scanRow matrix).scannedU r = true :=
    fun r hr => scanRow_scannedU.mpr (.inl hr)
  have hi : (s.scanRow matrix).scannedU s.i = true := scanRow_scannedU.mpr (.inr rfl)
  have hpred : ∀ x < n, s.labeledV x = true → (s.scanRow matrix).pred x = s.pred x :=
    fun x _ hx => ((scanRow_cases x).1 hx).2
  have hunl : ∀ j, (s.scanRow matrix).labeledV j = false → s.labeledV j = false := fun j hj => by
    cases hl : s.labeledV j with
    | false => rfl
    | true => exact absurd (((scanRow_cases j).1 hl).1.symm.trans hj).symm Bool.false_ne_true
  refine ⟨h.i_lt, fun r hr => ?_, fun j hj hs => ?_, fun j hj hl => ?_, fun j hj hl hpi => ?_⟩
  · refine Iff.trans ?_ (h.scannedU r hr)
    rw [scanRow_scannedU]
    exact or_iff_left_of_imp .inr
  · obtain ⟨hl, hrow⟩ := h.scannedV j hj hs
    exact ⟨((scanRow_cases j).1 hl).1, hrow⟩
  · cases hold : s.labeledV j with
    | true =>
      obtain ⟨⟨hlt, hs⟩, l, hpath, hnodup, hx⟩ := h.labeled j hj hold
      have heq := hpred j hj hold
      refine ⟨⟨heq ▸ hlt, hmono _ (heq ▸ hs)⟩, l, hpath.congr (fun x hxm => ?_) fun _ _ _ => rfl,
        hnodup, hx⟩
      rcases List.mem_cons.mp hxm with rfl | hxm
      · exact heq
      · exact hpred x (hx x hxm).1 (h.scannedV x (hx x hxm).1 (hx x hxm).2).1
    | false =>
      rcases (scanRow_cases j).2 hold with heq | ⟨_, _, hno⟩
      · exact ⟨⟨heq ▸ h.i_lt, heq ▸ hi⟩, h.extend hm h.i_lt (.inr rfl) hold heq hpred⟩
      · exact absurd hl (by simp [hno])
  · rcases (scanRow_cases j).2 (hunl j hl) with heq | ⟨heq, hpi', _⟩
    · exact ⟨heq ▸ h.i_lt, heq ▸ hi⟩
    · obtain ⟨hlt, hs⟩ := h.pi_val j hj (hunl j hl) (hpi' ▸ hpi)
      exact ⟨heq ▸ hlt, hmono _ (heq ▸ hs)⟩

/-- Going on with the row of an assigned column. -/
theorem pick (h : s.Shape n row phi k) (hi : s.scannedU s.i = true) {j : ℕ} (hj : j < n)
    (hl : s.labeledV j = true) (hrow : row j < n) : Scan.Shape n row phi k
      { s with scannedV := Function.update s.scannedV j true, i := row j } := by
  have hmono : ∀ c, s.scannedV c = true → Function.update s.scannedV j true c = true := fun c hc => by
    by_cases hcj : c = j
    · subst hcj
      exact Function.update_self ..
    · rwa [Function.update_of_ne hcj]
  refine ⟨hrow, fun r hr => ?_, fun c hc hs => ?_, fun c hc hcl => ?_, h.pi_val⟩
  · have hold : s.scannedU r = true ↔ r = k ∨ ∃ j < n, s.scannedV j = true ∧ row j = r :=
      ⟨fun hs => (h.scannedU r hr).mp (.inl hs), fun hs => ((h.scannedU r hr).mpr hs).elim id (· ▸ hi)⟩
    constructor
    · rintro (hs | rfl)
      · exact (hold.mp hs).imp id fun ⟨c, hc, hs, hcr⟩ => ⟨c, hc, hmono c hs, hcr⟩
      · exact .inr ⟨j, hj, Function.update_self .., rfl⟩
    · rintro (hk | ⟨c, hc, hs, hcr⟩)
      · exact .inl (hold.mpr (.inl hk))
      · by_cases hcj : c = j
        · exact .inr (hcj ▸ hcr.symm)
        · simp only [Function.update_of_ne hcj] at hs
          exact .inl (hold.mpr (.inr ⟨c, hc, hs, hcr⟩))
  · by_cases hcj : c = j
    · subst hcj
      exact ⟨hl, hrow⟩
    · simp only [Function.update_of_ne hcj] at hs
      exact h.scannedV c hc hs
  · obtain ⟨hreach, l, hpath, hnodup, hx⟩ := h.labeled c hc hcl
    exact ⟨hreach, l, hpath, hnodup, fun x hxm => ⟨(hx x hxm).1, hmono x (hx x hxm).2⟩⟩

/-- The dual update keeps the invariant, whatever its amount. -/
theorem shift (h : s.Shape n row phi k) (hm : Matching n phi row) (d : ValueType) :
    (s.shift d).Shape n row phi k := by
  have hpi : ∀ j, s.labeledV j = false → (s.shift d).pi j = (s.pi j).map (· - d) :=
    fun j hj => if_neg (by simp [hj])
  have hunl : ∀ j, (s.shift d).labeledV j = false → s.labeledV j = false := fun j hj => by
    by_contra hne
    simp [Scan.shift, hne] at hj
  refine ⟨h.i_lt, h.scannedU, fun j hj hs => ?_, fun j hj hl => ?_, fun j hj hl hne => ?_⟩
  · obtain ⟨hl, hrow⟩ := h.scannedV j hj hs
    exact ⟨by simp [Scan.shift, hl], hrow⟩
  · cases hold : s.labeledV j with
    | true => exact h.labeled j hj hold
    | false =>
      have hzero : (s.shift d).pi j = (0 : ValueType) := by
        by_contra hne
        have heq : (s.shift d).labeledV j = s.labeledV j := if_neg fun hand => hne hand.2
        exact absurd (heq.symm.trans hl) (by simp [hold])
      rw [hpi j hold, WithTop.map_eq_some_iff] at hzero
      obtain ⟨x, hx, _⟩ := hzero
      have hreach := h.pi_val j hj hold (by rw [hx]; exact WithTop.coe_ne_top)
      exact ⟨hreach, h.extend hm hreach.1 (.inl hreach.2) hold rfl fun _ _ _ => rfl⟩
  · have hold := hunl j hl
    refine h.pi_val j hj hold fun htop => hne ?_
    rw [hpi j hold, htop, WithTop.map_top]

end Shape

end Scan

/-- An alternating path from a free column to row `k`. -/
structure Augmenting (n : ℕ) (row phi : ℕ → ℕ) (k j : ℕ) (pred : ℕ → ℕ) : Prop where
  sink : j < n ∧ row j = n
  path : ∃ l, AltPath pred phi k j l ∧ (j :: l).Nodup ∧ ∀ x ∈ j :: l, x < n ∧ pred x < n

theorem Scan.Shape.sink {s : Scan} (h : s.Shape n row phi k) {j : ℕ} (hj : j < n)
    (hl : s.labeledV j = true) (hrow : row j = n) : Augmenting n row phi k j s.pred := by
  obtain ⟨hreach, l, hpath, hnodup, hx⟩ := h.labeled j hj hl
  refine ⟨⟨hj, hrow⟩, l, hpath, hnodup, List.forall_mem_cons.mpr ⟨⟨hj, hreach.1⟩, fun x hxm => ?_⟩⟩
  obtain ⟨hxn, hxs⟩ := hx x hxm
  exact ⟨hxn, (h.labeled x hxn (h.scannedV x hxn hxs).1).1.1⟩

/-- A search that ends has found an augmenting path. -/
theorem augment_path {sol : Solution} (hm : Matching n phi row) (hk : k < n) {fuel : ℕ} {r : ℕ × Scan}
    (h : augment fuel n matrix row k sol = some r) : Augmenting n row phi k r.1 r.2.pred := by
  refine Loop.iterate_partial (Scan.Shape n row phi k) (fun r => Augmenting n row phi k r.1 r.2.pred)
    (fun s t hs hrun => ?_) (fun s r hs hrun => ?_) (.start sol hk) h
  all_goals
    have hscan : (s.scanRow matrix).Shape n row phi k := hs.scanRow hm
    have hi : (s.scanRow matrix).scannedU (s.scanRow matrix).i = true :=
      Scan.scanRow_scannedU.mpr (.inr rfl)
    rw [augmentBody, if_pos hs.i_lt] at hrun
    simp only at hrun
    cases hnext : (s.scanRow matrix).nextColumn n <;> simp only [hnext] at hrun
  · cases hdelta : (s.scanRow matrix).delta n <;> simp only [Scan.dualUpdate, hdelta] at hrun <;>
      cases hrun
    exact hscan.shift hm _
  · obtain ⟨hj, hl, _⟩ := Scan.nextColumn_some hnext
    split at hrun <;> cases hrun
    next hrow => exact hscan.pick hi hj hl ((hm.le _ hj).lt_of_ne hrow)
  · cases hdelta : (s.scanRow matrix).delta n <;> simp only [Scan.dualUpdate, hdelta] at hrun <;>
      cases hrun
  · obtain ⟨hj, hl, _⟩ := Scan.nextColumn_some hnext
    split at hrun <;> cases hrun
    next hrow => exact hscan.sink hj hl hrow

/-! ### The flip and the whole method -/

/-- The flip along an alternating path from a free column to a free row ends. -/
theorem AltPath.flip {j : ℕ} {pred : ℕ → ℕ} {l : List ℕ} (hpath : AltPath pred phi k j l)
    (hsink : j < n ∧ row j = n) (hnodup : (j :: l).Nodup)
    (hx : ∀ x ∈ j :: l, x < n ∧ pred x < n) (hm : Matching n phi row) (hfree : n ≤ phi k) {fuel : ℕ}
    (hf : n < fuel) : ∃ row' phi', Loop.iterate (flipBody n pred k) fuel ⟨j, row, phi⟩ = some (row', phi') ∧
      Flipped n pred k (j :: l) phi row' phi' := by
  have hlen : (j :: l).length ≤ n := by
    have hsub : (j :: l) ⊆ List.range n := fun x hxm => List.mem_range.mpr (hx x hxm).1
    have hle := (hnodup.subperm hsub).length_le
    rwa [List.length_range] at hle
  have hinv : Flip.Inv n pred k l ⟨j, row, phi⟩ := {
    path := hpath
    nodup := hnodup
    lt := hx
    free := hfree
    le := hm.le
    left := fun i hi hlt _ => hm.left i hi hlt
    right := fun c hc _ hlt => hm.right c hc hlt
    unused := fun i hi (hij : phi i = j) => by
      have hri := hm.left i hi (hij.symm ▸ hsink.1)
      rw [hij, hsink.2] at hri
      exact absurd hri (Nat.ne_of_gt hi) }
  exact flip_spec hinv (Nat.lt_of_lt_of_le hlen hf.le)

/-- Every row is assigned to a column of its own. -/
structure Total (n : ℕ) (phi : ℕ → ℕ) : Prop where
  lt : ∀ i < n, phi i < n
  injective : Injective n phi

theorem nextUnassigned_some (h : nextUnassigned n phi = some k) : k < n ∧ n ≤ phi k := by
  have hp := List.find?_some h
  exact ⟨List.mem_range.mp (List.mem_of_find?_eq_some h), of_decide_eq_true hp⟩

theorem nextUnassigned_none (h : nextUnassigned n phi = none) {i : ℕ} (hi : i < n) : phi i < n := by
  have hp := List.find?_eq_none.mp h i (List.mem_range.mpr hi)
  simpa using hp

theorem assignRows_matching (n : ℕ) (matrix : ℕ → ℕ → ValueType) (u v : ℕ → ValueType) :
    Matching n (inverse n (assignRows n matrix u v)) (assignRows n matrix u v) :=
  (inverse_matching (assignRows_injective n matrix u v)).symm fun a _ => assignRows_le n matrix u v a

theorem preprocess_matching {start : Option Solution} (h : ∀ sol ∈ start, Injective n sol.primal) :
    Matching n (preprocess n matrix start).2.primal (preprocess n matrix start).1 := by
  cases start with
  | some sol => exact inverse_matching (h sol rfl)
  | none => exact assignRows_matching ..

/-- A run of `solve` that ends has assigned all rows, from every partial assignment and with all
prices. -/
theorem solve_total {start : Option Solution} (h : ∀ sol ∈ start, Injective n sol.primal) {fuel : ℕ}
    {sol : Solution} (hrun : solve fuel n matrix start = some sol) : Total n sol.primal := by
  refine Loop.iterate_partial (fun s : (ℕ → ℕ) × Solution => Matching n s.2.primal s.1)
    (fun sol => Total n sol.primal) (fun s t hm hbody => ?_) (fun s t hm hbody => ?_)
    (preprocess_matching h) hrun
  all_goals
    cases hnext : nextUnassigned n s.2.primal <;> simp only [solveBody, hnext] at hbody
  · cases hbody
  · obtain ⟨hk, hfree⟩ := nextUnassigned_some hnext
    simp only [Option.bind_eq_bind, Option.bind_eq_some_iff, Option.pure_def, Option.some.injEq,
      Sum.inl.injEq, Prod.exists] at hbody
    obtain ⟨j, t', haug, row', phi', hflip, rfl⟩ := hbody
    obtain ⟨hsink, l, hpath, hnodup, hx⟩ := augment_path hm hk haug
    have hfuel : n < max fuel (n + 1) := Nat.lt_of_lt_of_le n.lt_succ_self (le_max_right _ _)
    obtain ⟨row'', phi'', hflip', hflipped⟩ :=
      hpath.flip hsink hnodup hx hm hfree hfuel
    cases (Loop.iterate_mono hflip (le_max_left _ _)).symm.trans hflip'
    exact hflipped.matching
  · cases hbody
    exact ⟨fun i hi => nextUnassigned_none hnext hi, hm.injective⟩
  · simp only [Option.bind_eq_bind, Option.bind_eq_some_iff, Option.pure_def, Option.some.injEq,
      reduceCtorEq, and_false, exists_false] at hbody

end Optimer.ApSolver
