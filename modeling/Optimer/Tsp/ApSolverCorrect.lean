import Mathlib.Data.Finset.Card
import Mathlib.Tactic.Linarith
import Mathlib.Tactic.Ring
import Optimer.Lib.Assignment
import Optimer.Tsp.ApSolverShape

/-! `ApSolver::solve` ends with a cheapest assignment and prices that show it, from an empty solution
and from every partial assignment that its prices fit. -/

namespace Optimer.ApSolver

variable {n k : ℕ} {row phi : ℕ → ℕ} {matrix : ℕ → ℕ → ValueType} {u v : ℕ → ValueType}

/-- The duals fit the matrix and the partial assignment. -/
structure Priced (n : ℕ) (matrix : ℕ → ℕ → ValueType) (phi : ℕ → ℕ) (u v : ℕ → ValueType) : Prop where
  feasible : ∀ i < n, ∀ j < n, u i + v j ≤ matrix i j
  tight : ∀ i < n, phi i < n → matrix i (phi i) = u i + v (phi i)

/-! ### The search for an augmenting path -/

namespace Scan

/-- What is known of a column with a label: its predecessor is a scanned row, the edge between them
has no slack, and the predecessors lead back to row `k` over scanned columns. -/
structure Labeled (n : ℕ) (matrix : ℕ → ℕ → ValueType) (phi : ℕ → ℕ) (k : ℕ) (s : Scan) (j : ℕ) :
    Prop where
  pred_lt : s.pred j < n
  scanned : s.scannedU (s.pred j) = true
  val : s.val matrix (s.pred j) j = 0
  path : ∃ l, AltPath s.pred phi k j l ∧ (j :: l).Nodup ∧ ∀ x ∈ l, x < n ∧ s.scannedV x = true

/-- The invariant of the loop of `augment`. -/
structure Inv (n : ℕ) (matrix : ℕ → ℕ → ValueType) (row phi : ℕ → ℕ) (k : ℕ) (s : Scan) : Prop where
  priced : Priced n matrix phi s.dualU s.dualV
  i_lt : s.i < n
  scannedU : ∀ r < n, (s.scannedU r = true ∨ r = s.i) ↔
    (r = k ∨ ∃ j < n, s.scannedV j = true ∧ row j = r)
  scannedV : ∀ j < n, s.scannedV j = true → s.labeledV j = true ∧ row j < n
  labeled : ∀ j < n, s.labeledV j = true → s.Labeled n matrix phi k j
  pi_le : ∀ j < n, s.labeledV j = false → ∀ r < n, s.scannedU r = true →
    s.pi j ≤ (s.val matrix r j : ValueType)
  pi_val : ∀ j < n, s.labeledV j = false → ∀ x : ValueType, s.pi j = x →
    s.pred j < n ∧ s.scannedU (s.pred j) = true ∧ s.val matrix (s.pred j) j = x

variable {s : Scan}

theorem Inv.start (sol : Solution) (hk : k < n) (h : Priced n matrix phi sol.dualU sol.dualV) :
    (Scan.start n k sol).Inv n matrix row phi k where
  priced := h
  i_lt := hk
  scannedU r _ := by simp [Scan.start]
  scannedV _ _ h := absurd h Bool.false_ne_true
  labeled _ _ h := absurd h Bool.false_ne_true
  pi_le _ _ _ _ _ h := absurd h Bool.false_ne_true
  pi_val _ _ _ _ h := absurd h WithTop.top_ne_coe

theorem Inv.shape (h : s.Inv n matrix row phi k) : s.Shape n row phi k where
  i_lt := h.i_lt
  scannedU := h.scannedU
  scannedV := h.scannedV
  labeled j hj hl :=
    have hlab := h.labeled j hj hl
    ⟨⟨hlab.pred_lt, hlab.scanned⟩, hlab.path⟩
  pi_val j hj hl hne := by
    obtain ⟨x, hx⟩ := WithTop.ne_top_iff_exists.mp hne
    obtain ⟨hlt, hs, _⟩ := h.pi_val j hj hl x hx.symm
    exact ⟨hlt, hs⟩

/-- Scanning row `i` keeps the invariant. -/
theorem Inv.scanRow (h : s.Inv n matrix row phi k) (hm : Matching n phi row) :
    (s.scanRow matrix).Inv n matrix row phi k := by
  have hshape : (s.scanRow matrix).Shape n row phi k := h.shape.scanRow hm
  have hunl : ∀ j, (s.scanRow matrix).labeledV j = false → s.labeledV j = false := fun j hl => by
    by_contra hne
    simp [Scan.scanRow, hne] at hl
  refine ⟨h.priced, h.i_lt, hshape.scannedU, hshape.scannedV, fun j hj hl => ?_,
    fun j hj hl r hr hs => ?_, fun j hj hl x hx => ?_⟩
  · obtain ⟨⟨hlt, hs⟩, hleads⟩ := hshape.labeled j hj hl
    refine ⟨hlt, hs, ?_, hleads⟩
    cases hold : s.labeledV j with
    | true =>
      rw [((scanRow_cases j).1 hold).2]
      exact (h.labeled j hj hold).val
    | false =>
      by_cases hhit : (s.labeledV j = false ∧ (s.val matrix s.i j : WithTop ValueType) < s.pi j) ∧
          s.val matrix s.i j = 0
      · rw [show (s.scanRow matrix).pred j = s.i from if_pos hhit.1]
        exact hhit.2
      · have hl' : (s.scanRow matrix).labeledV j = s.labeledV j := if_neg hhit
        exact absurd (hl'.symm.trans hl) (by simp [hold])
  · have hold := hunl j hl
    show (if _ then _ else _ : WithTop ValueType) ≤ (s.val matrix r j : ValueType)
    by_cases hri : r = s.i
    · subst hri
      split
      · exact le_rfl
      · next hhit => exact not_lt.mp fun hlt => hhit ⟨hold, hlt⟩
    · have hs' := (scanRow_scannedU.mp hs).resolve_right hri
      split
      · next hhit => exact hhit.2.le.trans (h.pi_le j hj hold r hr hs')
      · exact h.pi_le j hj hold r hr hs'
  · have hold := hunl j hl
    by_cases hhit : s.labeledV j = false ∧ (s.val matrix s.i j : WithTop ValueType) < s.pi j
    · have heq : (s.scanRow matrix).pred j = s.i := if_pos hhit
      have hpi : (s.scanRow matrix).pi j = s.val matrix s.i j := if_pos hhit
      rw [heq]
      exact ⟨h.i_lt, scanRow_scannedU.mpr (.inr rfl), WithTop.coe_injective (hpi.symm.trans hx)⟩
    · have heq : (s.scanRow matrix).pred j = s.pred j := if_neg hhit
      have hpi : (s.scanRow matrix).pi j = s.pi j := if_neg hhit
      obtain ⟨hlt, hs, hval⟩ := h.pi_val j hj hold x (hpi.symm.trans hx)
      rw [heq]
      exact ⟨hlt, scanRow_scannedU.mpr (.inl hs), hval⟩

/-- Going on with the row of an assigned column. -/
theorem Inv.pick (h : s.Inv n matrix row phi k) (hi : s.scannedU s.i = true) {j : ℕ} (hj : j < n)
    (hl : s.labeledV j = true) (hrow : row j < n) :
    Scan.Inv n matrix row phi k
      { s with scannedV := Function.update s.scannedV j true, i := row j } := by
  have hshape := h.shape.pick hi hj hl hrow
  refine ⟨h.priced, hrow, hshape.scannedU, hshape.scannedV, fun c hc hcl => ?_, h.pi_le, h.pi_val⟩
  obtain ⟨⟨hlt, hs⟩, hleads⟩ := hshape.labeled c hc hcl
  exact ⟨hlt, hs, (h.labeled c hc hcl).val, hleads⟩

/-! ### The dual update -/

theorem shift_val (d : ValueType) (r j : ℕ) : (s.shift d).val matrix r j =
    s.val matrix r j - (if s.scannedU r then d else 0) + (if s.labeledV j then d else 0) := by
  simp only [Scan.val, Scan.shift]
  split <;> split <;> ring

theorem Inv.val_nonneg (h : s.Inv n matrix row phi k) {r j : ℕ} (hr : r < n) (hj : j < n) :
    0 ≤ s.val matrix r j := by
  have := h.priced.feasible r hr j hj
  simp only [Scan.val]
  linarith

/-- While every labelled column is assigned, one column has no label. -/
theorem Inv.exists_unlabeled (h : s.Inv n matrix row phi k) (hm : Matching n phi row) (hk : k < n)
    (hfree : n ≤ phi k) (hnext : s.nextColumn n = none) : ∃ j < n, s.labeledV j = false := by
  by_contra hall
  push Not at hall
  have hrow : ∀ j < n, row j < n ∧ phi (row j) = j := fun j hj => by
    have hlt := (h.scannedV j hj (nextColumn_none hnext hj (Bool.eq_true_of_not_eq_false (hall j hj)))).2
    exact ⟨hlt, hm.right j hj hlt⟩
  have hmaps : ∀ j ∈ Finset.range n, row j ∈ (Finset.range n).erase k := fun j hj => by
    have hj := Finset.mem_range.mp hj
    refine Finset.mem_erase.mpr ⟨fun hjk => ?_, Finset.mem_range.mpr (hrow j hj).1⟩
    have heq := (hrow j hj).2
    rw [hjk] at heq
    omega
  have hcard : ((Finset.range n).erase k).card < (Finset.range n).card :=
    Finset.card_erase_lt_of_mem (Finset.mem_range.mpr hk)
  obtain ⟨a, ha, b, hb, hne, heq⟩ := Finset.exists_ne_map_eq_of_card_lt_of_maps_to hcard hmaps
  refine hne ?_
  rw [← (hrow a (Finset.mem_range.mp ha)).2, heq, (hrow b (Finset.mem_range.mp hb)).2]

/-- `delta` is the slack of a column without a label, and no such column has less. -/
theorem Inv.delta_spec (h : s.Inv n matrix row phi k) (hi : s.scannedU s.i = true)
    (hun : ∃ j < n, s.labeledV j = false) : ∃ d : ValueType, s.delta n = d ∧ 0 ≤ d ∧
      (∃ j < n, s.labeledV j = false ∧ s.pi j = d) ∧
      ∀ j < n, s.labeledV j = false → (d : WithTop ValueType) ≤ s.pi j := by
  obtain ⟨c, hc, hcl⟩ := hun
  have hle : ∀ j < n, s.labeledV j = false → s.delta n ≤ s.pi j := fun j hj hl => least_le hj hl
  have hc' := (hle c hc hcl).trans (h.pi_le c hc hcl s.i h.i_lt hi)
  rcases least_attained n s.labeledV s.pi with htop | ⟨j, hj, hl, heq⟩
  · rw [Scan.delta, htop] at hc'
    exact absurd (top_le_iff.mp hc') WithTop.coe_ne_top
  · have hpi : s.pi j ≠ ⊤ := fun htop => by
      rw [Scan.delta, heq, htop] at hc'
      exact absurd (top_le_iff.mp hc') WithTop.coe_ne_top
    obtain ⟨d, hd⟩ := WithTop.ne_top_iff_exists.mp hpi
    have hdelta : s.delta n = d := heq.trans hd.symm
    obtain ⟨hlt, _, hval⟩ := h.pi_val j hj hl d hd.symm
    refine ⟨d, hdelta, hval ▸ h.val_nonneg hlt hj, ⟨j, hj, hl, hd.symm⟩, fun j hj hl => ?_⟩
    exact hdelta ▸ hle j hj hl

/-- The dual update keeps the invariant and labels a column. -/
theorem Inv.shift (h : s.Inv n matrix row phi k) (hi : s.scannedU s.i = true)
    (hm : Matching n phi row) (hfree : n ≤ phi k) (hnext : s.nextColumn n = none) {d : ValueType}
    (hd : 0 ≤ d) (hle : ∀ j < n, s.labeledV j = false → (d : WithTop ValueType) ≤ s.pi j) :
    (s.shift d).Inv n matrix row phi k := by
  have hscan : ∀ r < n, s.scannedU r = true ↔ r = k ∨ ∃ j < n, s.scannedV j = true ∧ row j = r :=
    fun r hr => ⟨fun hs => (h.scannedU r hr).mp (.inl hs),
      fun hs => ((h.scannedU r hr).mpr hs).elim id (· ▸ hi)⟩
  have hshape := h.shape.shift hm d
  have hunl : ∀ j, (s.shift d).labeledV j = false → s.labeledV j = false := fun j hj => by
    by_contra hne
    simp [Scan.shift, hne] at hj
  have hpi : ∀ j, s.labeledV j = false → (s.shift d).pi j = (s.pi j).map (· - d) :=
    fun j hj => if_neg (by simp [hj])
  have hval : ∀ r j, s.scannedU r = true → s.labeledV j = false →
      (s.shift d).val matrix r j = s.val matrix r j - d := fun r j hr hj => by
    rw [shift_val, if_pos hr, if_neg (by simp [hj]), add_zero]
  refine ⟨⟨fun r hr j hj => ?_, fun r hr hphi => ?_⟩, h.i_lt, h.scannedU, hshape.scannedV,
    fun j hj hl => ?_, fun j hj hl r hr hs => ?_, fun j hj hl x hx => ?_⟩
  · have hge : 0 ≤ (s.shift d).val matrix r j := by
      have hold := h.val_nonneg hr hj
      rw [shift_val]
      by_cases hl : s.labeledV j = true
      · rw [if_pos hl]
        split <;> linarith
      · have hl := Bool.not_eq_true _ ▸ hl
        by_cases hs : s.scannedU r = true
        · have hdle := WithTop.coe_le_coe.mp ((hle j hj hl).trans (h.pi_le j hj hl r hr hs))
          rw [if_pos hs, if_neg (by simp [hl])]
          linarith
        · rw [if_neg hs, if_neg (by simp [hl])]
          linarith
    simp only [Scan.val] at hge
    linarith
  · have hiff : s.scannedU r = true ↔ s.labeledV (phi r) = true := by
      rw [hscan r hr]
      constructor
      · rintro (rfl | ⟨c, hc, hcs, hcr⟩)
        · omega
        · rw [← hcr, hm.right c hc (hcr ▸ hr)]
          exact (h.scannedV c hc hcs).1
      · exact fun hl => .inr ⟨phi r, hphi, nextColumn_none hnext hphi hl, hm.left r hr hphi⟩
    have hzero : (s.shift d).val matrix r (phi r) = 0 := by
      have hold := h.priced.tight r hr hphi
      have hold : s.val matrix r (phi r) = 0 := by
        simp only [Scan.val]
        linarith
      rw [shift_val, hold]
      by_cases hl : s.labeledV (phi r) = true
      · rw [if_pos (hiff.mpr hl), if_pos hl]
        ring
      · rw [if_neg (hl ∘ hiff.mp), if_neg hl]
        ring
    simp only [Scan.val] at hzero
    linarith
  · obtain ⟨⟨hlt, hs⟩, hleads⟩ := hshape.labeled j hj hl
    refine ⟨hlt, hs, ?_, hleads⟩
    show (s.shift d).val matrix (s.pred j) j = 0
    by_cases hold : s.labeledV j = true
    · rw [shift_val, (h.labeled j hj hold).val, if_pos (h.labeled j hj hold).scanned, if_pos hold]
      ring
    · have hold := Bool.not_eq_true _ ▸ hold
      have hzero : (s.shift d).pi j = (0 : ValueType) := by
        by_contra hne
        have heq : (s.shift d).labeledV j = s.labeledV j := if_neg fun hand => hne hand.2
        exact absurd (heq.symm.trans hl) (by simp [hold])
      rw [hpi j hold, WithTop.map_eq_some_iff] at hzero
      obtain ⟨x, hx, hxd⟩ := hzero
      obtain ⟨_, hs, hvalx⟩ := h.pi_val j hj hold x hx
      rw [hval _ _ hs hold, hvalx, hxd]
  · have hold := hunl j hl
    rw [hpi j hold, hval r j hs hold]
    have hpr := h.pi_le j hj hold r hr hs
    cases hp : s.pi j with
    | top => exact absurd (top_le_iff.mp (hp ▸ hpr)) WithTop.coe_ne_top
    | coe x =>
      rw [hp] at hpr
      exact WithTop.coe_le_coe.mpr (sub_le_sub_right (WithTop.coe_le_coe.mp hpr) d)
  · have hold := hunl j hl
    rw [hpi j hold, WithTop.map_eq_some_iff] at hx
    obtain ⟨y, hy, rfl⟩ := hx
    obtain ⟨hlt, hs, hvaly⟩ := h.pi_val j hj hold y hy
    refine ⟨hlt, hs, ?_⟩
    show (s.shift d).val matrix (s.pred j) j = y - d
    rw [hval _ _ hs hold, hvaly]

/-- What the dual update does to the prices of the rows and to the labels. -/
structure Shifted (n : ℕ) (s t : Scan) : Prop where
  dualU : ∀ r, s.dualU r ≤ t.dualU r
  pred : t.pred = s.pred
  labeled : ∀ j, s.labeledV j = true → t.labeledV j = true
  least : ∀ j < n, s.labeledV j = false → (∀ c < n, s.labeledV c = false → s.pi j ≤ s.pi c) →
    t.labeledV j = true

/-- A round that does not find a column makes one ready. -/
theorem Inv.dualUpdate (h : s.Inv n matrix row phi k) (hi : s.scannedU s.i = true)
    (hm : Matching n phi row) (hk : k < n) (hfree : n ≤ phi k) (hnext : s.nextColumn n = none) :
    ∃ t, s.dualUpdate n = some t ∧ t.Inv n matrix row phi k ∧ t.scannedV = s.scannedV ∧
      Shifted n s t ∧ ∃ j < n, t.labeledV j = true ∧ t.scannedV j = false := by
  obtain ⟨d, hdelta, hd, ⟨j, hj, hl, hpi⟩, hle⟩ :=
    h.delta_spec hi (h.exists_unlabeled hm hk hfree hnext)
  have hzero : ∀ c, s.labeledV c = false → s.pi c = d → (s.shift d).labeledV c = true := by
    intro c hc hcd
    refine if_pos ⟨hc, ?_⟩
    show (if s.labeledV c then s.pi c else (s.pi c).map (· - d)) = ((0 : ValueType) : WithTop ValueType)
    rw [if_neg (by simp [hc]), hcd, WithTop.map_coe, sub_self]
  refine ⟨s.shift d, by simp only [Scan.dualUpdate, hdelta], h.shift hi hm hfree hnext hd hle, rfl,
    ⟨fun r => ?_, rfl, fun c hc => ?_, fun c hc hcl hmin => ?_⟩, j, hj, hzero j hl hpi, ?_⟩
  · show s.dualU r ≤ if s.scannedU r then s.dualU r + d else s.dualU r
    split
    · exact le_add_of_nonneg_right hd
    · exact le_rfl
  · simp [Scan.shift, hc]
  · exact hzero c hcl (((hmin j hj hl).trans hpi.le).antisymm (hle c hc hcl))
  · by_contra hs
    exact absurd (h.scannedV j hj (Bool.not_eq_false _ ▸ hs)).1 (by simp [hl])

/-- No column has less slack in row `k`. -/
def LeastSlack (n : ℕ) (matrix : ℕ → ℕ → ValueType) (k : ℕ) (sol : Solution) (j : ℕ) : Prop :=
  ∀ c < n, matrix k j - sol.dualU k - sol.dualV j ≤ matrix k c - sol.dualU k - sol.dualV c

/-- What a search has done since its start: the prices of the rows have only been raised, and after
its first round the columns of least slack in row `k` have their label from that row. -/
structure Grown (n : ℕ) (matrix : ℕ → ℕ → ValueType) (k : ℕ) (sol : Solution) (s : Scan) : Prop where
  dualU : ∀ r, sol.dualU r ≤ s.dualU r
  direct : s = .start n k sol ∨
    ∀ j < n, LeastSlack n matrix k sol j → s.labeledV j = true ∧ s.pred j = k

namespace Grown

variable {sol : Solution}

theorem start : (Scan.start n k sol).Grown n matrix k sol := ⟨fun _ => le_rfl, .inl rfl⟩

/-- The first round takes the slacks of row `k` over. -/
theorem first (j : ℕ) : ((Scan.start n k sol).scanRow matrix).pred j = k ∧
    ((Scan.start n k sol).scanRow matrix).pi j =
      (matrix k j - sol.dualU k - sol.dualV j : ValueType) ∧
    (((Scan.start n k sol).scanRow matrix).labeledV j = true ↔
      matrix k j - sol.dualU k - sol.dualV j = 0) := by
  have hhit : (Scan.start n k sol).labeledV j = false ∧
      (((Scan.start n k sol).val matrix k j : ValueType) : WithTop ValueType) <
        (Scan.start n k sol).pi j := ⟨rfl, WithTop.coe_lt_top _⟩
  have hpred : ((Scan.start n k sol).scanRow matrix).pred j =
      if (Scan.start n k sol).labeledV j = false ∧
        (((Scan.start n k sol).val matrix k j : ValueType) : WithTop ValueType) <
          (Scan.start n k sol).pi j then k else n := rfl
  have hpi : ((Scan.start n k sol).scanRow matrix).pi j =
      if (Scan.start n k sol).labeledV j = false ∧
        (((Scan.start n k sol).val matrix k j : ValueType) : WithTop ValueType) <
          (Scan.start n k sol).pi j then
        (((Scan.start n k sol).val matrix k j : ValueType) : WithTop ValueType) else ⊤ := rfl
  refine ⟨hpred.trans (if_pos hhit), hpi.trans (if_pos hhit), ?_⟩
  by_cases hz : matrix k j - sol.dualU k - sol.dualV j = 0
  · exact iff_of_true (if_pos ⟨hhit, hz⟩) hz
  · refine iff_of_false (fun hl => ?_) hz
    have hl' := (if_neg fun hand => hz hand.2 :
      ((Scan.start n k sol).scanRow matrix).labeledV j = (Scan.start n k sol).labeledV j)
    exact Bool.false_ne_true (hl'.symm.trans hl)

/-- The labels after a round that has found a column. -/
theorem scanRow (h : s.Grown n matrix k sol) (hp : Priced n matrix phi sol.dualU sol.dualV) (hk : k < n)
    {c : ℕ} (hc : c < n) (hl : (s.scanRow matrix).labeledV c = true) :
    ∀ j < n, LeastSlack n matrix k sol j →
      (s.scanRow matrix).labeledV j = true ∧ (s.scanRow matrix).pred j = k := by
  intro j hj hmin
  rcases h.direct with rfl | hdirect
  · -- the column found has no slack in row `k`, so no column of least slack has any
    have hcz := (first c).2.2.mp hl
    have hj0 := hp.feasible k hk j hj
    exact ⟨(first j).2.2.mpr (le_antisymm (hcz ▸ hmin c hc) (by linarith)), (first j).1⟩
  · obtain ⟨hlab, hpred⟩ := hdirect j hj hmin
    exact ⟨by simp [Scan.scanRow, hlab], by simpa [Scan.scanRow, hlab] using hpred⟩

/-- The labels after a round that has found none. -/
theorem shift (h : s.Grown n matrix k sol) {t : Scan} (ht : Shifted n (s.scanRow matrix) t) :
    t.Grown n matrix k sol := by
  refine ⟨fun r => (h.dualU r).trans (ht.dualU r), .inr fun j hj hmin => ?_⟩
  rw [ht.pred]
  rcases h.direct with rfl | hdirect
  · refine ⟨?_, (first j).1⟩
    cases hl : ((Scan.start n k sol).scanRow matrix).labeledV j with
    | true => exact ht.labeled j hl
    | false =>
      refine ht.least j hj hl fun c hc _ => ?_
      rw [(first j).2.1, (first c).2.1]
      exact WithTop.coe_le_coe.mpr (hmin c hc)
  · obtain ⟨hlab, hpred⟩ := hdirect j hj hmin
    exact ⟨ht.labeled j (by simp [Scan.scanRow, hlab]), by simpa [Scan.scanRow, hlab] using hpred⟩

end Grown

/-- The columns not scanned yet, and whether a dual update comes first. -/
def measure (n : ℕ) (s : Scan) : ℕ :=
  2 * ((Finset.range n).filter fun j => s.scannedV j = false).card +
    if ∃ j < n, s.labeledV j = true ∧ s.scannedV j = false then 0 else 1

theorem measure_scanRow : (s.scanRow matrix).measure n ≤ s.measure n := by
  have hsv : (s.scanRow matrix).scannedV = s.scannedV := rfl
  have hready : (∃ j < n, s.labeledV j = true ∧ s.scannedV j = false) →
      ∃ j < n, (s.scanRow matrix).labeledV j = true ∧ s.scannedV j = false :=
    fun ⟨j, hj, hl, hs⟩ => ⟨j, hj, by simp [Scan.scanRow, hl], hs⟩
  unfold measure
  rw [hsv]
  split
  · omega
  · next hno => rw [if_neg (hno ∘ hready)]

theorem measure_pick {j : ℕ} (hj : j < n) (hs : s.scannedV j = false) (t : Scan)
    (ht : t.scannedV = Function.update s.scannedV j true) : t.measure n < s.measure n := by
  have hcard : ((Finset.range n).filter fun j => t.scannedV j = false).card <
      ((Finset.range n).filter fun j => s.scannedV j = false).card := by
    refine Finset.card_lt_card (Finset.ssubset_iff_subset_ne.mpr ⟨fun c hc => ?_, fun heq => ?_⟩)
    · simp only [Finset.mem_filter, ht] at hc ⊢
      refine ⟨hc.1, ?_⟩
      by_cases hcj : c = j
      · exact hcj ▸ hs
      · rw [Function.update_of_ne hcj] at hc
        exact hc.2
    · have hmem : j ∈ (Finset.range n).filter fun j => s.scannedV j = false :=
        Finset.mem_filter.mpr ⟨Finset.mem_range.mpr hj, hs⟩
      rw [← heq, Finset.mem_filter, ht, Function.update_self] at hmem
      exact absurd hmem.2 (by simp)
  unfold measure
  split <;> split <;> omega

end Scan

/-- What `augment` leaves for the flip: prices that still fit, and an alternating path without slack
from a free column to row `k`. -/
structure Augmented (n : ℕ) (matrix : ℕ → ℕ → ValueType) (row phi : ℕ → ℕ) (k j : ℕ) (t : Scan) :
    Prop where
  priced : Priced n matrix phi t.dualU t.dualV
  sink : j < n ∧ row j = n
  path : ∃ l, AltPath t.pred phi k j l ∧ (j :: l).Nodup ∧ ∀ x ∈ j :: l, x < n ∧ t.pred x < n ∧
    matrix (t.pred x) x = t.dualU (t.pred x) + t.dualV x

theorem Scan.Inv.sink {s : Scan} (h : s.Inv n matrix row phi k) {j : ℕ} (hj : j < n)
    (hl : s.labeledV j = true) (hrow : row j = n) (t : Scan) (hu : t.dualU = s.dualU)
    (hv : t.dualV = s.dualV) (hp : t.pred = s.pred) : Augmented n matrix row phi k j t := by
  obtain ⟨l, hpath, hnodup, hx⟩ := (h.labeled j hj hl).path
  refine ⟨hu ▸ hv ▸ h.priced, ⟨hj, hrow⟩, l, hp ▸ hpath, hnodup, fun x hxm => ?_⟩
  have hxl : x < n ∧ s.labeledV x = true := by
    rcases List.mem_cons.mp hxm with rfl | hxm
    · exact ⟨hj, hl⟩
    · exact ⟨(hx x hxm).1, (h.scannedV x (hx x hxm).1 (hx x hxm).2).1⟩
  obtain ⟨hlt, _, hval, _⟩ := h.labeled x hxl.1 hxl.2
  rw [hu, hv, hp]
  refine ⟨hxl.1, hlt, ?_⟩
  simp only [Scan.val] at hval
  linarith

/-- `augment` ends, with an augmenting path and the prices of the rows no lower; the columns of least
slack in row `k` follow that row on it. -/
theorem augment_spec {sol : Solution} (hm : Matching n sol.primal row)
    (hp : Priced n matrix sol.primal sol.dualU sol.dualV) (hk : k < n) (hfree : n ≤ sol.primal k)
    {fuel : ℕ} (hf : 2 * n + 1 < fuel) : ∃ r, augment fuel n matrix row k sol = some r ∧
      Augmented n matrix row sol.primal k r.1 r.2 ∧ (∀ i, sol.dualU i ≤ r.2.dualU i) ∧
      ∀ j < n, Scan.LeastSlack n matrix k sol j → r.2.pred j = k := by
  refine Loop.iterate_total
    (fun s => Scan.Inv n matrix row sol.primal k s ∧ Scan.Grown n matrix k sol s) (Scan.measure n)
    (fun s h => ?_) ⟨.start sol hk hp, .start⟩ ?_
  · obtain ⟨hs, hg⟩ := h
    have hscan := hs.scanRow hm
    have hi : (s.scanRow matrix).scannedU (s.scanRow matrix).i = true :=
      Scan.scanRow_scannedU.mpr (.inr rfl)
    have hsv : (s.scanRow matrix).scannedV = s.scannedV := rfl
    cases hnext : (s.scanRow matrix).nextColumn n with
    | some j =>
      obtain ⟨hj, hl, hjs⟩ := Scan.nextColumn_some hnext
      have hdirect := hg.scanRow hp hk hj hl
      by_cases hrow : row j = n
      · refine .inr ⟨(j, { s.scanRow matrix with scannedV := Function.update s.scannedV j true }), ?_,
          hscan.sink hj hl hrow _ rfl rfl rfl, hg.dualU, fun c hc hmin => (hdirect c hc hmin).2⟩
        simp only [augmentBody, hs.i_lt, hnext, hrow, if_true, hsv]
      · refine .inl ⟨{ s.scanRow matrix with
          scannedV := Function.update s.scannedV j true, i := row j }, ?_, ⟨?_, hg.dualU, .inr hdirect⟩,
            ?_⟩
        · simp only [augmentBody, hs.i_lt, hnext, hrow, if_true, if_false, hsv]
        · exact hscan.pick hi hj hl ((hm.le j hj).lt_of_ne hrow)
        · exact (Scan.measure_pick hj hjs { s.scanRow matrix with
            scannedV := Function.update s.scannedV j true, i := row j } rfl).trans_le
              Scan.measure_scanRow
    | none =>
      obtain ⟨t, ht, hinv, htv, hshift, hready⟩ := hscan.dualUpdate hi hm hk hfree hnext
      refine .inl ⟨t, by simp only [augmentBody, hs.i_lt, if_true, hnext, ht, Option.map_some],
        ⟨hinv, hg.shift hshift⟩, ?_⟩
      have hnone : ¬ ∃ j < n, s.labeledV j = true ∧ s.scannedV j = false := by
        rintro ⟨j, hj, hl, hjs⟩
        have hl' : (s.scanRow matrix).labeledV j = true := by simp [Scan.scanRow, hl]
        exact absurd (Scan.nextColumn_none hnext hj hl') (by simp [hsv, hjs])
      rw [Scan.measure, Scan.measure, if_pos hready, if_neg hnone, htv, hsv]
      exact Nat.lt_succ_self _
  · have hcard := Finset.card_filter_le (Finset.range n) fun j => (Scan.start n k sol).scannedV j = false
    rw [Finset.card_range] at hcard
    unfold Scan.measure
    split <;> omega

/-! ### The whole method -/

/-- A starting solution that `solve` can go on from. -/
structure Warm (n : ℕ) (matrix : ℕ → ℕ → ValueType) (sol : Solution) : Prop where
  injective : Injective n sol.primal
  priced : Priced n matrix sol.primal sol.dualU sol.dualV

/-- A solved assignment problem: every row is assigned to a column of its own, at its price. -/
structure Solved (n : ℕ) (matrix : ℕ → ℕ → ValueType) (sol : Solution) : Prop where
  lt : ∀ i < n, sol.primal i < n
  injective : Injective n sol.primal
  priced : Priced n matrix sol.primal sol.dualU sol.dualV

theorem assignRows_priced (hfeas : ∀ i < n, ∀ j < n, u i + v j ≤ matrix i j) :
    Priced n matrix (inverse n (assignRows n matrix u v)) u v := by
  refine ⟨hfeas, fun i hi hlt => ?_⟩
  have hrow := (assignRows_matching n matrix u v).left i hi hlt
  have htight := assignRows_tight (hrow.symm ▸ hi)
  rwa [hrow] at htight

theorem preprocess_spec {start : Option Solution} (h : ∀ sol ∈ start, Warm n matrix sol) :
    Matching n (preprocess n matrix start).2.primal (preprocess n matrix start).1 ∧
      Priced n matrix (preprocess n matrix start).2.primal (preprocess n matrix start).2.dualU
        (preprocess n matrix start).2.dualV := by
  refine ⟨preprocess_matching fun sol hsol => (h sol hsol).injective, ?_⟩
  cases start with
  | some sol => exact (h sol rfl).priced
  | none =>
    refine assignRows_priced fun i hi j _ => ?_
    have hle := minOver_le (f := fun i => matrix i j - minOver n fun j => matrix i j) hi
    linarith

/-- The rows without a column. -/
def unassigned (n : ℕ) (phi : ℕ → ℕ) : Finset ℕ := (Finset.range n).filter fun i => n ≤ phi i

/-- The flip along an augmenting path assigns one more row. -/
theorem Augmented.flip {sol : Solution} {j : ℕ} {t : Scan}
    (h : Augmented n matrix row sol.primal k j t) (hm : Matching n sol.primal row)
    (hfree : n ≤ sol.primal k) (hk : k < n) {fuel : ℕ} (hf : n < fuel) :
    ∃ row' phi', Loop.iterate (flipBody n t.pred k) fuel ⟨j, row, sol.primal⟩ = some (row', phi') ∧
      Matching n phi' row' ∧ Priced n matrix phi' t.dualU t.dualV ∧
      (unassigned n phi').card < (unassigned n sol.primal).card := by
  obtain ⟨hpriced, hsink, l, hpath, hnodup, hx⟩ := h
  have hlt : ∀ x ∈ j :: l, x < n ∧ t.pred x < n := fun x hxm => ⟨(hx x hxm).1, (hx x hxm).2.1⟩
  obtain ⟨row', phi', hrun, hflip⟩ := hpath.flip hsink hnodup hlt hm hfree hf
  refine ⟨row', phi', hrun, hflip.matching, ⟨hpriced.feasible, fun i hi hlt => ?_⟩, ?_⟩
  · rcases hflip.changed i with heq | ⟨hmem, heq⟩
    · have heq : phi' i = sol.primal i := heq
      rw [heq] at hlt ⊢
      exact hpriced.tight i hi hlt
    · have htight := (hx _ hmem).2.2
      rwa [heq] at htight
  · refine Finset.card_lt_card (Finset.ssubset_iff_subset_ne.mpr ⟨fun i hi => ?_, fun heq => ?_⟩)
    · simp only [unassigned, Finset.mem_filter, Finset.mem_range] at hi ⊢
      refine ⟨hi.1, not_lt.mp fun hlt => ?_⟩
      exact absurd (hflip.kept i hi.1 hlt) (not_lt.mpr hi.2)
    · have hmem : k ∈ unassigned n sol.primal :=
        Finset.mem_filter.mpr ⟨Finset.mem_range.mpr hk, hfree⟩
      rw [← heq, unassigned, Finset.mem_filter] at hmem
      exact absurd hflip.assigned (not_lt.mpr hmem.2)

/-- `solve` ends with a solved assignment problem, and the prices of the rows no lower. -/
theorem solve_spec {start : Option Solution} (h : ∀ sol ∈ start, Warm n matrix sol) {fuel : ℕ}
    (hf : 2 * n + 1 < fuel) : ∃ sol, solve fuel n matrix start = some sol ∧ Solved n matrix sol ∧
      ∀ i, (preprocess n matrix start).2.dualU i ≤ sol.dualU i := by
  refine Loop.iterate_total (fun s : (ℕ → ℕ) × Solution => (Matching n s.2.primal s.1 ∧
      Priced n matrix s.2.primal s.2.dualU s.2.dualV) ∧
        ∀ i, (preprocess n matrix start).2.dualU i ≤ s.2.dualU i)
    (fun s => (unassigned n s.2.primal).card) (fun s hs => ?_) ⟨preprocess_spec h, fun _ => le_rfl⟩ ?_
  · obtain ⟨row, sol⟩ := s
    obtain ⟨⟨hm, hp⟩, hle⟩ := hs
    cases hnext : nextUnassigned n sol.primal with
    | none =>
      refine .inr ⟨sol, by simp only [solveBody, hnext], ?_, hle⟩
      exact ⟨fun i hi => nextUnassigned_none hnext hi, hm.injective, hp⟩
    | some k =>
      obtain ⟨hk, hfree⟩ := nextUnassigned_some hnext
      obtain ⟨⟨j, t⟩, haug, hpost, hmono, _⟩ := augment_spec hm hp hk hfree hf
      have hfn : n < fuel := by omega
      obtain ⟨row', phi', hflip, hm', hp', hcard⟩ := hpost.flip hm hfree hk hfn
      refine .inl ⟨(row', { dualU := t.dualU, dualV := t.dualV, primal := phi' }), ?_,
        ⟨⟨hm', hp'⟩, fun i => (hle i).trans (hmono i)⟩, hcard⟩
      simp [solveBody, hnext, haug, hflip]
  · have hcard := Finset.card_filter_le (Finset.range n)
      fun i => n ≤ (preprocess n matrix start).2.primal i
    rw [Finset.card_range] at hcard
    show (unassigned n _).card < fuel
    rw [unassigned]
    omega

/-- Where one row and one column are free and the column has the least slack in the row, `solve`
assigns the one to the other. -/
theorem solve_direct {sol : Solution} (h : Warm n matrix sol) (hk : k < n) (hfree : n ≤ sol.primal k)
    (hother : ∀ i < n, i ≠ k → sol.primal i < n) {j : ℕ} (hj : j < n)
    (hunused : ∀ i < n, sol.primal i ≠ j) (hmin : Scan.LeastSlack n matrix k sol j) {fuel : ℕ}
    (hf : 2 * n + 1 < fuel) : ∃ sol', solve fuel n matrix (some sol) = some sol' ∧
      sol'.primal = Function.update sol.primal k j := by
  have hm := inverse_matching h.injective
  obtain ⟨⟨c, t⟩, haug, hpost, _, hdirect⟩ := augment_spec hm h.priced hk hfree hf
  obtain ⟨hc, hrow⟩ : c < n ∧ inverse n sol.primal c = n := hpost.sink
  have hne : ∀ i, i ≠ k → Function.update sol.primal k j i = sol.primal i :=
    fun i hi => Function.update_of_ne hi ..
  have hlt : ∀ i < n, Function.update sol.primal k j i < n := fun i hi => by
    by_cases hik : i = k
    · rwa [hik, Function.update_self]
    · rw [hne i hik]
      exact hother i hi hik
  -- every column but `j` is taken, so the path ends in `j`
  have hcj : c = j := by
    have hinj : Set.InjOn (Function.update sol.primal k j) (Finset.range n : Set ℕ) := by
      intro a ha b hb hab
      have ha := Finset.mem_range.mp (Finset.mem_coe.mp ha)
      have hb := Finset.mem_range.mp (Finset.mem_coe.mp hb)
      by_cases hak : a = k <;> by_cases hbk : b = k
      · exact hak.trans hbk.symm
      · rw [hak, Function.update_self, hne b hbk] at hab
        exact absurd hab.symm (hunused b hb)
      · rw [hbk, Function.update_self, hne a hak] at hab
        exact absurd hab (hunused a ha)
      · rw [hne a hak, hne b hbk] at hab
        exact h.injective a ha b hb (hother a ha hak) hab
    have hmaps : Set.MapsTo (Function.update sol.primal k j) (Finset.range n) (Finset.range n) :=
      fun i hi => by simpa using hlt i (by simpa using hi)
    obtain ⟨a, ha, hac⟩ := Finset.surjOn_of_injOn_of_card_le _ hmaps hinj le_rfl (by simpa using hc)
    have ha := Finset.mem_range.mp (Finset.mem_coe.mp ha)
    by_cases hak : a = k
    · rw [← hac, hak, Function.update_self]
    · rw [hne a hak] at hac
      have hra := hm.left a ha (hac ▸ hc)
      rw [hac, hrow] at hra
      exact absurd hra (Nat.ne_of_gt ha)
  subst hcj
  obtain ⟨fuel, rfl⟩ : ∃ f, fuel = f + 2 := ⟨fuel - 2, by omega⟩
  have hnext : nextUnassigned n sol.primal = some k := by
    cases hi : nextUnassigned n sol.primal with
    | none => exact absurd (nextUnassigned_none hi hk) (not_lt.mpr hfree)
    | some i =>
      obtain ⟨hin, hun⟩ := nextUnassigned_some hi
      by_contra hne
      exact absurd (hother i hin fun hik => hne (hik ▸ rfl)) (not_lt.mpr hun)
  have hflip : Loop.iterate (flipBody n t.pred k) (fuel + 2) ⟨c, inverse n sol.primal, sol.primal⟩ =
      some (Function.update (inverse n sol.primal) c k, Function.update sol.primal k c) := by
    have hpred : t.pred c = k := hdirect c hc hmin
    refine Loop.iterate_inr ?_
    have hlt : c < n ∧ k < n := ⟨hc, hk⟩
    simp only [flipBody, hpred, hlt, and_self, if_true]
  have hlast : nextUnassigned n (Function.update sol.primal k c) = none := by
    refine List.find?_eq_none.mpr fun i hi => ?_
    simpa using hlt i (List.mem_range.mp hi)
  refine ⟨{ dualU := t.dualU, dualV := t.dualV, primal := Function.update sol.primal k c }, ?_, rfl⟩
  have hround : solveBody (fuel + 2) n matrix (preprocess n matrix (some sol)) =
      some (.inl (Function.update (inverse n sol.primal) c k,
        { dualU := t.dualU, dualV := t.dualV, primal := Function.update sol.primal k c })) := by
    simp only [solveBody, preprocess, hnext, haug, hflip, Option.bind_eq_bind, Option.bind_some]
    rfl
  rw [solve, Loop.iterate_inl hround]
  refine Loop.iterate_inr ?_
  simp only [solveBody, hlast]

theorem Solved.total {sol : Solution} (h : Solved n matrix sol) : Total n sol.primal :=
  ⟨h.lt, h.injective⟩

theorem Solved.assigns {sol : Solution} (h : Solved n matrix sol) :
    Assignment.Assigns (Finset.range n) (Finset.range n) sol.primal := by
  refine Assignment.assigns_of_injOn (fun i hi => ?_) (fun i hi j hj => ?_) le_rfl
  · simp only [Finset.coe_range, Set.mem_Iio] at hi ⊢
    exact h.lt i hi
  · simp only [Finset.coe_range, Set.mem_Iio] at hi hj
    exact h.injective i hi j hj (h.lt i hi)

/-- A solved problem is a cheapest assignment. -/
theorem Solved.optimal {sol : Solution} (h : Solved n matrix sol) {q : ℕ → ℕ}
    (hq : Assignment.Assigns (Finset.range n) (Finset.range n) q) :
    ∑ i ∈ Finset.range n, matrix i (sol.primal i) ≤ ∑ i ∈ Finset.range n, matrix i (q i) := by
  refine Assignment.Feasible.optimal (u := sol.dualU) (v := sol.dualV) (fun i hi j hj => ?_)
    h.assigns (fun i hi => ?_) hq
  · exact h.priced.feasible i (Finset.mem_range.mp hi) j (Finset.mem_range.mp hj)
  · have hi := Finset.mem_range.mp hi
    exact h.priced.tight i hi (h.lt i hi)

/-- `solve` ends with a permutation and prices that show that no permutation costs less, and no index
on the way is out of range. The cost is the same from an empty solution and from every partial
assignment that its prices fit. -/
theorem solve_minimum (n : ℕ) (matrix : ℕ → ℕ → ValueType) : ∃ best,
    (∀ q, Assignment.Assigns (Finset.range n) (Finset.range n) q →
      best ≤ ∑ i ∈ Finset.range n, matrix i (q i)) ∧
    ∀ start : Option Solution, (∀ sol ∈ start, Warm n matrix sol) → ∀ fuel, 2 * n + 1 < fuel →
      ∃ sol, solve fuel n matrix start = some sol ∧
        Assignment.Assigns (Finset.range n) (Finset.range n) sol.primal ∧
        Priced n matrix sol.primal sol.dualU sol.dualV ∧
        ∑ i ∈ Finset.range n, matrix i (sol.primal i) = best := by
  have hnone : ∀ sol ∈ (none : Option Solution), Warm n matrix sol := fun _ h => nomatch h
  obtain ⟨first, _, hfirst, _⟩ := solve_spec hnone (Nat.lt_succ_self (2 * n + 1))
  refine ⟨∑ i ∈ Finset.range n, matrix i (first.primal i), fun q hq => hfirst.optimal hq, ?_⟩
  intro start h fuel hf
  obtain ⟨sol, hrun, hsol, _⟩ := solve_spec h hf
  refine ⟨sol, hrun, hsol.assigns, hsol.priced, le_antisymm ?_ ?_⟩
  · exact hsol.optimal hfirst.assigns
  · exact hfirst.optimal hsol.assigns

/-- A matrix with a negative entry, and a start with its first row on the wrong column. -/
theorem solve_minimum_pair :
    let matrix : ℕ → ℕ → ValueType := fun i j => if i = 0 then (if j = 0 then 2 else 1) else -3 * j
    let start : Solution := ⟨fun i => if i = 0 then 1 else -3, fun _ => 0, fun i => if i = 0 then 1 else 2⟩
    Warm 2 matrix start ∧ ∃ best, ∃ a ∈ solve 6 2 matrix none, ∃ b ∈ solve 6 2 matrix (some start),
      ∑ i ∈ Finset.range 2, matrix i (a.primal i) = best ∧
        ∑ i ∈ Finset.range 2, matrix i (b.primal i) = best := by
  intro matrix start
  have hwarm : Warm 2 matrix start := by
    refine ⟨?_, ?_, ?_⟩
    · unfold Injective; decide +kernel
    · decide +kernel
    · decide +kernel
  obtain ⟨best, _, hbest⟩ := solve_minimum 2 matrix
  obtain ⟨a, ha, _, _, hcost⟩ := hbest none (fun _ h => nomatch h) 6 (by decide)
  obtain ⟨b, hb, _, _, hcost'⟩ :=
    hbest (some start) (fun _ h => Option.some.inj h ▸ hwarm) 6 (by decide)
  exact ⟨hwarm, best, a, ha, b, hb, hcost, hcost'⟩

end Optimer.ApSolver
