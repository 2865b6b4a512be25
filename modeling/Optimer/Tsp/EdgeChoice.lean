import Optimer.Tsp.AsymmetricCorrect

/-! Rule 1 of `TspSolver`: at every node with a tour it finds an edge to exclude or include, although it
takes both of its two minima from the row of the edge's second vertex. -/

namespace Optimer.Tsp
open Finset Transition

variable {data : InitialData} {node new : Node} {fuel i j k l m : ℕ} {p q : ℕ → ℕ}

/-! ### The minima of a row -/

/-- What the loop over row `i` has found among the first `m` entries once one of them is at most
`M_VAL`; the row values are the column values with another index. -/
structure MinValues.Found (data : InitialData) (node : Node) (i m : ℕ) (s : MinValues × MinValues) :
    Prop where
  le : ∀ j < m, s.1.first ≤ ruleVal data node i j
  third_le : ∀ j < m, j ≠ s.1.second → s.1.third ≤ ruleVal data node i j
  first_le : s.1.first ≤ s.1.third
  third_bound : s.1.third ≤ mVal
  row : s.2 = ⟨s.1.first, i, s.1.third⟩

theorem MinValues.Found.step {s : MinValues × MinValues} (h : Found data node i m s) :
    Found data node i (m + 1) (minStep data node i s m) := by
  obtain ⟨⟨first, second, third⟩, row⟩ := s
  obtain ⟨hle, hthird, hfirst, hbound, hrow⟩ := h
  simp only at hle hthird hfirst hbound hrow
  subst hrow
  rcases le_or_gt (ruleVal data node i m) first with hval | hval
  · have hstep : minStep data node i (⟨first, second, third⟩, ⟨first, i, third⟩) m =
        (⟨ruleVal data node i m, m, first⟩, ⟨ruleVal data node i m, i, first⟩) := by
      simp only [minStep, if_pos hval]
    rw [hstep]
    refine ⟨fun j hj => ?_, fun j hj hne => ?_, hval, hfirst.trans hbound, rfl⟩
    · rcases Nat.lt_succ_iff_lt_or_eq.mp hj with hj | rfl
      exacts [hval.trans (hle j hj), le_rfl]
    · exact hle j ((Nat.lt_succ_iff_lt_or_eq.mp hj).resolve_right hne)
  · rcases le_or_gt (ruleVal data node i m) third with hval' | hval'
    · have hstep : minStep data node i (⟨first, second, third⟩, ⟨first, i, third⟩) m =
          (⟨first, second, ruleVal data node i m⟩, ⟨first, i, ruleVal data node i m⟩) := by
        simp only [minStep, if_neg (not_le.mpr hval), if_pos hval', le_refl, if_true]
      rw [hstep]
      refine ⟨fun j hj => ?_, fun j hj hne => ?_, hval.le, hval'.trans hbound, rfl⟩
      · rcases Nat.lt_succ_iff_lt_or_eq.mp hj with hj | rfl
        exacts [hle j hj, hval.le]
      · rcases Nat.lt_succ_iff_lt_or_eq.mp hj with hj | rfl
        exacts [hval'.trans (hthird j hj hne), le_rfl]
    · have hstep : minStep data node i (⟨first, second, third⟩, ⟨first, i, third⟩) m =
          (⟨first, second, third⟩, ⟨first, i, third⟩) := by
        simp only [minStep, if_neg (not_le.mpr hval), if_neg (not_le.mpr hval')]
      rw [hstep]
      refine ⟨fun j hj => ?_, fun j hj hne => ?_, hfirst, hbound, rfl⟩
      · rcases Nat.lt_succ_iff_lt_or_eq.mp hj with hj | rfl
        exacts [hle j hj, hval.le]
      · rcases Nat.lt_succ_iff_lt_or_eq.mp hj with hj | rfl
        exacts [hthird j hj hne, hval'.le]

/-- The loop over row `i`. -/
theorem minValues_found (hj : j < data.rank) (hval : ruleVal data node i j ≤ mVal) :
    MinValues.Found data node i data.rank (minValues data node i) := by
  have hrounds : ∀ m, ((∀ j < m, mVal < ruleVal data node i j) ∧
      (List.range m).foldl (minStep data node i) ({}, {}) = ({}, {})) ∨
      MinValues.Found data node i m ((List.range m).foldl (minStep data node i) ({}, {})) := by
    intro m
    induction m with
    | zero => exact .inl ⟨fun j hj => absurd hj (Nat.not_lt_zero j), rfl⟩
    | succ m ih =>
      rw [List.range_succ, List.foldl_append, List.foldl_cons, List.foldl_nil]
      rcases ih with ⟨habove, heq⟩ | hfound
      · rw [heq]
        rcases le_or_gt (ruleVal data node i m) mVal with hval | hval
        · right
          have hstep : minStep data node i ({}, {}) m =
              (⟨ruleVal data node i m, m, mVal⟩, ⟨ruleVal data node i m, i, mVal⟩) := by
            simp only [minStep, if_pos hval]
          rw [hstep]
          refine ⟨fun j hj => ?_, fun j hj hne => ?_, hval, le_rfl, rfl⟩
          · rcases Nat.lt_succ_iff_lt_or_eq.mp hj with hj | rfl
            exacts [hval.trans (habove j hj).le, le_rfl]
          · exact (habove j ((Nat.lt_succ_iff_lt_or_eq.mp hj).resolve_right hne)).le
        · left
          have hzero : ¬ ruleVal data node i m ≤ 0 := not_le.mpr (Costs.mVal_pos.trans hval)
          refine ⟨fun j hj => ?_, ?_⟩
          · rcases Nat.lt_succ_iff_lt_or_eq.mp hj with hj | rfl
            exacts [habove j hj, hval]
          · simp only [minStep, if_neg (not_le.mpr hval), if_neg hzero]
      · exact .inr hfound.step
  rcases hrounds data.rank with ⟨habove, _⟩ | hfound
  · exact absurd hval (not_le.mpr (habove j hj))
  · exact hfound

namespace MinValues.Found

variable {s : MinValues × MinValues}

/-- The two minima together are at most any two entries. -/
theorem add_le (h : Found data node i m s) (hk : k < m) (hl : l < m) (hkl : k ≠ l) :
    s.1.first + s.1.third ≤ ruleVal data node i k + ruleVal data node i l := by
  by_cases hsecond : l = s.1.second
  · rw [add_comm (ruleVal data node i k)]
    exact add_le_add (h.le l hl) (h.third_le k hk fun hks => hkl (hks.trans hsecond.symm))
  · exact add_le_add (h.le k hk) (h.third_le l hl hsecond)

end MinValues.Found

/-- The value of an edge is at most the sum of two entries in the row of its second vertex. -/
theorem pValue_le (hij : i ≠ j) (hk : k < data.rank) (hl : l < data.rank) (hkl : k ≠ l)
    (hval : ruleVal data node j k ≤ mVal) :
    pValue data node i j ≤ ruleVal data node j k + ruleVal data node j l := by
  have hfound := minValues_found hk hval
  refine .trans ?_ (hfound.add_le hk hl hkl)
  simp only [pValue, hfound.row]
  rw [if_pos hij.symm, add_comm]
  refine add_le_add le_rfl ?_
  split
  exacts [hfound.first_le, le_rfl]

theorem pValue_le_of_ne (hij : i ≠ j) (hsecond : (minValues data node i).1.second ≠ j)
    (hk : k < data.rank) (hval : ruleVal data node j k ≤ 0) : pValue data node i j ≤ 0 := by
  have hfound := minValues_found hk (hval.trans Costs.mVal_pos.le)
  simp only [pValue, hfound.row]
  rw [if_pos hij.symm, if_pos hsecond]
  have hfirst := (hfound.le k hk).trans hval
  exact add_nonpos hfirst hfirst

/-! ### The edge -/

/-- An edge is found if some open one is below `M_VAL`. -/
theorem minEdge_ne_none (hi : i < data.rank) (hj : j < data.rank) (hopen : closedMap node (i, j) = false)
    (hlow : pValue data node i j < mVal) : minEdge data node ≠ none := fun hnone =>
  absurd hlow (not_lt.mpr (edgeStep_rounds.2 hnone (i, j) (List.mem_flatMap.mpr
    ⟨i, List.mem_range.mpr hi, List.mem_map.mpr ⟨j, List.mem_range.mpr hj, rfl⟩⟩) hopen))

section Exists

variable (hc : Costs data) (hn : 3 ≤ data.rank) (h : node.Valid data) (hq : q ∈ node.tours data)

include hc hn h hq

theorem tour_clean (hi : i < data.rank) :
    node.primal i ≠ i ∧ (i, node.primal i) ∉ node.excludedPoints :=
  have hn2 : 2 ≤ data.rank := Nat.le_of_succ_le hn
  h.solved.clean hc hq.1.perm hq.2 (hc.cost_lt hq.1.perm fun _ hi => hq.1.ne hn2 hi) hi

/-- The entry of a free row in the column it is assigned to is `0`. -/
theorem ruleVal_primal (hi : i ∈ node.rows data) : ruleVal data node i (node.primal i) = 0 := by
  have htight := h.solved.tight i hi
  rw [Node.cost, if_neg (tour_clean hc hn h hq (Node.mem_rows.mp hi).1).2] at htight
  rw [ruleVal, htight]
  ring

/-- The edges of a tour and of the assignment in a free row are open. -/
theorem open_edges (hi : i ∈ node.rows data) :
    closedMap node (i, node.primal i) = false ∧ closedMap node (i, q i) = false := by
  have hfree := Node.mem_rows.mp hi
  have hassigns := Node.assigns_free h.solved.perm h.solved.edges h.solved.included
  have htour := Node.assigns_free hq.1.perm h.solved.edges hq.2.included
  refine ⟨closedMap_false.mpr ⟨hfree.2, ?_, (tour_clean hc hn h hq hfree.1).2⟩,
    closedMap_false.mpr ⟨hfree.2, ?_, fun hexc => hq.2.excluded _ hexc rfl⟩⟩
  · exact (Node.mem_cols.mp (hassigns.mapsTo hi)).2
  · exact (Node.mem_cols.mp (htour.mapsTo hi)).2

/-- Without included edges the edge of some row that is not its minimum has value `0` at most. -/
theorem exists_low_free (hinc : node.includedPoints = []) : ∃ i < data.rank, ∃ j < data.rank,
    closedMap node (i, j) = false ∧ pValue data node i j < mVal := by
  have hrow : ∀ i < data.rank, i ∈ node.rows data := fun i hi =>
    Node.mem_rows.mpr ⟨hi, by rw [usedRows, hinc]; exact List.not_mem_nil⟩
  have hlow : ∀ i < data.rank, ∀ j < data.rank, i ≠ j → (minValues data node i).1.second ≠ j →
      pValue data node i j < mVal := fun i hi j hj hij hsecond =>
    (pValue_le_of_ne hij hsecond (h.solved.perm.lt hj) (ruleVal_primal hc hn h hq (hrow j hj)).le).trans_lt
      Costs.mVal_pos
  by_cases hne : ∃ i < data.rank, q i ≠ node.primal i
  · obtain ⟨i, hi, hqi⟩ := hne
    obtain ⟨hopen, hopen'⟩ := open_edges hc hn h hq (hrow i hi)
    by_cases hsecond : (minValues data node i).1.second = node.primal i
    · exact ⟨i, hi, q i, hq.1.perm.lt hi, hopen', hlow i hi _ (hq.1.perm.lt hi)
        (hq.1.ne (Nat.le_of_succ_le hn) hi).symm fun heq => hqi (heq.symm.trans hsecond)⟩
    · exact ⟨i, hi, _, h.solved.perm.lt hi, hopen, hlow i hi _ (h.solved.perm.lt hi)
        (tour_clean hc hn h hq hi).1.symm hsecond⟩
  · push Not at hne
    have htour := hq.1.congr (fun v hv => (hne v hv).symm) (by omega)
    obtain ⟨j, hj, hj0, hsecond⟩ : ∃ j < data.rank, 0 ≠ j ∧ (minValues data node 0).1.second ≠ j := by
      by_cases h1 : (minValues data node 0).1.second = 1
      · exact ⟨2, by omega, by omega, by omega⟩
      · exact ⟨1, by omega, by omega, h1⟩
    have hmark := h.unmarked_of_tour htour (0, j)
    refine ⟨0, by omega, j, hj, closedMap_false.mpr ⟨?_, ?_, fun hexc => ?_⟩,
      hlow 0 (by omega) j hj hj0 hsecond⟩
    · rw [usedRows, hinc]
      exact List.not_mem_nil
    · rw [usedCols, hinc]
      exact List.not_mem_nil
    · exact Bool.eq_false_iff.mp hmark (Node.edgeMap_eq_true.mpr (.inr hexc))

/-- An edge of a tour in a free row is below `M_VAL` if the row of its second vertex is free, or has two
used columns to choose from. -/
theorem pValue_tour (hi : i ∈ node.rows data)
    (hrow : q i ∈ node.rows data ∧ (∃ k, k ∈ usedCols node) ∨
      ∃ k ∈ usedCols node, ∃ l ∈ usedCols node, k ≠ l) : pValue data node i (q i) < mVal := by
  have hn2 : 2 ≤ data.rank := Nat.le_of_succ_le hn
  have hi' := (Node.mem_rows.mp hi).1
  have hij := (hq.1.ne hn2 hi').symm
  have hj := hq.1.perm.lt hi'
  have hopen := (closedMap_false.mp (open_edges hc hn h hq hi).2).2.1
  have hcol : ∀ k ∈ usedCols node, k < data.rank ∧ q i ≠ k := fun k hk => by
    obtain ⟨e, he, rfl⟩ := List.mem_map.mp hk
    exact ⟨(h.solved.edges.lt e he).2, fun heq => hopen (heq ▸ hk)⟩
  -- in a used column an entry is at most the cost
  have hval : ∀ k ∈ usedCols node, ruleVal data node (q i) k ≤ data.matrix (q i) k := fun k hk => by
    rw [ruleVal, h.solved.used.2 k hk, sub_zero]
    exact sub_le_self _ (h.solved.dualU _ hj)
  have hlt : ∀ k ∈ usedCols node, ruleVal data node (q i) k < mVal := fun k hk =>
    (hval k hk).trans_lt (hc.lt hn2 hj (hcol k hk).1 (hcol k hk).2)
  rcases hrow with ⟨hfree, k, hk⟩ | ⟨k, hk, l, hl, hkl⟩
  · have hzero := ruleVal_primal hc hn h hq hfree
    have hne : k ≠ node.primal (q i) := fun heq =>
      (closedMap_false.mp (open_edges hc hn h hq hfree).1).2.1 (heq ▸ hk)
    refine (pValue_le hij (hcol k hk).1 (h.solved.perm.lt hj) hne (hlt k hk).le).trans_lt ?_
    rw [hzero, add_zero]
    exact hlt k hk
  · refine (pValue_le hij (hcol k hk).1 (hcol l hl).1 hkl (hlt k hk).le).trans_lt ?_
    exact (add_le_add (hval k hk) (hval l hl)).trans_lt
      (hc.add_lt hn2 hj (hcol k hk).1 (hcol l hl).1 (hcol k hk).2 (hcol l hl).2 hkl)

omit hc in
/-- Some row is free, as the node is open or has no included edge. -/
theorem exists_free (hinc : node.includedPoints ≠ []) : ∃ i, i ∈ node.rows data := by
  by_contra hno
  push Not at hno
  have heq : ∀ v < data.rank, node.primal v = q v := fun v hv => by
    refine h.solved.eq_used hq.2 ?_
    by_contra hu
    exact hno v (Node.mem_rows.mpr ⟨hv, hu⟩)
  have htour := hq.1.congr heq (by omega)
  cases node with
  | root d => exact hinc rfl
  | child parent d => exact h.open_ parent rfl htour

/-- At a node with a tour there is an open edge below `M_VAL`. -/
theorem exists_low : ∃ i < data.rank, ∃ j < data.rank,
    closedMap node (i, j) = false ∧ pValue data node i j < mVal := by
  have hfinish : ∀ i ∈ node.rows data, (q i ∈ node.rows data ∧ (∃ k, k ∈ usedCols node) ∨
      ∃ k ∈ usedCols node, ∃ l ∈ usedCols node, k ≠ l) → ∃ i < data.rank, ∃ j < data.rank,
        closedMap node (i, j) = false ∧ pValue data node i j < mVal := fun i hi hrow =>
    ⟨i, (Node.mem_rows.mp hi).1, q i, hq.1.perm.lt (Node.mem_rows.mp hi).1,
      (open_edges hc hn h hq hi).2, pValue_tour hc hn h hq hi hrow⟩
  match hinc : node.includedPoints with
  | [] => exact exists_low_free hc hn h hq hinc
  | [e] =>
    have hused : ∀ k, k ∉ usedRows node ↔ k ≠ e.1 := fun k => by simp [usedRows, hinc]
    have he2 : e.2 ∈ usedCols node := by simp [usedCols, hinc]
    -- of two other rows the tour leaves at most one towards the used row
    obtain ⟨i, hi, hie, hqi⟩ : ∃ i < data.rank, i ≠ e.1 ∧ q i ≠ e.1 := by
      by_contra hno
      push Not at hno
      obtain ⟨a, b, ha, hb, hab, hae, hbe⟩ : ∃ a b, a < data.rank ∧ b < data.rank ∧ a ≠ b ∧
          a ≠ e.1 ∧ b ≠ e.1 := by
        rcases Nat.lt_trichotomy e.1 1 with h1 | h1 | h1
        · exact ⟨1, 2, by omega, by omega, by omega, by omega, by omega⟩
        · exact ⟨0, 2, by omega, by omega, by omega, by omega, by omega⟩
        · exact ⟨0, 1, by omega, by omega, by omega, by omega, by omega⟩
      exact hab (hq.1.perm.inj ha hb ((hno a ha hae).trans (hno b hb hbe).symm))
    exact hfinish i (Node.mem_rows.mpr ⟨hi, (hused i).mpr hie⟩) (.inl
      ⟨Node.mem_rows.mpr ⟨hq.1.perm.lt hi, (hused _).mpr hqi⟩, e.2, he2⟩)
  | e :: f :: es =>
    obtain ⟨i, hi⟩ := exists_free hn h hq (by rw [hinc]; exact List.cons_ne_nil _ _)
    have hcols := h.solved.edges.cols
    rw [usedCols, hinc, List.map_cons, List.map_cons, List.nodup_cons] at hcols
    have he2 : e.2 ∈ usedCols node := by simp [usedCols, hinc]
    have hf2 : f.2 ∈ usedCols node := by simp [usedCols, hinc]
    exact hfinish i hi (.inr ⟨e.2, he2, f.2, hf2, fun heq => hcols.1 (heq ▸ List.mem_cons_self)⟩)

end Exists

/-! ### The rule -/

/-- A tour uses the edge or it does not. -/
theorem rule1_keeps (hq : q ∈ node.tours data) (e : Edge) : Keeps data (rule1Nodes node e) q := by
  by_cases hqe : q e.1 = e.2
  · refine .inl ⟨newNode node [e] [], by simp [rule1Nodes], ⟨?_, hq.2.excluded⟩⟩
    exact List.forall_mem_cons.mpr ⟨hqe, hq.2.included⟩
  · refine .inl ⟨newNode node [] [e], by simp [rule1Nodes], ⟨hq.2.included, ?_⟩⟩
    exact List.forall_mem_cons.mpr ⟨hqe, hq.2.excluded⟩

end Optimer.Tsp
