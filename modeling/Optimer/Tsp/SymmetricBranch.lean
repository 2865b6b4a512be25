import Optimer.Tsp.BuildTour
import Optimer.Tsp.Lagrangean

/-! The symmetric branching rules lose no tour: a tour leaves out one of the edges at a vertex with more
than two of them. -/

namespace Optimer.Stsp
open Optimer.Tsp SpanningTree

variable {edges : List Edge} {node : Node} {n u v : ℕ} {p : ℕ → ℕ} {e : Edge}

/-! ### Degrees -/

theorem sum_neighbors (he : e.1 < n ∧ e.2 < n) :
    ∑ v ∈ Finset.range n, (neighbors v e).length = 2 := by
  have hlen : ∀ v, (neighbors v e).length = (if e.1 = v then 1 else 0) + if e.2 = v then 1 else 0 := by
    intro v
    unfold neighbors
    by_cases h1 : e.1 = v <;> by_cases h2 : e.2 = v <;> simp [h1, h2]
  simp only [hlen, Finset.sum_add_distrib, Finset.sum_ite_eq, Finset.mem_range, he.1, he.2, if_true]

/-- Every edge has two ends. -/
theorem sum_degrees (hin : Within n edges) : ∑ v ∈ Finset.range n, degrees edges v = 2 * edges.length := by
  simp only [degrees_eq]
  induction edges with
  | nil => simp
  | cons e edges ih =>
    simp only [List.map_cons, List.sum_cons, Finset.sum_add_distrib, List.length_cons]
    rw [sum_neighbors (hin e List.mem_cons_self), ih fun f hf => hin f (List.mem_cons_of_mem _ hf)]
    omega

/-- `n` edges between `n` vertices either give each vertex two or one of them more. -/
theorem exists_degree_of_ne (hin : Within edges.length edges)
    (h : ¬ ∀ v < edges.length, degrees edges v = 2) : ∃ v < edges.length, 2 < degrees edges v := by
  by_contra hno
  push Not at hno
  refine h fun v hv => ?_
  by_contra hne
  have hlt : ∑ v ∈ Finset.range edges.length, degrees edges v < ∑ v ∈ Finset.range edges.length, 2 :=
    Finset.sum_lt_sum (fun i hi => hno i (Finset.mem_range.mp hi))
      ⟨v, Finset.mem_range.mpr hv, lt_of_le_of_ne (hno v hv) hne⟩
  rw [sum_degrees hin, Finset.sum_const, Finset.card_range, smul_eq_mul, Nat.mul_comm] at hlt
  exact absurd hlt (lt_irrefl _)

/-- A tour leaves out one of three edges at a vertex. -/
theorem exists_left_out (hdist : Distinct edges) (hloop : (v, v) ∉ edges) (hdeg : 2 < degrees edges v)
    (hp : IsTour n p) : ∃ e ∈ edges, (e.1 = v ∨ e.2 = v) ∧ ¬ Passes n p e := by
  by_contra hall
  push Not at hall
  have hpass : ∀ w ∈ adjacencyList edges v, Passes n p (v, w) := fun w hw =>
    (mem_adjacencyList.mp hw).elim (fun h => hall _ h (.inl rfl)) fun h => (hall _ h (.inr rfl)).swap
  have hnodup := nodup_adjacencyList hdist hloop
  rw [← length_adjacencyList] at hdeg
  match hadj : adjacencyList edges v with
  | a :: b :: c :: rest =>
    rw [hadj] at hpass hnodup
    have hab : a ≠ b := fun h => by simp [h] at hnodup
    rcases Passes.eq_or_eq hp (hpass a (by simp)) (hpass b (by simp)) hab (hpass c (by simp)) with h | h
    · simp [h] at hnodup
    · simp [h] at hnodup
  | [] | [a] | [a, b] =>
    rw [hadj] at hdeg
    exact absurd hdeg (by simp)

/-- Edges that do not touch a vertex do not count there. -/
theorem degrees_filter {q : Edge → Bool} (h : ∀ e ∈ edges, q e = false → neighbors v e = []) :
    degrees (edges.filter q) v = degrees edges v := by
  simp only [degrees_eq]
  induction edges with
  | nil => rfl
  | cons e edges ih =>
    have ih := ih fun f hf => h f (List.mem_cons_of_mem _ hf)
    by_cases hq : q e = true
    · rw [List.filter_cons_of_pos hq, List.map_cons, List.map_cons, List.sum_cons, List.sum_cons, ih]
    · rw [List.filter_cons_of_neg hq, ih, List.map_cons, List.sum_cons,
        h e List.mem_cons_self (by simpa using hq), List.length_nil, Nat.zero_add]

/-- A 1-tree with `n` edges that are all different. -/
structure Relaxed (n : ℕ) (edges : List Edge) : Prop where
  oneTree : IsOneTree n edges
  length : edges.length = n
  distinct : Distinct edges

namespace Relaxed

variable (R : Relaxed n edges)

include R

theorem within : Within n edges := within_of_oneTree R.oneTree

theorem three_le : 3 ≤ n := by
  obtain ⟨_, a, b, _, _, hab, ha, hb⟩ := R.oneTree
  rw [Finset.mem_Ico] at ha hb
  omega

theorem ne (he : e ∈ edges) : e.1 ≠ e.2 := by
  obtain ⟨tree, a, b, hperm, htree, _, ha, hb⟩ := R.oneTree
  rw [Finset.mem_Ico] at ha hb
  rcases List.mem_append.mp (hperm.mem_iff.mp he) with he | he
  · exact htree.ne he
  · rcases List.mem_pair.mp he with rfl | rfl
    exacts [show 0 ≠ a by omega, show 0 ≠ b by omega]

theorem nodup (u : ℕ) : (adjacencyList edges u).Nodup :=
  nodup_adjacencyList R.distinct fun he => R.ne he rfl

/-- A vertex has no more neighbours than there are other vertices. -/
theorem degree_lt (hu : u < n) : degrees edges u < n := by
  rw [← length_adjacencyList]
  have hsub : adjacencyList edges u ⊆ (List.range n).erase u := fun v hv => by
    have hv' := mem_adjacencyList.mp hv
    refine (List.mem_erase_of_ne ?_).mpr (List.mem_range.mpr (R.within.lt hv))
    rintro rfl
    exact hv'.elim (fun h => R.ne h rfl) fun h => R.ne h rfl
  have hle := ((R.nodup u).subperm hsub).length_le
  have hlen : ((List.range n).erase u).length + 1 = n := by
    rw [List.length_erase_add_one (List.mem_range.mpr hu), List.length_range]
  omega

/-- Every vertex has an edge. -/
theorem degree_pos (hn : 2 ≤ n) (hu : u < n) : 0 < degrees edges u := by
  have hjoin : ∀ v < n, Joined edges u v := fun v hv =>
    (joined_of_oneTree R.oneTree hu).symm.trans (joined_of_oneTree R.oneTree hv)
  obtain ⟨v, hv, hne⟩ : ∃ v < n, v ≠ u := by
    rcases Nat.eq_zero_or_pos u with rfl | hpos
    exacts [⟨1, hn, one_ne_zero⟩, ⟨0, Nat.zero_lt_of_lt hu, hpos.ne⟩]
  cases (hjoin v hv).cases_head with
  | inl heq => exact absurd heq.symm hne
  | inr hstep =>
    obtain ⟨w, hw, _⟩ := hstep
    rw [← length_adjacencyList]
    exact List.length_pos_of_mem (mem_adjacencyList.mpr hw)

/-- `build_tour` finds a tour in a 1-tree with two edges at every vertex. -/
theorem buildTour_ne_nil (hn : 3 ≤ n) (hdeg : ∀ v < n, degrees edges v = 2) :
    buildTour edges ≠ some [] := by
  have hlen := R.length
  subst hlen
  obtain ⟨route, hroute, hne⟩ := buildTour_complete hn R.within R.distinct
    (fun v hv => joined_of_oneTree R.oneTree hv) hdeg
  rw [hroute]
  exact fun h => hne (Option.some.inj h)

/-- A 1-tree in which `build_tour` finds no tour has a vertex with more than two edges. -/
theorem exists_degree (hn : 3 ≤ n) (h : buildTour edges = some []) : ∃ v < n, 2 < degrees edges v := by
  have hlen := R.length
  subst hlen
  exact exists_degree_of_ne R.within fun hdeg => R.buildTour_ne_nil hn hdeg h

end Relaxed

/-! ### The edges at one vertex -/

theorem newNode_includedEdges (included excluded : List Edge) :
    (newNode node included excluded).includedEdges = included ++ node.includedEdges := rfl

/-- The selected vertex has more than two edges, unless there is no such vertex and it is `0`. -/
theorem selectedVertex_cases (n : ℕ) (edges : List Edge) :
    2 < degrees edges (selectedVertex n edges) ∨
      selectedVertex n edges = 0 ∧ ∀ v < n, ¬ (2 < degrees edges v ∧ degrees edges v < n) := by
  have hloop := Loop.foldl_range' (a := 0) (m := n)
    (f := fun best i => if borderValue < degrees edges i ∧ degrees edges i < best.2 then
      (i, degrees edges i) else best) (s := (0, n))
    (fun k best => 2 < degrees edges best.1 ∨
      best = (0, n) ∧ ∀ i < k, ¬ (2 < degrees edges i ∧ degrees edges i < n))
    (fun k best _ _ hinv => ?_) (.inr ⟨rfl, fun i hi => absurd hi (Nat.not_lt_zero i)⟩)
  · rw [Nat.zero_add, ← List.range_eq_range'] at hloop
    exact hloop.imp_right fun ⟨hbest, hno⟩ => ⟨congrArg Prod.fst hbest, hno⟩
  · split
    · next hk => exact .inl hk.1
    · next hk =>
      refine hinv.imp_right fun ⟨hbest, hno⟩ => ⟨hbest, fun i hi => ?_⟩
      rcases Nat.lt_succ_iff_lt_or_eq.mp hi with hi | rfl
      exacts [hno i hi, by rwa [hbest] at hk]

theorem selectedVertex_spec (h : ∃ v < n, 2 < degrees edges v ∧ degrees edges v < n) :
    2 < degrees edges (selectedVertex n edges) :=
  (selectedVertex_cases n edges).resolve_right fun hno =>
    let ⟨v, hv, hdeg⟩ := h
    hno.2 v hv hdeg

/-- There is an edge at the selected vertex, if there is one at `0`. -/
theorem selectMoves_ne_nil (h : ∃ b, (0, b) ∈ node.data.relaxation) : selectMoves n node ≠ [] := by
  have hex : ∃ e ∈ node.data.relaxation, e.1 = selectedVertex n node.data.relaxation ∨
      e.2 = selectedVertex n node.data.relaxation := by
    rcases selectedVertex_cases n node.data.relaxation with hdeg | ⟨hzero, _⟩
    · rw [← length_adjacencyList] at hdeg
      obtain ⟨w, hw⟩ := List.exists_mem_of_length_pos (Nat.zero_lt_of_lt hdeg)
      exact (mem_adjacencyList.mp hw).elim (fun h => ⟨_, h, .inl rfl⟩) fun h => ⟨_, h, .inr rfl⟩
    · exact h.elim fun b hb => ⟨(0, b), hb, .inl hzero.symm⟩
  obtain ⟨e, he, hev⟩ := hex
  exact List.ne_nil_of_mem (List.mem_filter.mpr ⟨he, decide_eq_true hev⟩)

/-- Excluding one edge at the selected vertex in each child loses no tour. -/
theorem Relaxed.selectMoves_keeps (R : Relaxed n node.data.relaxation) (hn : 3 ≤ n)
    (htour : buildTour node.data.relaxation = some []) (hp : IsTour n p) :
    ∃ e ∈ selectMoves n node, ¬ Passes n p e := by
  obtain ⟨v, hv, hdeg⟩ := R.exists_degree hn htour
  have hsel := selectedVertex_spec ⟨v, hv, hdeg, R.degree_lt hv⟩
  obtain ⟨e, he, hev, hpass⟩ := exists_left_out R.distinct (fun h => R.ne h rfl) hsel hp
  exact ⟨e, List.mem_filter.mpr ⟨he, decide_eq_true hev⟩, hpass⟩

/-! ### The Lagrangean rules -/

theorem newNode_tours {included excluded : List Edge} (hp : p ∈ node.tours n)
    (hinc : ∀ e ∈ included, Passes n p e) (hexc : ∀ e ∈ excluded, ¬ Passes n p e) :
    p ∈ (newNode node included excluded).tours n :=
  ⟨hp.1, fun e he => (List.mem_append.mp he).elim (hinc e) (hp.2.included e),
    fun e he => (List.mem_append.mp he).elim (hexc e) (hp.2.excluded e)⟩

theorem edgeMap_iff : edgeMap node e = true ↔
    s(e.1, e.2) ∈ node.includedEdges.map fun f => s(f.1, f.2) := by
  rw [edgeMap, decide_eq_true_eq, List.mem_map]
  constructor
  · rintro (h | h)
    exacts [⟨e, h, rfl⟩, ⟨_, h, Sym2.eq_swap⟩]
  · rintro ⟨f, hf, heq⟩
    rcases Sym2.eq_iff.mp heq with ⟨h1, h2⟩ | ⟨h1, h2⟩
    · exact .inl (Prod.ext h1 h2 ▸ hf)
    · exact .inr (show (e.2, e.1) ∈ node.includedEdges from h1 ▸ h2 ▸ hf)

theorem passes_of_edgeMap (h : edgeMap node e = true) (hp : p ∈ node.tours n) : Passes n p e := by
  rw [edgeMap, decide_eq_true_eq] at h
  exact h.elim (hp.2.included e) fun h => (hp.2.included _ h).swap

/-- The tour is one of a new node, which includes no edge twice. -/
def Kept (n : ℕ) (news : List Node) (p : ℕ → ℕ) : Prop :=
  ∃ new ∈ news, p ∈ new.tours n ∧ Distinct new.includedEdges

theorem maxEdgeStep_fold (matrix : ℕ → ℕ → ValueType) (node : Node) (l : List Edge)
    (best : ValueType × Edge) :
    best.1 ≤ (l.foldl (maxEdgeStep matrix node) best).1 ∧
    (l.foldl (maxEdgeStep matrix node) best = best ∨
      (l.foldl (maxEdgeStep matrix node) best).2 ∈ l ∧
        edgeMap node (l.foldl (maxEdgeStep matrix node) best).2 = false) ∧
    ∀ e ∈ l, edgeMap node e = false → (2 < degrees node.data.relaxation e.1 ∨
      2 < degrees node.data.relaxation e.2) →
        matrix e.1 e.2 ≤ (l.foldl (maxEdgeStep matrix node) best).1 := by
  induction l generalizing best with
  | nil => exact ⟨le_rfl, .inl rfl, fun _ h => absurd h List.not_mem_nil⟩
  | cons e l ih =>
    rw [List.foldl_cons]
    obtain ⟨hle, hcase, hall⟩ := ih (maxEdgeStep matrix node best e)
    have hstep : best.1 ≤ (maxEdgeStep matrix node best e).1 ∧
        (maxEdgeStep matrix node best e = best ∨
          (maxEdgeStep matrix node best e).2 = e ∧ edgeMap node e = false) ∧
        (edgeMap node e = false → (2 < degrees node.data.relaxation e.1 ∨
          2 < degrees node.data.relaxation e.2) →
            matrix e.1 e.2 ≤ (maxEdgeStep matrix node best e).1) := by
      unfold maxEdgeStep
      by_cases hmap : edgeMap node e = true
      · rw [if_pos hmap]
        exact ⟨le_rfl, .inl rfl, fun h => absurd (h.symm.trans hmap) (by decide)⟩
      · rw [if_neg hmap]
        by_cases hdeg : borderValue < degrees node.data.relaxation e.1 ∨
            borderValue < degrees node.data.relaxation e.2
        · rw [if_pos hdeg]
          split
          · next hlt => exact ⟨hlt.le, .inr ⟨rfl, by simpa using hmap⟩, fun _ _ => le_rfl⟩
          · next hlt => exact ⟨le_rfl, .inl rfl, fun _ _ => not_lt.mp hlt⟩
        · rw [if_neg hdeg]
          exact ⟨le_rfl, .inl rfl, fun _ h => absurd h hdeg⟩
    refine ⟨hstep.1.trans hle, ?_, List.forall_mem_cons.mpr ⟨fun h1 h2 => (hstep.2.2 h1 h2).trans hle, hall⟩⟩
    rcases hcase with heq | ⟨hmem, hmap⟩
    · rcases hstep.2.1 with hbest | ⟨he, hmap⟩
      · exact .inl (heq.trans hbest)
      · rw [heq, he]
        exact .inr ⟨List.mem_cons_self, hmap⟩
    · exact .inr ⟨List.mem_cons_of_mem _ hmem, hmap⟩

/-- The edge that `branching_rule3` selects is a free one of the relaxation, or it has found none. -/
theorem maxEdge_cases (matrix : ℕ → ℕ → ValueType) (node : Node) : maxEdge matrix node = (0, 0) ∨
    maxEdge matrix node ∈ node.data.relaxation ∧ edgeMap node (maxEdge matrix node) = false :=
  (maxEdgeStep_fold matrix node node.data.relaxation (-10 ^ 16, (0, 0))).2.1.imp_left (congrArg Prod.snd)

/-- An edge that `branching_rule3` can select: a free one at a vertex with more than two edges. -/
structure Selectable (matrix : ℕ → ℕ → ValueType) (node : Node) (e : Edge) : Prop where
  mem : e ∈ node.data.relaxation
  free : edgeMap node e = false
  degree : 2 < degrees node.data.relaxation e.1 ∨ 2 < degrees node.data.relaxation e.2
  low : -10 ^ 16 < matrix e.1 e.2

theorem Selectable.maxEdge_mem {matrix : ℕ → ℕ → ValueType} (h : Selectable matrix node e) :
    maxEdge matrix node ∈ node.data.relaxation ∧ edgeMap node (maxEdge matrix node) = false := by
  obtain ⟨_, hcase, hall⟩ := maxEdgeStep_fold matrix node node.data.relaxation (-10 ^ 16, (0, 0))
  refine hcase.resolve_left fun heq => ?_
  have hle := hall e h.mem h.free h.degree
  rw [heq] at hle
  exact absurd h.low (not_lt.mpr hle)

/-- `branching_rule3` selects no edge where there is none to select. -/
theorem maxEdge_eq_none {matrix : ℕ → ℕ → ValueType} (h : ¬ ∃ e, Selectable matrix node e) :
    maxEdge matrix node = (0, 0) := by
  have hstay : ∀ l : List Edge, (∀ e ∈ l, e ∈ node.data.relaxation) →
      l.foldl (maxEdgeStep matrix node) (-10 ^ 16, (0, 0)) = (-10 ^ 16, (0, 0)) := by
    intro l hl
    induction l with
    | nil => rfl
    | cons e l ih =>
      obtain ⟨he, hl⟩ := List.forall_mem_cons.mp hl
      have hstep : maxEdgeStep matrix node (-10 ^ 16, (0, 0)) e = (-10 ^ 16, (0, 0)) := by
        by_contra hne
        rw [maxEdgeStep] at hne
        split at hne
        · exact hne rfl
        next hmap =>
        split at hne
        · next hdeg =>
          split at hne
          · next hlow => exact h ⟨e, he, Bool.not_eq_true _ ▸ hmap, hdeg, hlow⟩
          · exact hne rfl
        · exact hne rfl
      rw [List.foldl_cons, hstep]
      exact ih hl
  exact congrArg Prod.snd (hstay _ fun _ he => he)

/-- The two edges that `branching_rule2` selects are free ones of the relaxation at the vertex. -/
theorem selectedEdges_spec {front back : Edge} (hsel : selectedEdges n node = [front, back]) :
    [front, back].Sublist node.data.relaxation ∧
      (edgeMap node front = false ∧ (front.1 = selectedVertex2 n node ∨ front.2 = selectedVertex2 n node)) ∧
      edgeMap node back = false ∧ (back.1 = selectedVertex2 n node ∨ back.2 = selectedVertex2 n node) := by
  have hmem : ∀ e ∈ [front, back], edgeMap node e = false ∧
      (e.1 = selectedVertex2 n node ∨ e.2 = selectedVertex2 n node) := fun e he => by
    obtain ⟨he, hev⟩ := List.mem_filter.mp (List.mem_of_mem_take (hsel ▸ he))
    exact ⟨by simpa using (List.mem_filter.mp he).2, of_decide_eq_true hev⟩
  exact ⟨hsel ▸ ((List.take_sublist _ _).trans List.filter_sublist).trans List.filter_sublist,
    hmem front List.mem_cons_self, hmem back (List.mem_cons_of_mem _ List.mem_cons_self)⟩

/-- Two free edges of the relaxation at the selected vertex that a tour passes leave no included one. -/
theorem degrees_freeEdges {front back : Edge} {v : ℕ} (hfront : edgeMap node front = false)
    (hback : edgeMap node back = false) (hne : s(front.1, front.2) ≠ s(back.1, back.2))
    (hp : p ∈ node.tours n) (hfv : front.1 = v ∨ front.2 = v) (hbv : back.1 = v ∨ back.2 = v)
    (hpf : Passes n p front) (hpb : Passes n p back) :
    degrees node.data.relaxation v = degrees (freeEdges node) v := by
  refine (degrees_filter fun f hf hmap => ?_).symm
  by_contra hnil
  obtain ⟨w, hw⟩ := List.exists_mem_of_ne_nil _ hnil
  have hmap : edgeMap node f = true := by simpa using hmap
  obtain ⟨a, ha, hpa⟩ := hpf.at_vertex hfv
  obtain ⟨b, hb, hpb⟩ := hpb.at_vertex hbv
  have hfw : s(f.1, f.2) = s(v, w) := by
    rcases mem_neighbors.mp hw with rfl | rfl
    exacts [rfl, Sym2.eq_swap]
  obtain ⟨w', hw', hpw⟩ := (passes_of_edgeMap hmap hp).at_vertex (v := v) (by
    rcases mem_neighbors.mp hw with rfl | rfl
    exacts [.inl rfl, .inr rfl])
  have hab : a ≠ b := fun heq => hne (ha.trans (heq ▸ hb.symm))
  have hclash : ∀ g : Edge, edgeMap node g = false → s(g.1, g.2) ≠ s(f.1, f.2) := fun g hg heq => by
    have := edgeMap_iff.mpr (heq ▸ edgeMap_iff.mp hmap)
    exact Bool.false_ne_true (hg.symm.trans this)
  rcases Passes.eq_or_eq hp.1 hpa hpb hab hpw with rfl | rfl
  exacts [hclash front hfront (ha.trans hw'.symm), hclash back hback (hb.trans hw'.symm)]

/-! ### The new nodes -/

/-- What a rule includes and excludes in a new node: different edges of the relaxation, those included
free and those excluded too but with rule 1. Two are included only at a vertex without included ones. -/
structure Cut (rule : BranchingRule) (node : Node) (included excluded : List Edge) : Prop where
  sublist : (included ++ excluded).Sublist node.data.relaxation
  free : ∀ e ∈ included, edgeMap node e = false
  freeExcluded : rule ≠ .rule1 → ∀ e ∈ excluded, edgeMap node e = false
  few : included = [] ∨ (∃ e, included = [e]) ∨ ∃ front back v, included = [front, back] ∧
    (front.1 = v ∨ front.2 = v) ∧ (back.1 = v ∨ back.2 = v) ∧
      degrees node.data.relaxation v = degrees (freeEdges node) v

theorem BranchingRule.nodes_cut {rule : BranchingRule} {matrix : ℕ → ℕ → ValueType} {news : List Node}
    {new : Node} (h : rule.nodes n matrix node = some news) (hnew : new ∈ news) :
    ∃ included excluded, new = newNode node included excluded ∧ Cut rule node included excluded := by
  cases rule with
  | rule1 =>
    obtain rfl := Option.some.inj h
    obtain ⟨e, he, rfl⟩ := List.mem_map.mp hnew
    exact ⟨_, _, rfl, List.singleton_sublist.mpr (List.mem_of_mem_filter he),
      fun _ h => absurd h List.not_mem_nil, fun h => absurd rfl h, .inl rfl⟩
  | rule2 =>
    unfold BranchingRule.nodes branchingRule2 at h
    dsimp only at h
    split at h
    case h_2 => exact nomatch h
    case h_1 front back hsel =>
      obtain ⟨hsub, ⟨hfront, hfv⟩, hback, hbv⟩ := selectedEdges_spec hsel
      have hrest : ∀ new ∈ [newNode node [front] [back], newNode node [] [front]],
          ∃ included excluded, new = newNode node included excluded ∧
            Cut .rule2 node included excluded := by
        intro new hnew
        rcases List.mem_pair.mp hnew with rfl | rfl
        · exact ⟨_, _, rfl, hsub, List.forall_mem_singleton.mpr hfront,
            fun _ => List.forall_mem_singleton.mpr hback, .inr (.inl ⟨_, rfl⟩)⟩
        · exact ⟨_, _, rfl, (List.sublist_append_left [front] [back]).trans hsub,
            fun _ h => absurd h List.not_mem_nil, fun _ => List.forall_mem_singleton.mpr hfront, .inl rfl⟩
      obtain rfl := Option.some.inj h
      split at hnew
      · next hdeg =>
        rcases List.mem_cons.mp hnew with rfl | hnew
        · exact ⟨_, _, rfl, hsub, List.forall_mem_cons.mpr ⟨hfront, List.forall_mem_singleton.mpr hback⟩,
            fun _ _ h => absurd h List.not_mem_nil, .inr (.inr ⟨front, back, _, rfl, hfv, hbv, hdeg⟩)⟩
        · exact hrest new hnew
      · exact hrest new hnew
  | rule3 =>
    obtain rfl := Option.some.inj h
    unfold branchingRule3 at hnew
    dsimp only at hnew
    split at hnew
    · exact absurd hnew List.not_mem_nil
    · next hne =>
      obtain ⟨hmem, hfree⟩ := (maxEdge_cases matrix node).resolve_left hne
      rcases List.mem_pair.mp hnew with rfl | rfl
      · exact ⟨_, _, rfl, List.singleton_sublist.mpr hmem, fun _ h => absurd h List.not_mem_nil,
          fun _ => List.forall_mem_singleton.mpr hfree, .inl rfl⟩
      · exact ⟨_, _, rfl, List.singleton_sublist.mpr hmem, List.forall_mem_singleton.mpr hfree,
          fun _ _ h => absurd h List.not_mem_nil, .inr (.inl ⟨_, rfl⟩)⟩

theorem Cut.mem {rule : BranchingRule} {included excluded : List Edge}
    (h : Cut rule node included excluded) (he : e ∈ included) : e ∈ node.data.relaxation :=
  h.sublist.subset (List.mem_append_left _ he)

/-- A new node includes no edge twice if its parent does not. -/
theorem Cut.distinct {rule : BranchingRule} {included excluded : List Edge}
    (h : Cut rule node included excluded) (hrel : Distinct node.data.relaxation)
    (hdist : Distinct node.includedEdges) : Distinct (newNode node included excluded).includedEdges := by
  rw [newNode_includedEdges, Distinct, List.map_append]
  have hnew : (included.map fun e : Edge => s(e.1, e.2)).Nodup :=
    (((List.sublist_append_left included excluded).trans h.sublist).map _).nodup hrel
  refine List.Nodup.append hnew hdist fun x hx hx' => ?_
  obtain ⟨e, he, rfl⟩ := List.mem_map.mp hx
  exact Bool.false_ne_true ((h.free e he).symm.trans (edgeMap_iff.mpr hx'))

/-! ### No tour is lost -/

section Tours

variable (R : Relaxed n node.data.relaxation) (hn : 3 ≤ n) (hp : p ∈ node.tours n)

include R hn hp

theorem rule1_tours (hopen : buildTour node.data.relaxation = some []) :
    ∃ new ∈ branchingRule1 n node, p ∈ new.tours n := by
  obtain ⟨e, he, hpass⟩ := R.selectMoves_keeps hn hopen hp.1
  exact ⟨_, List.mem_map_of_mem he, newNode_tours hp (fun _ h => absurd h List.not_mem_nil)
    (by simpa using hpass)⟩

/-- `branching_rule3` can select an edge if no cost is too low. -/
theorem exists_selectable {matrix : ℕ → ℕ → ValueType} (hopen : buildTour node.data.relaxation = some [])
    (hlow : ∀ e ∈ node.data.relaxation, -10 ^ 16 < matrix e.1 e.2) : ∃ e, Selectable matrix node e := by
  obtain ⟨v, _, hdeg⟩ := R.exists_degree hn hopen
  obtain ⟨e, he, hev, hpass⟩ := exists_left_out R.distinct (fun h => R.ne h rfl) hdeg hp.1
  refine ⟨e, he, ?_, ?_, hlow e he⟩
  · by_contra hmap
    exact hpass (passes_of_edgeMap (by simpa using hmap) hp)
  · rcases hev with rfl | rfl
    exacts [.inl hdeg, .inr hdeg]

omit hn in
theorem rule3_tours {matrix : ℕ → ℕ → ValueType} (hsel : Selectable matrix node e) :
    ∃ new ∈ branchingRule3 matrix node, p ∈ new.tours n := by
  obtain ⟨hmem, _⟩ := hsel.maxEdge_mem
  have hne : maxEdge matrix node ≠ (0, 0) := fun heq => R.ne hmem (by rw [heq])
  rw [branchingRule3, if_neg hne]
  by_cases hmax : Passes n p (maxEdge matrix node)
  · exact ⟨_, List.mem_cons_of_mem _ List.mem_cons_self, newNode_tours hp (by simpa using hmax)
      fun _ h => absurd h List.not_mem_nil⟩
  · exact ⟨_, List.mem_cons_self, newNode_tours hp (fun _ h => absurd h List.not_mem_nil)
      (by simpa using hmax)⟩

omit hn in
theorem rule2_tours {news : List Node} (h : branchingRule2 n node = some news) :
    ∃ new ∈ news, p ∈ new.tours n := by
  unfold branchingRule2 at h
  dsimp only at h
  split at h
  case h_2 => exact nomatch h
  case h_1 front back hsel =>
    obtain ⟨hsub, ⟨hfront, hfv⟩, hback, hbv⟩ := selectedEdges_spec hsel
    have hne : s(front.1, front.2) ≠ s(back.1, back.2) := by
      have := (hsub.map fun e : Edge => s(e.1, e.2)).nodup R.distinct
      simpa using this
    obtain rfl := Option.some.inj h
    by_cases hpf : Passes n p front
    · by_cases hpb : Passes n p back
      · rw [if_pos (degrees_freeEdges hfront hback hne hp hfv hbv hpf hpb)]
        exact ⟨_, List.mem_cons_self, newNode_tours hp (by simp [hpf, hpb])
          fun _ h => absurd h List.not_mem_nil⟩
      · refine ⟨newNode node [front] [back], ?_, newNode_tours hp (by simpa using hpf) (by simpa using hpb)⟩
        split
        exacts [List.mem_cons_of_mem _ List.mem_cons_self, List.mem_cons_self]
    · refine ⟨newNode node [] [front], ?_, newNode_tours hp (fun _ h => absurd h List.not_mem_nil)
        (by simpa using hpf)⟩
      split <;> simp

/-- Every rule keeps the tours of a node whose relaxation is a 1-tree, and no tour with the rules 1 and 3. -/
theorem BranchingRule.keeps {rule : BranchingRule} {matrix : ℕ → ℕ → ValueType} {news : List Node}
    (hdist : Distinct node.includedEdges)
    (hopen : rule ≠ .rule2 → buildTour node.data.relaxation = some [])
    (hlow : ∀ e ∈ node.data.relaxation, -10 ^ 16 < matrix e.1 e.2)
    (h : rule.nodes n matrix node = some news) : Kept n news p := by
  have htours : ∃ new ∈ news, p ∈ new.tours n := by
    cases rule with
    | rule1 => exact Option.some.inj h ▸ rule1_tours R hn hp (hopen nofun)
    | rule2 => exact rule2_tours R hp h
    | rule3 =>
      obtain ⟨e, hsel⟩ := exists_selectable R hn hp (hopen nofun) hlow
      exact Option.some.inj h ▸ rule3_tours R hp hsel
  obtain ⟨new, hnew, hfit⟩ := htours
  obtain ⟨included, excluded, rfl, hcut⟩ := BranchingRule.nodes_cut h hnew
  exact ⟨_, hnew, hfit, hcut.distinct R.distinct hdist⟩

end Tours

end Optimer.Stsp
