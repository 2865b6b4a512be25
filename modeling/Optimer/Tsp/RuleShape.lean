import Optimer.Tsp.AsymmetricNode
import Optimer.Tsp.Subtour

/-! What the branching rules make of a node with an assignment, whatever the costs are: the new nodes can
be transformed, and each has an edge of its own that no node above it has marked. -/

namespace Optimer.Tsp
open Finset

variable {data : InitialData} {node new child : Node} {news released : List Node} {fuel : ℕ}
  {rule : BranchingRule} {es : List Edge}

/-- What a rule does with a node that has an assignment. -/
structure Places (data : InitialData) (node : Node) (news : List Node) : Prop where
  placed : ∀ new ∈ news, new.Placed data
  parent : ∀ new ∈ news, new.parent? = some node
  fresh : ∀ new ∈ news, ∃ e, e.1 < data.rank ∧ e.2 < data.rank ∧ node.edgeMap e = false ∧
    new.edgeMap e = true

namespace Places

variable (h : Places data node news) (hnew : new ∈ news)

include h hnew

theorem includedPoints : new.includedPoints = new.data.includedEdges ++ node.includedPoints := by
  have hp := h.parent new hnew
  cases new with
  | root d => exact nomatch hp
  | child parent d =>
    cases hp
    rfl

theorem excludedPoints : new.excludedPoints = new.data.excludedEdges ++ node.excludedPoints := by
  have hp := h.parent new hnew
  cases new with
  | root d => exact nomatch hp
  | child parent d =>
    cases hp
    rfl

/-- A child has fewer places without a mark. -/
theorem unmarked_lt (hinc : child.includedPoints = new.includedPoints)
    (hexc : child.excludedPoints = new.excludedPoints) :
    (child.unmarked data).card < (node.unmarked data).card := by
  have hmap : ∀ e, child.edgeMap e = new.edgeMap e := fun e => by
    rw [Node.edgeMap, Node.edgeMap, hinc, hexc]
  obtain ⟨e, he1, he2, hold, hfresh⟩ := h.fresh new hnew
  refine card_lt_card (Finset.ssubset_iff_subset_ne.mpr ⟨fun f hf => ?_, fun heq => ?_⟩)
  · obtain ⟨hf, hfm⟩ := mem_filter.mp hf
    refine mem_filter.mpr ⟨hf, Bool.eq_false_iff.mpr fun hfn => ?_⟩
    rw [hmap] at hfm
    refine Bool.eq_false_iff.mp hfm (Node.edgeMap_eq_true.mpr ?_)
    rw [h.includedPoints hnew, h.excludedPoints hnew]
    exact (Node.edgeMap_eq_true.mp hfn).imp (List.mem_append_right _) (List.mem_append_right _)
  · have hmem : e ∈ node.unmarked data :=
      mem_filter.mpr ⟨mem_product.mpr ⟨mem_range.mpr he1, mem_range.mpr he2⟩, hold⟩
    rw [← heq] at hmem
    exact Bool.eq_false_iff.mp (mem_filter.mp hmem).2 ((hmap e).trans hfresh)

end Places

/-! ### Rule 1 -/

theorem closedMap_false {e : Edge} : closedMap node e = false ↔
    e.1 ∉ usedRows node ∧ e.2 ∉ usedCols node ∧ e ∉ node.excludedPoints := by
  simp only [closedMap, Bool.or_eq_false_iff, List.any_eq_false, decide_eq_false_iff_not,
    Bool.or_eq_true, decide_eq_true_eq, not_or, usedRows, usedCols, List.mem_map, not_exists, not_and]
  constructor
  · rintro ⟨hinc, hexc⟩
    exact ⟨fun f hf => (hinc f hf).1, fun f hf => (hinc f hf).2, hexc⟩
  · rintro ⟨hrow, hcol, hexc⟩
    exact ⟨fun f hf => ⟨hrow f hf, hcol f hf⟩, hexc⟩

theorem edgeMap_of_closedMap {e : Edge} (h : closedMap node e = false) : node.edgeMap e = false := by
  obtain ⟨hrow, _, hexc⟩ := closedMap_false.mp h
  refine Bool.eq_false_iff.mpr fun hmark => ?_
  rcases Node.edgeMap_eq_true.mp hmark with hinc | hmem
  exacts [hrow (List.mem_map_of_mem hinc), hexc hmem]

/-- The loop over the edges. -/
theorem edgeStep_rounds {es : List Edge} :
    (∀ e, (es.foldl (edgeStep data node) (mVal, none)).2 = some e → e ∈ es ∧ closedMap node e = false) ∧
      ((es.foldl (edgeStep data node) (mVal, none)).2 = none →
        ∀ e ∈ es, closedMap node e = false → mVal ≤ pValue data node e.1 e.2) := by
  have hrounds : ∀ pre : List Edge, (∃ e ∈ pre, closedMap node e = false ∧
        (pre.foldl (edgeStep data node) (mVal, none)).2 = some e) ∨
      pre.foldl (edgeStep data node) (mVal, none) = (mVal, none) ∧
        ∀ e ∈ pre, closedMap node e = false → mVal ≤ pValue data node e.1 e.2 := by
    intro pre
    induction pre using List.reverseRecOn with
    | nil => exact .inr ⟨rfl, fun e he => absurd he List.not_mem_nil⟩
    | append_singleton pre f ih =>
      rw [List.foldl_append, List.foldl_cons, List.foldl_nil]
      have hf : f ∈ pre ++ [f] := List.mem_append_right _ (List.mem_singleton_self f)
      by_cases hlow : closedMap node f = false ∧ pValue data node f.1 f.2 <
          (pre.foldl (edgeStep data node) (mVal, none)).1
      · rw [edgeStep, if_pos hlow]
        exact .inl ⟨f, hf, hlow.1, rfl⟩
      · rw [edgeStep, if_neg hlow]
        refine ih.imp (fun ⟨e, he, hrest⟩ => ⟨e, List.mem_append_left _ he, hrest⟩)
          fun ⟨heq, hall⟩ => ⟨heq, fun e he hopen => ?_⟩
        rcases List.mem_append.mp he with he | he
        · exact hall e he hopen
        · cases List.mem_singleton.mp he
          rw [heq] at hlow
          exact not_lt.mp fun hlt => hlow ⟨hopen, hlt⟩
  rcases hrounds es with ⟨e, he, hopen, hsome⟩ | ⟨heq, hall⟩
  · rw [hsome]
    refine ⟨fun f hf => ?_, fun hnone => nomatch hnone⟩
    cases hf
    exact ⟨he, hopen⟩
  · rw [heq]
    refine ⟨fun f hf => ?_, fun _ => hall⟩
    cases hf

theorem minEdge_some {e : Edge} (h : minEdge data node = some e) :
    e.1 < data.rank ∧ e.2 < data.rank ∧ closedMap node e = false := by
  obtain ⟨hmem, hopen⟩ := edgeStep_rounds.1 e h
  obtain ⟨i, hi, hmem⟩ := List.mem_flatMap.mp hmem
  obtain ⟨j, hj, rfl⟩ := List.mem_map.mp hmem
  exact ⟨List.mem_range.mp hi, List.mem_range.mp hj, hopen⟩

/-- The two new nodes of rule 1. -/
def rule1Nodes (node : Node) (e : Edge) : List Node := [newNode node [] [e], newNode node [e] []]

theorem branchingRule1_cases (fuel : ℕ) (data : InitialData) (node : Node) :
    (BranchingRule.rule1.nodes fuel data node = some ([], []) ∧ minEdge data node = none) ∨
      ∃ e, e.1 < data.rank ∧ e.2 < data.rank ∧ closedMap node e = false ∧
        BranchingRule.rule1.nodes fuel data node = some (rule1Nodes node e, []) := by
  cases h : minEdge data node with
  | none => exact .inl ⟨by simp [BranchingRule.nodes, branchingRule1, h], rfl⟩
  | some e =>
    obtain ⟨h1, h2, hopen⟩ := minEdge_some h
    exact .inr ⟨e, h1, h2, hopen, by simp [BranchingRule.nodes, branchingRule1, h, rule1Nodes]⟩

theorem rule1_places (h : node.Formed data) {e : Edge} (h1 : e.1 < data.rank) (h2 : e.2 < data.rank)
    (hopen : closedMap node e = false) : Places data node (rule1Nodes node e) := by
  obtain ⟨hrow, hcol, _⟩ := closedMap_false.mp hopen
  have hmark := edgeMap_of_closedMap hopen
  have hparent : ∀ parent ∈ some node, parent.Formed data := fun parent hp => by
    cases hp
    exact h
  refine ⟨?_, ?_, ?_⟩
  · refine List.forall_mem_cons.mpr ⟨⟨⟨h.edges.lt, h.edges.rows, h.edges.cols⟩, ?_, hparent⟩,
      List.forall_mem_singleton.mpr
        ⟨⟨?_, ?_, ?_⟩, fun e he => absurd he List.not_mem_nil, hparent⟩⟩
    · exact List.forall_mem_singleton.mpr ⟨⟨h1, hrow⟩, h2, hcol⟩
    · exact List.forall_mem_cons.mpr ⟨⟨h1, h2⟩, h.edges.lt⟩
    · exact List.nodup_cons.mpr ⟨hrow, h.edges.rows⟩
    · exact List.nodup_cons.mpr ⟨hcol, h.edges.cols⟩
  · exact List.forall_mem_cons.mpr ⟨rfl, List.forall_mem_singleton.mpr rfl⟩
  · refine List.forall_mem_cons.mpr ⟨⟨e, h1, h2, hmark, ?_⟩, List.forall_mem_singleton.mpr
      ⟨e, h1, h2, hmark, ?_⟩⟩
    · exact Node.edgeMap_eq_true.mpr (.inr List.mem_cons_self)
    · exact Node.edgeMap_eq_true.mpr (.inl List.mem_cons_self)

/-! ### Rules 2 and 3 -/

/-- Vertices whose edges have no mark. -/
structure Moves (data : InitialData) (node : Node) (vs : List ℕ) : Prop where
  nodup : vs.Nodup
  lt : ∀ v ∈ vs, v < data.rank
  unmarked : ∀ v ∈ vs, node.edgeMap (v, node.primal v) = false

/-- `select_move` gives edges of the assignment. -/
theorem selectMove_moves (h : node.Formed data) {edges : List Edge}
    (hrun : selectMove fuel data node = some edges) :
    ∃ vs, edges = vs.map node.edge ∧ Moves data node vs := by
  simp only [selectMove, Option.bind_eq_bind, Option.bind_eq_some_iff, Option.pure_def,
    Option.some.injEq] at hrun
  obtain ⟨r, hr, rfl⟩ := hrun
  rcases mincardSubtour_cases h.perm data.rank_lt hr with rfl | ⟨v, hv, _, rfl⟩
  · exact ⟨[], rfl, .nil, fun _ hm => absurd hm List.not_mem_nil, fun _ hm => absurd hm List.not_mem_nil⟩
  · refine ⟨(orbit node.primal v).filter fun x => !node.edgeMap (node.edge x), ?_,
      (orbit_nodup _ v).filter _, fun x hx => ?_, fun x hx => ?_⟩
    · rw [orbit_edges, List.filter_map]
      rfl
    · exact h.perm.orbit_lt hv (List.mem_of_mem_filter hx)
    · simpa using (List.mem_filter.mp hx).2

/-- A vertex whose edge has no mark is in a free row and its successor in a free column. -/
theorem Node.Formed.free (h : node.Formed data) {x : ℕ} (hx : x < data.rank)
    (hmark : node.edgeMap (node.edge x) = false) : x ∉ usedRows node ∧ node.primal x ∉ usedCols node := by
  refine ⟨fun hmem => ?_, fun hmem => ?_⟩ <;> obtain ⟨e, he, heq⟩ := List.mem_map.mp hmem <;>
    refine Bool.eq_false_iff.mp hmark (Node.edgeMap_eq_true.mpr (.inl ?_))
  · subst heq
    rwa [Node.edge, Node.primal, h.included e he]
  · have hrow : e.1 = x := h.perm.inj (h.edges.lt e he).1 hx ((h.included e he).trans heq)
    subst hrow
    rwa [Node.edge, ← heq]

/-- The new nodes of rule 2 for the edges at some vertices. -/
def rule2Nodes (node : Node) (vs : List ℕ) : List Node := vs.map fun x => newNode node [] [node.edge x]

theorem mem_rule3Nodes {included es : List Edge} : new ∈ rule3Nodes node included es ↔
    ∃ pre e post, es = pre ++ e :: post ∧ new = newNode node (included ++ pre) [e] := by
  induction es generalizing included with
  | nil => simp [rule3Nodes]
  | cons f es ih =>
    rw [rule3Nodes, List.mem_cons, ih]
    constructor
    · rintro (rfl | ⟨pre, e, post, rfl, rfl⟩)
      · exact ⟨[], f, es, rfl, by simp⟩
      · exact ⟨f :: pre, e, post, rfl, by simp⟩
    · rintro ⟨pre, e, post, heq, rfl⟩
      cases pre with
      | nil =>
        cases heq
        exact .inl (by simp)
      | cons g pre =>
        cases heq
        exact .inr ⟨pre, e, post, rfl, by simp⟩

/-- A new node of rule 3: the edges of some vertices are included and that of one more is excluded. -/
theorem mem_rule3Nodes_map {vs : List ℕ} : new ∈ rule3Nodes node [] (vs.map node.edge) ↔
    ∃ pre x post, vs = pre ++ x :: post ∧ new = newNode node (pre.map node.edge) [node.edge x] := by
  rw [mem_rule3Nodes]
  constructor
  · rintro ⟨pre, e, post, heq, rfl⟩
    obtain ⟨pre, rest, rfl, rfl, hrest⟩ := List.map_eq_append_iff.mp heq
    obtain ⟨x, post, rfl, rfl, rfl⟩ := List.map_eq_cons_iff.mp hrest
    exact ⟨pre, x, post, rfl, rfl⟩
  · rintro ⟨pre, x, post, rfl, rfl⟩
    exact ⟨pre.map node.edge, node.edge x, post.map node.edge, by simp, rfl⟩

namespace Moves

variable {vs pre post : List ℕ} {x : ℕ}

/-- A new node of rule 2 or 3 can be transformed: the edges of some vertices are included and that of
one more is excluded. -/
theorem placed (hs : Moves data node vs) (h : node.Formed data)
    (hsub : ∀ y ∈ pre ++ [x], y ∈ vs) (hnodup : (pre ++ [x]).Nodup) :
    (newNode node (pre.map node.edge) [node.edge x]).Placed data := by
  have hpx : ∀ y ∈ pre ++ [x], y < data.rank ∧ y ∉ usedRows node ∧ node.primal y ∉ usedCols node :=
    fun y hy => ⟨hs.lt y (hsub y hy), h.free (hs.lt y (hsub y hy)) (hs.unmarked y (hsub y hy))⟩
  have hpre : ∀ y ∈ pre, y ∈ pre ++ [x] := fun y hy => List.mem_append_left _ hy
  obtain ⟨hxlt, hxr, hxc⟩ := hpx x (List.mem_append_right _ (List.mem_singleton_self x))
  have hinj : ∀ y ∈ pre ++ [x], ∀ z ∈ pre ++ [x], node.primal y = node.primal z → y = z :=
    fun y hy z hz => h.perm.inj (hpx y hy).1 (hpx z hz).1
  have hxpre : x ∉ pre := fun hmem =>
    (List.nodup_append.mp hnodup).2.2 x hmem x (List.mem_singleton_self x) rfl
  have hrows : usedRows (newNode node (pre.map node.edge) [node.edge x]) = pre ++ usedRows node := by
    simp [usedRows, newNode, Node.includedPoints, Function.comp_def]
  have hcols : usedCols (newNode node (pre.map node.edge) [node.edge x]) =
      pre.map node.primal ++ usedCols node := by
    simp [usedCols, newNode, Node.includedPoints, Function.comp_def]
  refine ⟨⟨fun e he => ?_, ?_, ?_⟩, fun e he => ?_, fun parent hp => ?_⟩
  · rcases List.mem_append.mp he with he | he
    · obtain ⟨y, hy, rfl⟩ := List.mem_map.mp he
      have hy := (hpx y (hpre y hy)).1
      exact ⟨hy, h.perm.lt hy⟩
    · exact h.edges.lt e he
  · rw [hrows]
    refine List.nodup_append.mpr ⟨hnodup.of_append_left, h.edges.rows, fun a ha b hb hab => ?_⟩
    exact (hpx a (hpre a ha)).2.1 (hab ▸ hb)
  · rw [hcols]
    refine List.nodup_append.mpr ⟨?_, h.edges.cols, fun a ha b hb hab => ?_⟩
    · exact hnodup.of_append_left.map_on fun y hy z hz => hinj y (hpre y hy) z (hpre z hz)
    · obtain ⟨y, hy, rfl⟩ := List.mem_map.mp ha
      exact (hpx y (hpre y hy)).2.2 (hab ▸ hb)
  · cases List.mem_singleton.mp he
    rw [hrows, hcols]
    refine ⟨⟨hxlt, fun hmem => ?_⟩, h.perm.lt hxlt, fun hmem => ?_⟩
    · exact (List.mem_append.mp hmem).elim hxpre hxr
    · refine (List.mem_append.mp hmem).elim (fun hmem => ?_) hxc
      obtain ⟨y, hy, heq⟩ := List.mem_map.mp hmem
      exact hxpre (hinj y (hpre y hy) x (List.mem_append_right _ (List.mem_singleton_self x)) heq ▸ hy)
  · cases hp
    exact h

theorem places2 (hs : Moves data node vs) (h : node.Formed data) :
    Places data node (rule2Nodes node vs) := by
  refine ⟨fun new hnew => ?_, fun new hnew => ?_, fun new hnew => ?_⟩ <;>
    obtain ⟨x, hx, rfl⟩ := List.mem_map.mp hnew
  · have hsub : ∀ y ∈ [] ++ [x], y ∈ vs := List.forall_mem_singleton.mpr hx
    exact hs.placed h hsub (List.nodup_singleton x)
  · rfl
  · refine ⟨node.edge x, hs.lt x hx, h.perm.lt (hs.lt x hx), hs.unmarked x hx, ?_⟩
    exact Node.edgeMap_eq_true.mpr (.inr List.mem_cons_self)

theorem places3 (hs : Moves data node vs) (h : node.Formed data) :
    Places data node (rule3Nodes node [] (vs.map node.edge)) := by
  refine ⟨fun new hnew => ?_, fun new hnew => ?_, fun new hnew => ?_⟩ <;>
    obtain ⟨pre, x, post, rfl, rfl⟩ := mem_rule3Nodes_map.mp hnew
  · have hsub : ∀ y ∈ pre ++ [x], y ∈ pre ++ x :: post := fun y hy => by
      rw [List.append_cons]
      exact List.mem_append_left _ hy
    have hnodup := hs.nodup
    rw [List.append_cons] at hnodup
    exact hs.placed h hsub hnodup.of_append_left
  · rfl
  · have hx : x ∈ pre ++ x :: post := List.mem_append_right _ List.mem_cons_self
    refine ⟨node.edge x, hs.lt x hx, h.perm.lt (hs.lt x hx), hs.unmarked x hx, ?_⟩
    exact Node.edgeMap_eq_true.mpr (.inr List.mem_cons_self)

end Moves

/-! ### Nodes without included edges -/

/-- The nodes of a search that only excludes edges. -/
structure Node.Bare (data : InitialData) (node : Node) : Prop where
  formed : node.Formed data
  included : node.includedPoints = []

namespace Node.Bare

variable (h : node.Bare data)

include h

theorem newNode_included : (newNode node [] es).includedPoints = [] := h.included

theorem newNode_rows : usedRows (newNode node [] es) = [] :=
  congrArg (List.map Prod.fst) h.newNode_included

theorem newNode_cols : usedCols (newNode node [] es) = [] :=
  congrArg (List.map Prod.snd) h.newNode_included

theorem newNode_placed (hes : ∀ e ∈ es, e.1 < data.rank ∧ e.2 < data.rank) :
    (newNode node [] es).Placed data := by
  refine ⟨⟨fun e he => ?_, h.newNode_rows ▸ List.nodup_nil, h.newNode_cols ▸ List.nodup_nil⟩,
    fun e he => ?_, fun parent hp => ?_⟩
  · rw [h.newNode_included] at he
    exact absurd he List.not_mem_nil
  · rw [h.newNode_rows, h.newNode_cols]
    exact ⟨⟨(hes e he).1, List.not_mem_nil⟩, (hes e he).2, List.not_mem_nil⟩
  · cases hp
    exact h.formed

/-- New nodes that exclude at least one edge each, and no edge twice. -/
theorem places (hnews : ∀ new ∈ news, ∃ es, new = newNode node [] es ∧ es ≠ [] ∧
    ∀ e ∈ es, e.1 < data.rank ∧ e.2 < data.rank ∧ node.edgeMap e = false) : Places data node news := by
  refine ⟨fun new hnew => ?_, fun new hnew => ?_, fun new hnew => ?_⟩ <;>
    obtain ⟨es, rfl, hne, hes⟩ := hnews new hnew
  · exact h.newNode_placed fun e he => ⟨(hes e he).1, (hes e he).2.1⟩
  · rfl
  · obtain ⟨e, he⟩ := List.exists_mem_of_ne_nil es hne
    obtain ⟨h1, h2, hmark⟩ := hes e he
    refine ⟨e, h1, h2, hmark, Node.edgeMap_eq_true.mpr (.inr ?_)⟩
    exact List.mem_append_left _ he

end Node.Bare

/-- The vertices that rules 4 and 5 work on are those of a cycle. -/
theorem subtourVertices_orbit (h : node.Formed data) {vs : List ℕ}
    (hrun : subtourVertices fuel data node = some vs) :
    ∃ v < data.rank, node.primal v ≠ v ∧ vs = orbit node.primal v := by
  simp only [subtourVertices, Option.bind_eq_bind, Option.bind_eq_some_iff] at hrun
  obtain ⟨r, hr, hrun⟩ := hrun
  rcases mincardSubtour_cases h.perm data.rank_lt hr with rfl | ⟨v, hv, hne, rfl⟩
  · rw [if_pos rfl] at hrun
    exact nomatch hrun
  · rw [if_neg (by simp), List.dropLast_concat] at hrun
    exact ⟨v, hv, hne, (Option.some.inj hrun).symm⟩

/-! ### Rule 4 -/

/-- The edges that the new node of rule 4 for the vertex `i` excludes. -/
def rule4Edges (node : Node) (vs : List ℕ) (i : ℕ) : List Edge :=
  ((vs.filter fun j => i ≠ j).map fun j => (i, j)).filter fun e => !node.edgeMap e

theorem mem_rule4Edges {vs : List ℕ} {i : ℕ} {e : Edge} : e ∈ rule4Edges node vs i ↔
    e.1 = i ∧ e.2 ∈ vs ∧ e.2 ≠ i ∧ node.edgeMap e = false := by
  obtain ⟨a, b⟩ := e
  simp only [rule4Edges, List.mem_filter, List.mem_map, Prod.mk.injEq, Bool.not_eq_true',
    decide_eq_true_eq]
  constructor
  · rintro ⟨⟨j, ⟨hj, hij⟩, rfl, rfl⟩, hmark⟩
    exact ⟨rfl, hj, hij.symm, hmark⟩
  · rintro ⟨rfl, hb, hne, hmark⟩
    exact ⟨⟨b, ⟨hb, hne.symm⟩, rfl, rfl⟩, hmark⟩

theorem mapM_some {α β : Type*} {f : α → Option β} {g : α → β} {l : List α}
    (h : ∀ a ∈ l, f a = some (g a)) : l.mapM f = some (l.map g) := by
  induction l with
  | nil => rfl
  | cons a l ih =>
    obtain ⟨ha, hl⟩ := List.forall_mem_cons.mp h
    simp [List.mapM_cons, ha, ih hl]

theorem mapM_none {α β : Type*} {f : α → Option β} {l : List α} {a : α} (ha : a ∈ l)
    (h : f a = none) : l.mapM f = none := by
  induction l with
  | nil => exact absurd ha List.not_mem_nil
  | cons b l ih =>
    rcases List.mem_cons.mp ha with rfl | ha
    · simp [List.mapM_cons, h]
    · simp [List.mapM_cons, ih ha]

theorem mem_of_mapM {α β : Type*} {f : α → Option β} {l : List α} {r : List β} (h : l.mapM f = some r) :
    ∀ b ∈ r, ∃ a ∈ l, f a = some b := by
  induction l generalizing r with
  | nil =>
    cases h
    exact fun b hb => absurd hb List.not_mem_nil
  | cons a l ih =>
    simp only [List.mapM_cons, Option.bind_eq_bind, Option.bind_eq_some_iff, Option.pure_def,
      Option.some.injEq] at h
    obtain ⟨b, hb, r, hr, rfl⟩ := h
    refine List.forall_mem_cons.mpr ⟨⟨a, List.mem_cons_self, hb⟩, fun c hc => ?_⟩
    obtain ⟨d, hd, hdc⟩ := ih hr c hc
    exact ⟨d, List.mem_cons_of_mem a hd, hdc⟩

theorem rule4_places (h : node.Bare data)
    (hrun : BranchingRule.rule4.nodes fuel data node = some (news, released)) :
    Places data node news ∧ ∀ new ∈ news, ∃ es, new = newNode node [] es := by
  simp only [BranchingRule.nodes, branchingRule4, Option.bind_eq_bind, Option.map_eq_some_iff,
    Option.bind_eq_some_iff, Prod.mk.injEq] at hrun
  obtain ⟨_, ⟨vs, hvs, hmap⟩, rfl, _⟩ := hrun
  obtain ⟨v, hv, _, rfl⟩ := subtourVertices_orbit h.formed hvs
  have hnew : ∀ new ∈ _, ∃ i ∈ orbit node.primal v, rule4Edges node (orbit node.primal v) i ≠ [] ∧
      new = newNode node [] (rule4Edges node (orbit node.primal v) i) := fun new hnew => by
    obtain ⟨i, hi, hsome⟩ := mem_of_mapM hmap new hnew
    by_cases hnil : rule4Edges node (orbit node.primal v) i = []
    · exact nomatch (if_pos hnil).symm.trans hsome
    · exact ⟨i, hi, hnil, (Option.some.inj ((if_neg hnil).symm.trans hsome)).symm⟩
  refine ⟨h.places fun new hn => ?_, fun new hn => ?_⟩ <;> obtain ⟨i, hi, hne, rfl⟩ := hnew new hn
  · refine ⟨_, rfl, hne, fun e he => ?_⟩
    obtain ⟨rfl, he2, _, hmark⟩ := mem_rule4Edges.mp he
    exact ⟨h.formed.perm.orbit_lt hv hi, h.formed.perm.orbit_lt hv he2, hmark⟩
  · exact ⟨_, rfl⟩

/-! ### Rule 5 -/

theorem mem_rule5Edges {vs before : List ℕ} {i : ℕ} {e : Edge} :
    e ∈ rule5Edges data node vs before i ↔ e.2 < data.rank ∧ node.edgeMap e = false ∧
      (e.2 ∈ vs ∧ e.1 = i ∧ e.2 ≠ i ∨ e.2 ∉ vs ∧ e.1 ∈ before ∧ e.1 ≠ e.2) := by
  obtain ⟨a, b⟩ := e
  simp only [rule5Edges, List.mem_filter, List.mem_flatMap, List.mem_range, Bool.not_eq_true']
  constructor
  · rintro ⟨⟨j, hj, hmem⟩, hmark⟩
    by_cases hjv : j ∈ vs
    · rw [if_pos hjv] at hmem
      by_cases hij : i ≠ j
      · rw [if_pos hij] at hmem
        cases List.mem_singleton.mp hmem
        exact ⟨hj, hmark, .inl ⟨hjv, rfl, hij.symm⟩⟩
      · rw [if_neg hij] at hmem
        exact absurd hmem List.not_mem_nil
    · rw [if_neg hjv] at hmem
      obtain ⟨l, hl, heq⟩ := List.mem_map.mp hmem
      obtain ⟨hbefore, hlj⟩ := List.mem_filter.mp hl
      cases heq
      exact ⟨hj, hmark, .inr ⟨hjv, hbefore, of_decide_eq_true hlj⟩⟩
  · rintro ⟨hb, hmark, ⟨hbv, rfl, hne⟩ | ⟨hbv, ha, hne⟩⟩
    · exact ⟨⟨b, hb, by rw [if_pos hbv, if_pos hne.symm]; exact List.mem_singleton_self _⟩, hmark⟩
    · refine ⟨⟨b, hb, ?_⟩, hmark⟩
      rw [if_neg hbv]
      exact List.mem_map.mpr ⟨a, List.mem_filter.mpr ⟨ha, decide_eq_true hne⟩, rfl⟩

/-- The new nodes of rule 5 before those that exclude nothing are released. -/
def rule5Nodes (data : InitialData) (node : Node) (vs : List ℕ) : List Node :=
  (List.range vs.length).map fun k =>
    newNode node [] (rule5Edges data node vs (vs.take k) (vs.getD k 0))

theorem mem_rule5Nodes {pre post : List ℕ} {x : ℕ} : newNode node []
    (rule5Edges data node (pre ++ x :: post) pre x) ∈ rule5Nodes data node (pre ++ x :: post) := by
  refine List.mem_map.mpr ⟨pre.length, List.mem_range.mpr (by simp), ?_⟩
  rw [List.take_left, List.getD_eq_getElem _ _ (by simp)]
  simp

theorem exists_rule5Nodes {vs : List ℕ} (hnew : new ∈ rule5Nodes data node vs) : ∃ pre x post,
    vs = pre ++ x :: post ∧ new = newNode node [] (rule5Edges data node vs pre x) := by
  obtain ⟨k, hk, rfl⟩ := List.mem_map.mp hnew
  have hk := List.mem_range.mp hk
  refine ⟨vs.take k, vs[k], vs.drop (k + 1), ?_, by rw [List.getD_eq_getElem _ _ hk]⟩
  rw [List.getElem_cons_drop, List.take_append_drop]

theorem branchingRule5_spec {vs : List ℕ} (hvs : subtourVertices fuel data node = some vs) :
    ∃ released, BranchingRule.rule5.nodes fuel data node = some
      ((rule5Nodes data node vs).filter fun child => decide (child.data.excludedEdges ≠ []), released) := by
  simp only [BranchingRule.nodes, branchingRule5, hvs, Option.bind_eq_bind, Option.bind_some,
    List.partition_eq_filter_filter]
  exact ⟨_, rfl⟩

theorem rule5_places {v : ℕ} (h : node.Bare data) (hv : v < data.rank) : Places data node
    ((rule5Nodes data node (orbit node.primal v)).filter
      fun child => decide (child.data.excludedEdges ≠ [])) := by
  have hlt : ∀ x ∈ orbit node.primal v, x < data.rank := fun x => h.formed.perm.orbit_lt hv
  refine h.places fun new hnew => ?_
  obtain ⟨hnew, hne⟩ := List.mem_filter.mp hnew
  obtain ⟨pre, x, post, hvs, rfl⟩ := exists_rule5Nodes hnew
  refine ⟨_, rfl, of_decide_eq_true hne, fun e he => ?_⟩
  have hpre : ∀ y ∈ x :: pre, y ∈ orbit node.primal v := fun y hy => by
    rw [hvs]
    rcases List.mem_cons.mp hy with rfl | hy
    · exact List.mem_append_right _ List.mem_cons_self
    · exact List.mem_append_left _ hy
  obtain ⟨he2, hmark, ⟨_, he1, _⟩ | ⟨_, he1, _⟩⟩ := mem_rule5Edges.mp he
  · exact ⟨he1 ▸ hlt x (hpre x List.mem_cons_self), he2, hmark⟩
  · exact ⟨hlt _ (hpre _ (List.mem_cons_of_mem _ he1)), he2, hmark⟩

/-! ### All rules -/

namespace BranchingRule

/-- What holds of the nodes of a search with the rule, with all costs. -/
def Formed (data : InitialData) (node : Node) : BranchingRule → Prop
  | rule1 | rule3 => node.Formed data
  | rule2 | rule4 | rule5 => node.Bare data

theorem Formed.formed (h : rule.Formed data node) : node.Formed data := by
  cases rule
  exacts [h, h.formed, h, h.formed, h.formed]

theorem Formed.root (h : node.Formed data) (hinc : node.includedPoints = []) : rule.Formed data node := by
  cases rule
  exacts [h, ⟨h, hinc⟩, h, ⟨h, hinc⟩, ⟨h, hinc⟩]

/-- The new nodes of a call that returns have their place, and what `transform_node` makes of them is
again a node of the search. -/
theorem Formed.places (h : rule.Formed data node) (hrun : rule.nodes fuel data node = some (news, released)) :
    Places data node news ∧ ∀ new ∈ news, ∀ child : Node, child.Formed data →
      child.includedPoints = new.includedPoints → rule.Formed data child := by
  cases rule with
  | rule1 =>
    refine ⟨?_, fun _ _ _ hchild _ => hchild⟩
    rcases branchingRule1_cases fuel data node with ⟨hnodes, _⟩ | ⟨e, h1, h2, hopen, hnodes⟩ <;>
      cases hnodes.symm.trans hrun
    · exact ⟨fun _ hm => absurd hm List.not_mem_nil, fun _ hm => absurd hm List.not_mem_nil,
        fun _ hm => absurd hm List.not_mem_nil⟩
    · exact rule1_places h h1 h2 hopen
  | rule2 =>
    have h : node.Bare data := h
    simp only [BranchingRule.nodes, branchingRule2, Option.bind_eq_bind, Option.map_eq_some_iff,
      Option.bind_eq_some_iff, Option.pure_def, Option.some.injEq, Prod.mk.injEq] at hrun
    obtain ⟨_, ⟨edges, hedges, rfl⟩, rfl, _⟩ := hrun
    obtain ⟨vs, rfl, hs⟩ := selectMove_moves h.formed hedges
    rw [List.map_map]
    refine ⟨hs.places2 h.formed, fun new hnew child hchild hinc => ⟨hchild, hinc.trans ?_⟩⟩
    obtain ⟨x, _, rfl⟩ := List.mem_map.mp hnew
    exact h.included
  | rule3 =>
    simp only [BranchingRule.nodes, branchingRule3, Option.bind_eq_bind, Option.map_eq_some_iff,
      Option.bind_eq_some_iff, Option.pure_def, Option.some.injEq, Prod.mk.injEq] at hrun
    obtain ⟨_, ⟨edges, hedges, rfl⟩, rfl, _⟩ := hrun
    obtain ⟨vs, rfl, hs⟩ := selectMove_moves h hedges
    exact ⟨hs.places3 h, fun _ _ _ hchild _ => hchild⟩
  | rule4 =>
    have h : node.Bare data := h
    obtain ⟨hplaces, hnews⟩ := rule4_places h hrun
    refine ⟨hplaces, fun new hnew child hchild hinc => ⟨hchild, hinc.trans ?_⟩⟩
    obtain ⟨es, rfl⟩ := hnews new hnew
    exact h.included
  | rule5 =>
    have h : node.Bare data := h
    cases hvs : subtourVertices fuel data node with
    | none =>
      simp [BranchingRule.nodes, branchingRule5, hvs] at hrun
    | some vs =>
      obtain ⟨rel, hnodes⟩ := branchingRule5_spec hvs
      cases hnodes.symm.trans hrun
      obtain ⟨v, hv, _, rfl⟩ := subtourVertices_orbit h.formed hvs
      refine ⟨rule5_places h hv, fun new hnew child hchild hinc => ⟨hchild, hinc.trans ?_⟩⟩
      obtain ⟨_, x, _, _, rfl⟩ := exists_rule5Nodes (List.mem_of_mem_filter hnew)
      exact h.included

end BranchingRule

end Optimer.Tsp
