import Mathlib.Data.List.FinRange
import Mathlib.Data.Sym.Sym2
import Optimer.Tsp.OneTreeSpec
import Optimer.Tsp.Symmetric

/-! The degrees and the neighbours in a list of edges, and the edges that a tour passes. -/

namespace Optimer.Stsp
open Optimer.Tsp SpanningTree

variable {edges other : List Edge} {e : Edge} {n i j u v : ℕ} {p : ℕ → ℕ} {x : ValueType}
  {matrix : ℕ → ℕ → ValueType}

/-- No edge is listed twice, in one direction or the other. -/
abbrev Distinct (edges : List Edge) : Prop := (edges.map fun e => s(e.1, e.2)).Nodup

/-! ### Neighbours -/

/-- What an edge adds to the neighbours of `u`. -/
def neighbors (u : ℕ) (e : Edge) : List ℕ :=
  (if e.1 = u then [e.2] else []) ++ if e.2 = u then [e.1] else []

theorem addEdge_apply (adj : ℕ → List ℕ) : addEdge adj e u = adj u ++ neighbors u e := by
  unfold addEdge neighbors
  by_cases h1 : e.1 = u <;> by_cases h2 : e.2 = u <;>
    simp [Function.update_apply, h1, h2, eq_comm, Ne.symm]

theorem adjacencyList_eq : adjacencyList edges u = edges.flatMap (neighbors u) := by
  have hfold : ∀ adj : ℕ → List ℕ,
      edges.foldl addEdge adj u = adj u ++ edges.flatMap (neighbors u) := by
    induction edges with
    | nil => exact fun adj => (List.append_nil _).symm
    | cons e edges ih =>
      intro adj
      rw [List.foldl_cons, ih, addEdge_apply, List.flatMap_cons, List.append_assoc]
  exact hfold _

theorem countEdge_apply (d : ℕ → ℕ) : countEdge d e u = d u + (neighbors u e).length := by
  unfold countEdge neighbors
  by_cases h1 : e.1 = u <;> by_cases h2 : e.2 = u <;>
    simp [Function.update_apply, h1, h2, eq_comm, Ne.symm]

theorem degrees_eq : degrees edges u = (edges.map fun e => (neighbors u e).length).sum := by
  have hfold : ∀ d : ℕ → ℕ,
      edges.foldl countEdge d u = d u + (edges.map fun e => (neighbors u e).length).sum := by
    induction edges with
    | nil => exact fun d => rfl
    | cons e edges ih =>
      intro d
      rw [List.foldl_cons, ih, countEdge_apply, List.map_cons, List.sum_cons, Nat.add_assoc]
  exact (hfold _).trans (Nat.zero_add _)

/-- A vertex has as many neighbours as edges. -/
theorem length_adjacencyList : (adjacencyList edges u).length = degrees edges u := by
  rw [adjacencyList_eq, degrees_eq, List.length_flatMap]

theorem length_neighbors (h : e.1 ≠ e.2) :
    (neighbors u e).length = if e.1 = u ∨ e.2 = u then 1 else 0 := by
  unfold neighbors
  by_cases h1 : e.1 = u <;> by_cases h2 : e.2 = u
  · exact absurd (h1.trans h2.symm) h
  all_goals simp [h1, h2]

theorem degrees_append : degrees (edges ++ other) u = degrees edges u + degrees other u := by
  rw [degrees_eq, degrees_eq, degrees_eq, List.map_append, List.sum_append]

theorem degrees_cons : degrees (e :: edges) u = (neighbors u e).length + degrees edges u := by
  rw [degrees_eq, degrees_eq, List.map_cons, List.sum_cons]

theorem degrees_singleton : degrees [e] u = (neighbors u e).length := degrees_cons

/-- The edges at a vertex with some property and those without it. -/
theorem degrees_filter_add (edges : List Edge) (q : Edge → Bool) :
    degrees (edges.filter q) u + degrees (edges.filter fun e => !q e) u = degrees edges u := by
  rw [← degrees_append, degrees_eq, degrees_eq]
  exact ((List.filter_append_perm q edges).map _).sum_eq

/-- The degree of a vertex is the number of edges at it, if no edge has twice the same end. -/
theorem length_filter_ends (h : ∀ e ∈ edges, e.1 ≠ e.2) :
    (edges.filter fun e => e.1 = u ∨ e.2 = u).length = degrees edges u := by
  induction edges with
  | nil => rfl
  | cons e edges ih =>
    obtain ⟨he, hrest⟩ := List.forall_mem_cons.mp h
    rw [degrees_cons, length_neighbors he, ← ih hrest, List.filter_cons]
    split
    · next hend => rw [if_pos (of_decide_eq_true hend), List.length_cons, Nat.add_comm]
    · next hend => rw [if_neg fun h => hend (decide_eq_true h), Nat.zero_add]

theorem mem_neighbors : v ∈ neighbors u e ↔ (u, v) = e ∨ (v, u) = e := by
  obtain ⟨a, b⟩ := e
  unfold neighbors
  by_cases ha : a = u <;> by_cases hb : b = u <;> grind

theorem mem_adjacencyList : v ∈ adjacencyList edges u ↔ Adj edges u v := by
  rw [adjacencyList_eq, List.mem_flatMap]
  constructor
  · rintro ⟨e, he, hv⟩
    rcases mem_neighbors.mp hv with rfl | rfl
    exacts [.inl he, .inr he]
  · rintro (h | h)
    exacts [⟨_, h, mem_neighbors.mpr (.inl rfl)⟩, ⟨_, h, mem_neighbors.mpr (.inr rfl)⟩]

theorem nodup_neighbors (h : e ≠ (u, u)) : (neighbors u e).Nodup := by
  unfold neighbors
  by_cases h1 : e.1 = u <;> by_cases h2 : e.2 = u
  · exact absurd (Prod.ext h1 h2) h
  all_goals simp [h1, h2]

theorem nodup_adjacencyList (h : Distinct edges) (hne : (u, u) ∉ edges) :
    (adjacencyList edges u).Nodup := by
  rw [adjacencyList_eq, List.nodup_flatMap]
  refine ⟨fun e he => nodup_neighbors fun heq => hne (heq ▸ he),
    (List.pairwise_map.mp h).imp fun {e f} hef => ?_⟩
  intro v hv hv'
  refine hef ?_
  rcases mem_neighbors.mp hv with rfl | rfl <;> rcases mem_neighbors.mp hv' with rfl | rfl <;>
    simp [Sym2.eq_swap]

/-! ### The edges of a tour -/

/-- The tour passes the edge, in one direction or the other. -/
def Passes (n : ℕ) (p : ℕ → ℕ) (e : Edge) : Prop := ∃ i < n, (i, p i) = e ∨ (p i, i) = e

theorem Passes.ne (h : Passes n p e) (hp : IsTour n p) (hn : 2 ≤ n) : e.1 ≠ e.2 := by
  obtain ⟨i, hi, rfl | rfl⟩ := h
  exacts [(hp.ne hn hi).symm, hp.ne hn hi]

/-- The neighbours of a vertex in a tour are the next one and the one before. -/
theorem Passes.next_or_prev (h : Passes n p (u, v)) : v < n ∧ p v = u ∨ u < n ∧ p u = v := by
  obtain ⟨i, hi, heq | heq⟩ := h
  · rw [Prod.mk.injEq] at heq
    exact .inr ⟨heq.1 ▸ hi, heq.1 ▸ heq.2⟩
  · rw [Prod.mk.injEq] at heq
    exact .inl ⟨heq.2 ▸ hi, heq.2 ▸ heq.1⟩

theorem Passes.swap (h : Passes n p (u, v)) : Passes n p (v, u) := by
  obtain ⟨i, hi, heq⟩ := h
  exact ⟨i, hi, heq.symm.imp (fun h => by simpa [and_comm] using h) fun h => by
    simpa [and_comm] using h⟩

/-- The other end of a passed edge. -/
theorem Passes.at_vertex (h : Passes n p e) (hv : e.1 = v ∨ e.2 = v) :
    ∃ w, s(e.1, e.2) = s(v, w) ∧ Passes n p (v, w) := by
  rcases hv with rfl | rfl
  exacts [⟨e.2, rfl, h⟩, ⟨e.1, Sym2.eq_swap, h.swap⟩]

/-- No other edge at a vertex is passed than two different ones. -/
theorem Passes.eq_or_eq (hp : IsTour n p) {a b : ℕ} (ha : Passes n p (u, a)) (hb : Passes n p (u, b))
    (hab : a ≠ b) (hv : Passes n p (u, v)) : v = a ∨ v = b := by
  rcases ha.next_or_prev with ⟨ha, hpa⟩ | ⟨ha, hpa⟩ <;>
    rcases hb.next_or_prev with ⟨hb, hpb⟩ | ⟨hb, hpb⟩ <;>
    rcases hv.next_or_prev with ⟨hv, hpv⟩ | ⟨hv, hpv⟩
  · exact .inl (hp.perm.inj hv ha (hpv.trans hpa.symm))
  · exact absurd (hp.perm.inj ha hb (hpa.trans hpb.symm)) hab
  · exact .inl (hp.perm.inj hv ha (hpv.trans hpa.symm))
  · exact .inr (hpv.symm.trans hpb)
  · exact .inr (hp.perm.inj hv hb (hpv.trans hpb.symm))
  · exact .inl (hpv.symm.trans hpa)
  · exact absurd (hpa.symm.trans hpb) hab
  · exact .inl (hpv.symm.trans hpa)

/-! ### Setting the entries of an edge -/

theorem setEdge_symm (h : SymmetricOn n matrix) : SymmetricOn n (setEdge matrix e x) := by
  intro i hi j hj
  unfold setEdge
  by_cases he : (i, j) = e ∨ (j, i) = e
  · rw [if_pos he, if_pos he.symm]
  · rw [if_neg he, if_neg (he ∘ Or.symm), h i hi j hj]

/-- The entries that a tour passes stay, if it does not pass the edge. -/
theorem setEdge_tour (h : ¬ Passes n p e) (hi : i < n) :
    setEdge matrix e x i (p i) = matrix i (p i) :=
  if_neg fun h' => h ⟨i, hi, h'⟩

theorem excludeEdges_apply : excludeEdges matrix edges i j =
    if ∃ e ∈ edges, (i, j) = e ∨ (j, i) = e then mVal else matrix i j := by
  unfold excludeEdges
  induction edges generalizing matrix with
  | nil => simp
  | cons e edges ih =>
    rw [List.foldl_cons, ih, setEdge]
    simp only [List.exists_mem_cons_iff]
    by_cases h : ∃ f ∈ edges, (i, j) = f ∨ (j, i) = f
    · rw [if_pos h, if_pos (.inr h)]
    · simp only [if_neg h, or_iff_left h]

theorem excludeEdges_symm (h : SymmetricOn n matrix) :
    SymmetricOn n (excludeEdges matrix edges) := by
  unfold excludeEdges
  induction edges generalizing matrix with
  | nil => exact h
  | cons e edges ih => exact ih (setEdge_symm h)

theorem excludeEdges_tour (h : ∀ e ∈ edges, ¬ Passes n p e) (hi : i < n) :
    excludeEdges matrix edges i (p i) = matrix i (p i) := by
  unfold excludeEdges
  induction edges generalizing matrix with
  | nil => rfl
  | cons e edges ih =>
    rw [List.foldl_cons, ih fun f hf => h f (List.mem_cons_of_mem _ hf),
      setEdge_tour (h e List.mem_cons_self) hi]

/-! ### The tours of a node -/

/-- The tour contains all included and no excluded edges of the chain. -/
structure Node.Fits (n : ℕ) (node : Node) (p : ℕ → ℕ) : Prop where
  included : ∀ e ∈ node.includedEdges, Passes n p e
  excluded : ∀ e ∈ node.excludedEdges, ¬ Passes n p e

/-- The tours in the set of a node. -/
def Node.tours (n : ℕ) (node : Node) : Set (ℕ → ℕ) := {p | IsTour n p ∧ node.Fits n p}

theorem Node.mem_tours_root {data : TspSet} : p ∈ (Node.root data).tours n ↔ IsTour n p :=
  and_iff_left ⟨fun _ h => absurd h List.not_mem_nil, fun _ h => absurd h List.not_mem_nil⟩

namespace Node

variable (node : Node) (sol : MSOneTree.Solution ValueType)

theorem data_solved :
    (node.solved sol).data = { node.data with value := sol.value, relaxation := sol.edges } := by
  cases node <;> rfl

theorem includedEdges_solved : (node.solved sol).includedEdges = node.includedEdges := by
  cases node <;> rfl

theorem excludedEdges_solved : (node.solved sol).excludedEdges = node.excludedEdges := by
  cases node <;> rfl

theorem tours_solved : (node.solved sol).tours n = node.tours n := by
  cases node <;> exact Set.ext fun p => and_congr_right fun _ =>
    ⟨fun h => ⟨h.included, h.excluded⟩, fun h => ⟨h.included, h.excluded⟩⟩

end Node

end Optimer.Stsp
