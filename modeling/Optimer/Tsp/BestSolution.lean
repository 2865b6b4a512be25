import Optimer.Tsp.ClassicalCorrect
import Optimer.Tsp.LagrangeanRecord

/-! The best solution over calls of `branch` that share it. `build_solution` writes the route before it
knows whether there is one, so that the solution is intact as long as the last child that comes to
`build_solution` in a call is a tour. -/

namespace Optimer.Stsp
open Optimer.Tsp SpanningTree

variable {transform : Node → ValueType → Option Node} {eps r r' r₀ : ValueType} {sol sol' sol₀ : Solution}
  {node new child m : Node} {news children nodes done : List Node} {b b' : Branched Node} {n : ℕ}
  {matrix : ℕ → ℕ → ValueType} {edges : List Edge} {route : List ℕ}

/-- `build_tour` finds a tour in the relaxation. -/
def Node.isTour (node : Node) : Bool := (buildTour node.data.relaxation).any (· ≠ [])

theorem Node.isTour_iff : node.isTour = true ↔
    ∃ route, buildTour node.data.relaxation = some route ∧ route ≠ [] := by
  rw [isTour, Option.any_eq_true]
  simp only [decide_eq_true_eq]

/-- The children that come to `build_solution` in the loop of `branch` over the new nodes. -/
def triedChildren (transform : Node → ValueType → Option Node) (eps : ValueType) :
    ValueType → List Node → List Node
  | _, [] => []
  | record, new :: news =>
    match transform new record with
    | none => []
    | some child =>
      if child.data.value + eps ≥ record then triedChildren transform eps record news
      else
        let record := if child.isTour then child.data.value else record
        child :: triedChildren transform eps record news

/-- What the children that come to `build_solution` make of the record and the solution. -/
structure Effect (children : List Node) (r : ValueType) (sol : Solution) (r' : ValueType)
    (sol' : Solution) : Prop where
  le : r' ≤ r
  nil : children = [] → r' = r ∧ sol' = sol
  lowers : r' < r ↔ ∃ child ∈ children, child.isTour = true
  last : ∀ child ∈ children.getLast?, buildTour child.data.relaxation = some sol'.route ∧
    (sol'.route ≠ [] → sol'.value = r' ∧ child.data.value = r')

theorem Effect.skip : Effect [] r sol r sol :=
  ⟨le_rfl, fun _ => ⟨rfl, rfl⟩, by simp, fun _ h => nomatch h⟩

/-- A child that is no tour clears the route. -/
theorem Effect.consOpen (hopen : buildTour child.data.relaxation = some [])
    (h : Effect children r { sol with route := [] } r' sol') : Effect (child :: children) r sol r' sol' where
  le := h.le
  nil := fun hnil => absurd hnil (List.cons_ne_nil _ _)
  lowers := by
    have hno : ¬ child.isTour = true := fun h => by
      obtain ⟨route, hroute, hne⟩ := Node.isTour_iff.mp h
      exact hne (Option.some.inj (hroute.symm.trans hopen))
    rw [h.lowers, List.exists_mem_cons_iff]
    exact (or_iff_right hno).symm
  last x hx := by
    cases children with
    | nil =>
      obtain rfl := Option.some.inj hx
      obtain ⟨rfl, rfl⟩ := h.nil rfl
      exact ⟨hopen, fun hne => absurd rfl hne⟩
    | cons _ _ => exact h.last x hx

/-- A child that is a tour sets the record and the solution. -/
theorem Effect.consTour (hroute : buildTour child.data.relaxation = some route) (hne : route ≠ [])
    (hlt : child.data.value < r)
    (h : Effect children child.data.value { value := child.data.value, route } r' sol') :
    Effect (child :: children) r sol r' sol' where
  le := h.le.trans hlt.le
  nil := fun hnil => absurd hnil (List.cons_ne_nil _ _)
  lowers := ⟨fun _ => ⟨child, List.mem_cons_self, Node.isTour_iff.mpr ⟨route, hroute, hne⟩⟩,
    fun _ => h.le.trans_lt hlt⟩
  last x hx := by
    cases children with
    | nil =>
      obtain rfl := Option.some.inj hx
      obtain ⟨rfl, rfl⟩ := h.nil rfl
      exact ⟨hroute, fun _ => ⟨rfl, rfl⟩⟩
    | cons _ _ => exact h.last x hx

/-- The loop over the new nodes. -/
theorem branchChildren_effect (heps : 0 ≤ eps) (h : news.foldlM (branchChild transform eps) b = some b') :
    Effect (triedChildren transform eps b.record news) b.record b.sol b'.record b'.sol := by
  induction news generalizing b with
  | nil => exact Option.some.inj h ▸ .skip
  | cons new news ih =>
    rw [List.foldlM_cons] at h
    obtain ⟨b₁, h₁, h⟩ := Option.bind_eq_some_iff.mp h
    have E := ih h
    obtain ⟨m, hm, ⟨hle, rfl⟩ | ⟨hlt, route, hroute, ⟨rfl, rfl⟩ | ⟨hne, rfl⟩⟩⟩ := branchChild_cases h₁
    · simp only [triedChildren, hm, if_pos hle]
      exact E
    · have hopen : m.isTour = false := by simp [Node.isTour, hroute]
      simp only [triedChildren, hm, if_neg (not_le.mpr hlt), hopen]
      exact .consOpen hroute E
    · simp only [triedChildren, hm, if_neg (not_le.mpr hlt), Node.isTour_iff.mpr ⟨route, hroute, hne⟩]
      exact .consTour hroute hne ((le_add_of_nonneg_right heps).trans_lt hlt) E

/-- A child that comes to `build_solution` is below the record that `transform_node` had. -/
theorem mem_triedChildren (heps : 0 ≤ eps) (h : m ∈ triedChildren transform eps r news) :
    ∃ new ∈ news, ∃ r' ≤ r, transform new r' = some m ∧ m.data.value + eps < r' := by
  induction news generalizing r with
  | nil => exact absurd h List.not_mem_nil
  | cons new news ih =>
    rw [triedChildren] at h
    split at h
    · exact absurd h List.not_mem_nil
    next child hchild =>
    split at h
    · exact List.exists_mem_cons_of_exists (ih h)
    next hlt =>
    have hlt := not_le.mp hlt
    rcases List.mem_cons.mp h with rfl | h
    · exact ⟨new, List.mem_cons_self, r, le_rfl, hchild, hlt⟩
    · obtain ⟨new', hnew, r', hr', hm⟩ := ih h
      refine ⟨new', List.mem_cons_of_mem _ hnew, r', hr'.trans ?_, hm⟩
      split
      exacts [(le_add_of_nonneg_right heps).trans hlt.le, le_rfl]

/-! ### Calls of `branch` on one record and one solution -/

/-- The record and the solution after calls of `branch` on some nodes, one after another. -/
inductive Shared (branch : Node → ValueType → Solution → Option (Branched Node)) (r₀ : ValueType)
    (sol₀ : Solution) : List Node → ValueType → Solution → Prop
  | start : Shared branch r₀ sol₀ [] r₀ sol₀
  | call {done : List Node} {node : Node} {r : ValueType} {sol : Solution} {b : Branched Node} :
      Shared branch r₀ sol₀ done r sol → branch node r sol = some b →
        Shared branch r₀ sol₀ (done ++ [node]) b.record b.sol

/-- Once the record has been lowered, it is the value of the solution, whose route has this value, after
every call. -/
def Intact (n : ℕ) (matrix : ℕ → ℕ → ValueType)
    (branch : Node → ValueType → Solution → Option (Branched Node)) (r₀ : ValueType) (sol₀ : Solution)
    (nodes : List Node) : Prop :=
  ∀ done r sol, done <+: nodes → Shared branch r₀ sol₀ done r sol → r < r₀ →
    sol.value = r ∧ Proper n matrix sol

/-- In the first call with a tour and in all later ones the last child that comes to `build_solution` is
a tour. -/
def Settled (branch : Node → ValueType → Solution → Option (Branched Node))
    (tried : Node → ValueType → List Node) (r₀ : ValueType) (sol₀ : Solution) (nodes : List Node) : Prop :=
  ∀ done node r sol b, done ++ [node] <+: nodes → Shared branch r₀ sol₀ done r sol →
    branch node r sol = some b → (r < r₀ ∨ ∃ child ∈ tried node r, child.isTour = true) →
      ∀ child ∈ (tried node r).getLast?, child.isTour = true

section Shared

variable {branch : Node → ValueType → Solution → Option (Branched Node)}
  {tried : Node → ValueType → List Node}
  (heffect : ∀ {node r sol b}, branch node r sol = some b → Effect (tried node r) r sol b.record b.sol)

include heffect

theorem Shared.le (h : Shared branch r₀ sol₀ done r sol) : r ≤ r₀ := by
  induction h with
  | start => exact le_rfl
  | call _ hrun ih => exact (heffect hrun).le.trans ih

/-- The solution stays intact in exactly the settled sequences, if the routes of the tours have the value
of their child. -/
theorem intact_iff (hproper : ∀ done node r sol, done ++ [node] <+: nodes →
      Shared branch r₀ sol₀ done r sol → ∀ child ∈ tried node r, ∀ route,
        buildTour child.data.relaxation = some route → route ≠ [] →
          Proper n matrix { value := child.data.value, route }) :
    Intact n matrix branch r₀ sol₀ nodes ↔ Settled branch tried r₀ sol₀ nodes := by
  constructor
  · intro hintact done node r sol b hdone hshared hrun hlowers child hlast
    obtain ⟨hroute, _⟩ := (heffect hrun).last child hlast
    have hlow : b.record < r₀ := by
      rcases hlowers with hlt | hex
      · exact (heffect hrun).le.trans_lt hlt
      · exact ((heffect hrun).lowers.mpr hex).trans_le (hshared.le heffect)
    obtain ⟨v, l, _, hsol⟩ := (hintact _ _ _ hdone (hshared.call hrun) hlow).2.closed
    exact Node.isTour_iff.mpr ⟨_, hroute, hsol ▸ List.cons_ne_nil _ _⟩
  · intro hsettled done r sol hdone hshared hlow
    induction hshared with
    | start => exact absurd hlow (lt_irrefl _)
    | @call done node r sol b hshared hrun ih =>
      have E := heffect hrun
      rcases List.eq_nil_or_concat (tried node r) with hnil | ⟨_, child, hsplit⟩
      · obtain ⟨hr, hsol⟩ := E.nil hnil
        rw [hr] at hlow ⊢
        rw [hsol]
        exact ih ((List.prefix_append _ _).trans hdone) hlow
      · have hlast : child ∈ (tried node r).getLast? := by simp [hsplit]
        have hlowers : r < r₀ ∨ ∃ child ∈ tried node r, child.isTour = true := by
          rcases E.le.lt_or_eq with hlt | heq
          exacts [.inr (E.lowers.mp hlt), .inl (heq ▸ hlow)]
        obtain ⟨route, hroute, hne⟩ := Node.isTour_iff.mp
          (hsettled done node r sol b hdone hshared hrun hlowers child hlast)
        obtain ⟨hroute', hvalue⟩ := E.last child hlast
        obtain rfl := Option.some.inj (hroute.symm.trans hroute')
        obtain ⟨hsol, hchild⟩ := hvalue hne
        obtain ⟨hclosed, hcalc⟩ := hproper done node r sol hdone hshared child
          (List.mem_of_mem_getLast? hlast) _ hroute hne
        exact ⟨hsol, hclosed, hsol.trans (hchild.symm.trans hcalc)⟩

end Shared

/-! ### `ClassicalSolver` -/

section Solvers

variable {data : InitialData} {params : Parameters} {rule : BranchingRule} {s : LagrangeanRelaxation.State}

/-- The children that come to `build_solution` in `ClassicalSolver::branch`. -/
def ClassicalSolver.tried (data : InitialData) (node : Node) (record : ValueType) : List Node :=
  triedChildren (fun new _ => some (transformNode data new)) 0 record (newNodes data node)

theorem ClassicalSolver.branch_effect (h : ClassicalSolver.branch data node r sol = some b) :
    Effect (tried data node r) r sol b.record b.sol := by
  unfold ClassicalSolver.branch at h
  split at h
  · exact nomatch h
  · exact branchChildren_effect le_rfl h

theorem ClassicalSolver.tried_proper (hn : 3 ≤ data.rank) (hsymm : SymmetricOn data.rank data.matrix)
    (hc : Costs data) (hr : r ≤ mVal) (hm : m ∈ tried data node r)
    (hroute : buildTour m.data.relaxation = some route) (hne : route ≠ []) :
    Proper data.rank data.matrix { value := m.data.value, route } := by
  obtain ⟨new, _, r', hr', hrun, hlt⟩ := mem_triedChildren le_rfl hm
  obtain rfl := Option.some.inj hrun
  rw [add_zero] at hlt
  have hs : Solved data (transformNode data new) := transformNode_solved new
  obtain ⟨hclosed, hcalc⟩ := buildTour_closed hn (hs.length hn hc) hroute hne
  exact ⟨hclosed, (hs.value_original hn hc (hlt.trans_le (hr'.trans hr))).trans (hcalc _ hsymm).symm⟩

/-! ### `LagrangeanSolver` -/

/-- The children that come to `build_solution` in `LagrangeanSolver::branch`. -/
def tried (data : InitialData) (params : Parameters) (rule : BranchingRule) (node : Node)
    (record : ValueType) : List Node :=
  if node.data.value + params.epsilon ≥ record then []
  else (rule.nodes data.rank data.matrix node).elim [] (triedChildren
    (transformNode MSOneTree.solve data.rank data.matrix params) params.epsilon record)

theorem branch_effect (heps : 0 ≤ params.epsilon)
    (h : branch MSOneTree.solve data params rule node r sol = some b) :
    Effect (tried data params rule node r) r sol b.record b.sol := by
  unfold branch at h
  unfold tried
  split at h
  · next hle =>
    obtain rfl := Option.some.inj h
    rw [if_pos hle]
    exact .skip
  · next hlt =>
    obtain ⟨news, hnews, h⟩ := Option.bind_eq_some_iff.mp h
    rw [if_neg hlt, hnews]
    exact branchChildren_effect heps h

/-- The first 1-tree of `LagrangeanRelaxation::solve` is a tour, or the relaxation has all included
edges. -/
def Whole (data : InitialData) (child : Node) : Prop :=
  ((nodeMatrix data.rank data.matrix child).bind fun matrix =>
      buildTour (MSOneTree.solve matrix data.rank).edges).any (· ≠ []) = true ∨
    ∀ e ∈ child.includedEdges, Adj child.data.relaxation e.1 e.2

instance : Decidable (Whole data child) := inferInstanceAs (Decidable (_ ∨ _))

theorem nodeMatrix_solved (node : Node) (sol : MSOneTree.Solution ValueType) :
    nodeMatrix n matrix (node.solved sol) = nodeMatrix n matrix node := by
  unfold nodeMatrix
  rw [Node.includedEdges_solved, Node.excludedEdges_solved]

open LagrangeanRelaxation in
/-- There is no second round if the first 1-tree is a tour. -/
theorem LagrangeanRelaxation.Rounds.eq_start {initial : ℕ → ℕ → ValueType} {ub : ValueType} {included : List Edge}
    {maxIter : ℕ}
    (hn : 3 ≤ n) (hroute : buildTour (MSOneTree.solve initial n).edges = some route) (hne : route ≠ [])
    (h : Rounds MSOneTree.solve initial n ub eps included maxIter s) :
    s = LagrangeanRelaxation.start initial := by
  induction h with
  | start => rfl
  | @next s t _ _ ht ih =>
    subst ih
    obtain ⟨p, hp, _, hperm⟩ :=
      buildTour_sound hn (MSOneTree.length_solve (Nat.le_of_succ_le hn)) hroute hne
    have hright : rightDegrees n (MSOneTree.solve initial n).edges = true :=
      List.all_eq_true.mpr fun v hv =>
        decide_eq_true (degrees_of_cycle hp hperm hn (List.mem_range.mp hv))
    rcases body_cases (s := LagrangeanRelaxation.start initial) with ⟨_, hb, _⟩ | ⟨_, hno, _⟩
    · exact nomatch hb.symm.trans ht
    · exact nomatch hright.symm.trans hno

open LagrangeanRelaxation in
theorem transformNode_proper (hn : 3 ≤ data.rank) (hsymm : SymmetricOn data.rank data.matrix)
    (hc : Costs data) (heps : 0 ≤ params.epsilon)
    (h : transformNode MSOneTree.solve data.rank data.matrix params new r = some m)
    (hlow : m.data.value + params.epsilon < r) (hr : r ≤ mVal) (hwhole : Whole data m)
    (hroute : buildTour m.data.relaxation = some route) (hne : route ≠ []) :
    Proper data.rank data.matrix { value := m.data.value, route } := by
  obtain ⟨closed, s, hmatrix, hs, _, rfl, _⟩ := transformNode_cases h
  have P := hs.priced hn (excludeEdges_symm hsymm)
  rw [Whole, nodeMatrix_solved, hmatrix, Node.includedEdges_solved, Node.data_solved] at hwhole
  rw [Node.data_solved] at hlow hroute ⊢
  have hlen : (roundSolution MSOneTree.solve data.rank s).edges.length = data.rank :=
    MSOneTree.length_solve (Nat.le_of_succ_le hn)
  obtain ⟨p, hp, rfl, hperm⟩ := buildTour_sound hn hlen hroute hne
  have hin := within_of_buildTour hroute
  rw [hlen] at hin
  have hvalue := P.value_eq_cost hin hp hperm (hwhole.imp_left fun hfirst => by
    obtain ⟨route', hroute', hne'⟩ := (Option.any_eq_true ..).mp hfirst
    exact hs.eq_start hn hroute' (of_decide_eq_true hne'))
  have hbelow := (le_add_of_nonneg_right heps).trans_lt (hlow.trans_le hr)
  obtain ⟨hclosed, hcalc⟩ := route_of_lt (Nat.zero_lt_of_lt hn) hc hp hvalue hbelow
  exact ⟨hclosed, hcalc⟩

/-- Every child that is a tour and comes to `build_solution` is whole. -/
def WholeTours (data : InitialData) (params : Parameters) (rule : BranchingRule) (r₀ : ValueType)
    (sol₀ : Solution) (nodes : List Node) : Prop :=
  ∀ done node r sol, done ++ [node] <+: nodes →
    Shared (branch MSOneTree.solve data params rule) r₀ sol₀ done r sol →
      ∀ child ∈ tried data params rule node r, child.isTour = true → Whole data child

/-- The best solution stays intact in exactly the sequences of calls that are settled; in those of
`LagrangeanSolver`, if the tours are whole. -/
theorem sol_intact_iff (hn : 3 ≤ data.rank) (hsymm : SymmetricOn data.rank data.matrix) (hc : Costs data)
    (hr : r₀ ≤ mVal) (sol₀ : Solution) (nodes : List Node) :
    (Intact data.rank data.matrix (ClassicalSolver.branch data) r₀ sol₀ nodes ↔
      Settled (ClassicalSolver.branch data) (ClassicalSolver.tried data) r₀ sol₀ nodes) ∧
    ∀ params rule, 0 ≤ params.epsilon → WholeTours data params rule r₀ sol₀ nodes →
      (Intact data.rank data.matrix (branch MSOneTree.solve data params rule) r₀ sol₀ nodes ↔
        Settled (branch MSOneTree.solve data params rule) (tried data params rule) r₀ sol₀ nodes) := by
  constructor
  · refine intact_iff ClassicalSolver.branch_effect fun done node r sol _ hshared child hchild route => ?_
    exact ClassicalSolver.tried_proper hn hsymm hc ((hshared.le ClassicalSolver.branch_effect).trans hr)
      hchild
  · intro params rule heps hwhole
    refine intact_iff (branch_effect heps) fun done node r sol hdone hshared child hchild route => ?_
    intro hroute hne
    have htour := hwhole done node r sol hdone hshared child hchild (Node.isTour_iff.mpr ⟨_, hroute, hne⟩)
    unfold tried at hchild
    split at hchild
    · exact absurd hchild List.not_mem_nil
    cases hnews : rule.nodes data.rank data.matrix node with
    | none =>
      rw [hnews] at hchild
      exact absurd hchild List.not_mem_nil
    | some news =>
      rw [hnews] at hchild
      obtain ⟨new, _, r', hr', htransform, hlow⟩ := mem_triedChildren heps hchild
      exact transformNode_proper hn hsymm hc heps htransform hlow
        (hr'.trans ((hshared.le (branch_effect heps)).trans hr)) htour hroute hne

end Solvers

/-! ### Runs -/

theorem Shared.eq_start {branch : Node → ValueType → Solution → Option (Branched Node)}
    (h : Shared branch r₀ sol₀ [] r sol) : r = r₀ := by
  generalize hdone : ([] : List Node) = done at h
  cases h with
  | start => rfl
  | call _ _ => exact absurd hdone.symm (List.append_ne_nil_of_right_ne_nil _ (List.cons_ne_nil _ _))

theorem eq_of_prefix_singleton (h : done ++ [m] <+: [node]) : done = [] ∧ m = node := by
  obtain ⟨rest, hrest⟩ := h
  cases done with
  | nil => exact ⟨rfl, (List.cons.inj hrest).1⟩
  | cons _ _ => simp at hrest

/-- The condition on a sequence of one call is one on its children. -/
theorem settled_singleton {branch : Node → ValueType → Solution → Option (Branched Node)}
    {tried : Node → ValueType → List Node}
    (h : ∀ child ∈ (tried node r₀).getLast?, child.isTour = true) : Settled branch tried r₀ sol₀ [node] := by
  intro done x r sol b hdone hshared _ _
  obtain ⟨rfl, rfl⟩ := eq_of_prefix_singleton hdone
  exact hshared.eq_start ▸ h

theorem wholeTours_singleton {data : InitialData} {params : Parameters} {rule : BranchingRule}
    (h : ∀ child ∈ tried data params rule node r₀, Whole data child) :
    WholeTours data params rule r₀ sol₀ [node] := by
  intro done x r sol hdone hshared child hchild _
  obtain ⟨rfl, rfl⟩ := eq_of_prefix_singleton hdone
  exact h child (hshared.eq_start ▸ hchild)

/-- The one child that comes to `build_solution` at the root of a triangle is a tour. -/
theorem triangleData_tried : (transformNode MSOneTree.solve 3 triangleData.matrix {} (.root {}) 20).map
    (fun node => (tried triangleData {} .rule2 node 20).map fun child =>
      (child.isTour, decide (Whole triangleData child))) = some [(true, true)] := by
  decide +kernel

theorem nearTourData_tried : (ClassicalSolver.tried ClassicalSolver.nearTourData
    (ClassicalSolver.transformNode ClassicalSolver.nearTourData (.root {})) 2).map Node.isTour = [true] := by
  decide +kernel

theorem sol_intact_triangle :
    Intact 5 ClassicalSolver.nearTourData.matrix (ClassicalSolver.branch ClassicalSolver.nearTourData) 2 {}
      [ClassicalSolver.transformNode ClassicalSolver.nearTourData (.root {})] ∧
    ∃ root, transformNode MSOneTree.solve 3 triangleData.matrix {} (.root {}) 20 = some root ∧
      Intact 3 triangleData.matrix (branch MSOneTree.solve triangleData {} .rule2) 20 {} [root] := by
  constructor
  · obtain ⟨child, hchild, htour⟩ := List.map_eq_singleton_iff.mp nearTourData_tried
    have hset : ∀ x ∈ (ClassicalSolver.tried ClassicalSolver.nearTourData
        (ClassicalSolver.transformNode ClassicalSolver.nearTourData (.root {})) 2).getLast?,
        x.isTour = true := by
      rw [hchild]
      rintro x ⟨⟩
      exact htour
    exact (sol_intact_iff (show 3 ≤ ClassicalSolver.nearTourData.rank by decide)
      ClassicalSolver.nearTourData_facts.1 ClassicalSolver.nearTourData_costs
      (by decide +kernel) {} _).1.mpr (settled_singleton hset)
  · obtain ⟨root, hroot, htried⟩ := Option.map_eq_some_iff.mp triangleData_tried
    obtain ⟨child, hchild, heq⟩ := List.map_eq_singleton_iff.mp htried
    obtain ⟨htour, hwhole⟩ := Prod.mk.inj heq
    refine ⟨root, hroot, ((sol_intact_iff (show 3 ≤ triangleData.rank by decide) triangleData_costs.1
      triangleData_costs.2 (by decide +kernel) {} _).2 {} .rule2 le_rfl
      (wholeTours_singleton ?_)).mpr (settled_singleton ?_)⟩ <;> rw [hchild]
    · rintro x hx
      obtain rfl := List.mem_singleton.mp hx
      exact of_decide_eq_true hwhole
    · rintro x ⟨⟩
      exact htour

/-! ### A route that is cleared -/

/-- Five vertices where a child that is no tour comes after the optimal tour. -/
def clearedData : InitialData where
  matrix i j := if i = j then mVal else
    (([[0, 0, 1, 0, 0],
       [0, 0, 1, 2, 0],
       [1, 1, 0, 2, 2],
       [0, 2, 2, 0, 0],
       [0, 0, 2, 0, 0]] : List (List ValueType)).getD i []).getD j 0
  rank := 5
  size_lt := size_lt_five

theorem clearedData_facts : SymmetricOn 5 clearedData.matrix ∧
    (∀ i < 5, ∀ j < 5, i ≠ j → 0 ≤ clearedData.matrix i j ∧ clearedData.matrix i j ≤ 2) ∧
    getGreedySolution 30 clearedData.matrix 5 = some { value := 3, route := [0, 1, 4, 3, 2, 0] } ∧
    ((ClassicalSolver.branch clearedData (ClassicalSolver.transformNode clearedData (.root {})) 3
      { value := 3, route := [0, 1, 4, 3, 2, 0] }).bind fun b₀ => b₀.nodes[0]?.bind fun m₁ =>
        b₀.nodes[2]?.bind fun m₂ => (ClassicalSolver.branch clearedData m₁ b₀.record b₀.sol).bind fun b₁ =>
          (ClassicalSolver.branch clearedData m₂ b₁.record b₁.sol).map fun b₂ =>
            ((b₁.record, b₁.sol), b₂.record, b₂.sol)) =
      some ((2, { value := 2, route := [0, 3, 4, 1, 2, 0] }), 2, { value := 2, route := [] }) := by
  decide +kernel

/-- The greedy solution, the root and two of the nodes it returns: the first of them lowers the record to
`2`, and the second one clears the route. -/
theorem sol_cleared : 3 ≤ clearedData.rank ∧ SymmetricOn clearedData.rank clearedData.matrix ∧
    Costs clearedData ∧ ∃ sol₀ root m₁ m₂ b₀,
      getGreedySolution 30 clearedData.matrix clearedData.rank = some sol₀ ∧
      root = ClassicalSolver.transformNode clearedData (.root {}) ∧
      ClassicalSolver.branch clearedData root sol₀.value sol₀ = some b₀ ∧ m₁ ∈ b₀.nodes ∧ m₂ ∈ b₀.nodes ∧
      ¬ Intact clearedData.rank clearedData.matrix (ClassicalSolver.branch clearedData) sol₀.value sol₀
        [root, m₁, m₂] := by
  obtain ⟨hsymm, hle, hgreedy, hruns⟩ := clearedData_facts
  obtain ⟨b₀, hb₀, h⟩ := Option.bind_eq_some_iff.mp hruns
  obtain ⟨m₁, hm₁, h⟩ := Option.bind_eq_some_iff.mp h
  obtain ⟨m₂, hm₂, h⟩ := Option.bind_eq_some_iff.mp h
  obtain ⟨b₁, hb₁, h⟩ := Option.bind_eq_some_iff.mp h
  obtain ⟨b₂, hb₂, h⟩ := Option.map_eq_some_iff.mp h
  obtain ⟨_, hlast⟩ := Prod.mk.inj h
  obtain ⟨hrecord, hsol⟩ := Prod.mk.inj hlast
  refine ⟨by decide, hsymm, .of_le (fun _ _ => if_pos rfl) hle (by norm_num [clearedData, mVal]), _, _, m₁,
    m₂, b₀, hgreedy, rfl, hb₀, List.mem_of_getElem? hm₁, List.mem_of_getElem? hm₂, fun hintact => ?_⟩
  have hshared := ((Shared.start.call hb₀).call hb₁).call hb₂
  have hlow : b₂.record < 3 := by rw [hrecord]; decide +kernel
  obtain ⟨v, l, _, hroute⟩ := (hintact _ _ _ (List.prefix_refl _) hshared hlow).2.closed
  rw [hsol] at hroute
  exact absurd hroute (List.cons_ne_nil _ _).symm

end Optimer.Stsp
