import Optimer.Tsp.AsymmetricBranch

/-! The search of `TspSolver` is exact for every rule that makes progress and keeps the cheaper tours;
rule 3 does, also where the assignment of the root is a tour. -/

namespace Optimer.Tsp
open Finset Transition

variable {data : InitialData} {node new m : Node} {news : List Node} {rule : BranchingRule}
  {fuel : ℕ} {S : Solver Node} {p q : ℕ → ℕ}

/-! ### The contract -/

/-- The tours that the edges of a node allow. -/
def Node.tours (data : InitialData) (node : Node) : Set (ℕ → ℕ) :=
  {q | IsTour data.rank q ∧ node.Fits q}

/-- The bound on the rounds of the loops. -/
def rounds (n : ℕ) : ℕ := (n + 1).factorial + 2 * n + 1

theorem root_ready : (Node.root {}).Ready data where
  edges := ⟨fun _ h => absurd h List.not_mem_nil, .nil, .nil⟩
  excluded _ h := absurd h List.not_mem_nil
  parent _ h := nomatch h

theorem root_fits (h : (Node.root {}).Completes data m) (q : ℕ → ℕ) : m.Fits q :=
  h.fits ⟨fun _ hm => absurd hm List.not_mem_nil, fun _ hm => absurd hm List.not_mem_nil⟩

theorem root_valid (h : (Node.root {}).Completes data m) : m.Valid data :=
  ⟨h.solved, fun parent hp => by rw [h.parent?] at hp; exact nomatch hp⟩

/-- What a call of `branch` has to do for the search to be exact on nodes with `P`: it drops a node
that is not below the record, works through nodes that keep its tours, or leaves nothing to search
for. -/
inductive Exact (data : InitialData) (P : Node → Prop) (node : Node) (r : ValueType)
    (b : Branched Node) : Prop
  | drop (hle : r ≤ node.data.value) (hrecord : b.record = r) (hnil : b.nodes = [])
  | split {news released : List Node} {sol : Solution} (hsplit : Splits data node news)
      (hchild : ∀ new ∈ news, ∀ m, new.Completes data m → m.Valid data → P m)
      (hkeeps : ∀ q ∈ node.tours data, Keeps data news q)
      (hproc : Processed data news { record := r, sol, nodes := [], released } b)
  | done (hrecord : b.record = r ∨
        b.record < r ∧ ∃ p, IsTour data.rank p ∧ cost data.rank data.matrix p = b.record)
      (hle : ∀ p, IsTour data.rank p → b.record ≤ cost data.rank data.matrix p) (hnil : b.nodes = [])

/-- A search is exact if its calls of `branch` are, on a set of valid nodes with the root. -/
theorem exact_contract (hc : Costs data)
    (hinit : (Node.root {}).Completes data S.initialNode)
    (P : Node → Prop) (hvalid : ∀ node, P node → node.Valid data) (hroot : P S.initialNode)
    (hexact : ∀ node, P node → ∀ r sol, Exact data P node r (S.branch node r sol)) :
    S.Contract (cost data.rank data.matrix) (Node.tours data) := by
  have hmem : ∀ node, P node → ∀ r sol, ∀ m ∈ (S.branch node r sol).nodes,
      P m ∧ (m.unmarked data).card < (node.unmarked data).card := by
    intro node hP r sol m hm
    cases hexact node hP r sol with
    | drop _ _ hnil => exact absurd hm (hnil ▸ List.not_mem_nil)
    | done _ _ hnil => exact absurd hm (hnil ▸ List.not_mem_nil)
    | split hsplit hchild _ hproc =>
      obtain ⟨new, hnew, hcomp, hopen⟩ := (hproc.nodes m hm).resolve_left List.not_mem_nil
      exact ⟨hchild new hnew m hcomp ⟨hcomp.solved, fun _ _ => hopen⟩, hsplit.unmarked_lt hnew hcomp⟩
  have hP : ∀ {n}, S.Explored n → P n := by
    intro n hn
    induction hn with
    | root => exact hroot
    | child _ hm ih => exact (hmem _ ih _ _ _ hm).1
  have htours : ∀ p, IsTour data.rank p → p ∈ S.initialNode.tours data :=
    fun p hp => ⟨hp, root_fits hinit p⟩
  refine ⟨fun {n} hx r sol => ?_, fun {n} hx r sol q hq hlt => ?_, ?_⟩
  · cases hexact n (hP hx) r sol with
    | drop _ hrecord _ => exact .inl hrecord
    | split _ _ _ hproc => exact hproc.record.imp id fun ⟨hr, p, hp, heq⟩ => ⟨hr, p, htours p hp, heq⟩
    | done hrecord _ _ => exact hrecord.imp id fun ⟨hr, p, hp, heq⟩ => ⟨hr, p, htours p hp, heq⟩
  · cases hexact n (hP hx) r sol with
    | drop hle hrecord _ =>
      have hval := (hvalid n (hP hx)).solved.value_le hc hq.1.perm hq.2
      rw [hrecord] at hlt
      exact absurd (hlt.trans_le hle) (not_lt.mpr hval)
    | done _ hle _ => exact absurd (hle q hq.1) (not_le.mpr hlt)
    | split _ _ hkeeps hproc =>
      rcases hkeeps q hq with ⟨new, hnew, hfit⟩ | ⟨new, hnew, htour⟩
      · obtain ⟨m, hcomp, hm, _⟩ := hproc.covered new hnew
        have hfit := hcomp.fits hfit
        refine ⟨m, hm.resolve_left fun hle => ?_, hq.1, hfit⟩
        exact absurd (hle.trans (hcomp.solved.value_le hc hq.1.perm hfit)) (not_le.mpr hlt)
      · obtain ⟨m, hcomp, _, hrec⟩ := hproc.covered new hnew
        obtain ⟨hm, hle⟩ := htour m hcomp
        exact absurd ((hrec hm).trans hle) (not_le.mpr hlt)
  · refine Subrelation.wf (r := InvImage (· < ·) fun n : Node => (n.unmarked data).card) ?_
      (InvImage.wf _ wellFounded_lt)
    rintro m n ⟨hx, r, sol, hm⟩
    exact (hmem n (hP hx) r sol m hm).2

/-- What `init` and `get_initial_node` set up. -/
structure Started (fuel : ℕ) (data : InitialData) (rule : BranchingRule) (S : Solver Node) : Prop where
  rank : S.rank = data.rank
  sol : Proper data.rank data.matrix S.initialSolution
  root : (Node.root {}).Completes data S.initialNode
  branch : ∀ node r sol, S.branch node r sol = (branch fuel data rule node r sol).getD
    { record := r, sol, nodes := [node], released := [] }

theorem tspSolver_spec (hn : 2 ≤ data.rank) (hc : Costs data) (hf : rounds data.rank < fuel)
    (rule : BranchingRule) : ∃ S, tspSolver fuel data rule = some S ∧ Started fuel data rule S := by
  have hf1 : (data.rank + 1).factorial < fuel := by
    unfold rounds at hf
    omega
  have hf2 : 2 * data.rank + 1 < fuel := by
    unfold rounds at hf
    omega
  obtain ⟨sol, hsol, hproper⟩ := getGreedySolution_spec hc hn hf1
  obtain ⟨value, ap, hroot, hsolved⟩ := root_ready.transformNode hc hf2
  refine ⟨_, by simp only [tspSolver, hsol, hroot]; rfl, rfl, hproper, ⟨⟨fuel, hf2, hroot⟩, hsolved⟩, ?_⟩
  exact fun _ _ _ => rfl

namespace Started

variable (h : Started fuel data rule S)

include h

theorem mem_root_tours : q ∈ S.initialNode.tours data ↔ IsTour data.rank q :=
  and_iff_left (root_fits h.root q)

/-- `branch` on a node below the record. -/
theorem branch_spec (hn : 2 ≤ data.rank) (hc : Costs data) (hf : rounds data.rank < fuel)
    {released : List Node} (hnodes : rule.nodes fuel data node = some (news, released))
    (hsplit : Splits data node news) (r : ValueType) (sol : Solution) (hlt : node.data.value < r) :
    Processed data news { record := r, sol, nodes := [], released } (S.branch node r sol) := by
  have hf2 : 2 * data.rank + 1 < fuel := by
    unfold rounds at hf
    omega
  obtain ⟨b', hrun, hproc⟩ := branchChildren_spec hn hc hf2 hsplit.ready
    { record := r, sol, nodes := [], released }
  have hb : S.branch node r sol = b' := by
    rw [h.branch, Tsp.branch, if_neg (not_le.mpr hlt), hnodes]
    simp [hrun]
  rwa [hb]

/-- A node at the record or above it is dropped. -/
theorem branch_of_le (r : ValueType) (sol : Solution) (hle : r ≤ node.data.value) :
    S.branch node r sol = { record := r, sol, nodes := [], released := [] } := by
  rw [h.branch, Tsp.branch, if_pos hle]
  rfl

/-- A call of `branch` is exact for a rule that makes progress and keeps the tours. -/
theorem exact (hn : 2 ≤ data.rank) (hc : Costs data) (hf : rounds data.rank < fuel) {P : Node → Prop}
    {released : List Node} (hnodes : rule.nodes fuel data node = some (news, released))
    (hsplit : Splits data node news)
    (hchild : ∀ new ∈ news, ∀ m, new.Completes data m → m.Valid data → P m)
    (hkeeps : ∀ q ∈ node.tours data, Keeps data news q) (r : ValueType) (sol : Solution) :
    Exact data P node r (S.branch node r sol) := by
  by_cases hlt : node.data.value < r
  · exact .split hsplit hchild hkeeps (h.branch_spec hn hc hf hnodes hsplit r sol hlt)
  · have hle := not_lt.mp hlt
    rw [h.branch_of_le r sol hle]
    exact .drop hle rfl rfl

/-- The least cost of a tour is what a search has to return. -/
theorem optimal_iff {v : ValueType} : S.Optimal (cost data.rank data.matrix) (Node.tours data)
    S.initialSolution.value v ↔ IsOptimum data.rank data.matrix v := by
  obtain ⟨p, hp, heq⟩ := h.sol.exists_tour
  have htours : S.initialNode.tours data = {p | IsTour data.rank p} :=
    Set.ext fun q => h.mem_root_tours
  have hmem : S.initialSolution.value ∈ cost data.rank data.matrix '' {p | IsTour data.rank p} :=
    ⟨p, hp, heq⟩
  rw [Solver.Optimal, htours, Set.insert_eq_of_mem hmem, IsOptimum]

/-- A search that meets the contract returns the least cost of a tour. -/
theorem optimum (C : S.Contract (cost data.rank data.matrix) (Node.tours data)) (hn : 3 ≤ data.rank)
    (hc : Costs data) : ∃ v, IsOptimum data.rank data.matrix v ∧
      (∀ c, TotallyCorrect (Search.Step S c) (serialStart S mVal) (Search.Returns v)) ∧
      TotallyCorrect (Search.Step S .lifo) (simpleStart S mVal) (Search.Returns v) := by
  have hlt := h.sol.lt hc (Nat.le_of_succ_le hn)
  have hrank : S.rank > minRankValue := h.rank ▸ hn
  have hsimple := simple_correct C hrank mVal
  have hserial := fun c => serial_correct C hrank c mVal
  rw [min_eq_right hlt.le] at hserial
  obtain ⟨_, _, _, v, hv, _⟩ := hsimple.exists_end
  exact ⟨v, h.optimal_iff.mp hv, fun c => (hserial c).mono fun st ⟨w, hw, hr⟩ => hv.unique hw ▸ hr,
    hsimple.mono fun st ⟨w, hw, hr⟩ => hv.unique hw ▸ hr⟩

end Started

/-! ### The edges of a subtour -/

/-- Only the root can be a tour, and it has no marks. -/
theorem Node.Valid.unmarked_of_tour (h : node.Valid data) (htour : IsTour data.rank node.primal)
    (e : Edge) : node.edgeMap e = false := by
  cases node with
  | root d => rfl
  | child parent d => exact absurd htour (h.open_ parent rfl)

/-- The vertices of a subtour whose edge has no mark, in the order of `select_move`. -/
structure Subtour (data : InitialData) (node : Node) (vs : List ℕ) : Prop where
  nodup : vs.Nodup
  lt : ∀ v ∈ vs, v < data.rank
  unmarked : ∀ v ∈ vs, node.edgeMap (v, node.primal v) = false
  keeps : ∀ q ∈ node.tours data, (∀ v ∈ vs, q v = node.primal v) → ∀ v < data.rank, q v = node.primal v
  all : IsTour data.rank node.primal → (∀ e, node.edgeMap e = false) → ∀ v < data.rank, v ∈ vs

theorem selectMove_spec (hc : Costs data) (hn : 2 ≤ data.rank) (h : node.Valid data)
    (hf : data.rank < fuel) :
    ∃ vs, selectMove fuel data node = some (vs.map node.edge) ∧ Subtour data node vs := by
  have hclean : ∀ q ∈ node.tours data, ∀ v < data.rank,
      node.primal v ≠ v ∧ node.edge v ∉ node.excludedPoints := fun q hq v hv =>
    h.solved.clean hc hq.1.perm hq.2 (hc.cost_lt hq.1.perm fun i hi => hq.1.ne hn hi) hv
  obtain ⟨r, hrun, hr⟩ := mincardSubtour_spec h.solved.perm data.rank_lt hf
  rcases hr with ⟨rfl, hfix⟩ | ⟨v, hv, _, rfl⟩
  · refine ⟨[], by simp [selectMove, hrun], .nil, fun _ hm => absurd hm List.not_mem_nil,
      fun _ hm => absurd hm List.not_mem_nil, fun q hq _ v hv => ?_, fun ht _ v hv => ?_⟩
    · exact absurd (hfix v hv) (hclean q hq v hv).1
    · exact absurd (hfix v hv) (ht.ne hn hv)
  · have hfull : ∀ q, IsTour data.rank q → (∀ x ∈ orbit node.primal v, q x = node.primal x) →
        ∀ x < data.rank, x ∈ orbit node.primal v := fun q hq horbit x hx => by
      have hall := hq.eq_range (s := (orbit node.primal v).toFinset)
        (fun x hx => mem_range.mpr (h.solved.perm.orbit_lt hv (List.mem_toFinset.mp hx)))
        ⟨v, List.mem_toFinset.mpr (h.solved.perm.self_mem_orbit hv)⟩ fun x hx => by
          have hx := List.mem_toFinset.mp hx
          rw [horbit x hx]
          exact List.mem_toFinset.mpr (h.solved.perm.orbit_closed hv hx)
      exact List.mem_toFinset.mp (hall ▸ mem_range.mpr hx)
    refine ⟨(orbit node.primal v).filter fun x => !node.edgeMap (node.edge x), ?_,
      (orbit_nodup _ v).filter _, fun x hx => ?_, fun x hx => ?_, fun q hq hall => ?_,
      fun ht hmark x hx => ?_⟩
    · simp only [selectMove, hrun, Option.bind_eq_bind, Option.bind_some, orbit_edges,
        List.filter_map]
      rfl
    · exact h.solved.perm.orbit_lt hv (List.mem_of_mem_filter hx)
    · simpa using (List.mem_filter.mp hx).2
    · have horbit : ∀ x ∈ orbit node.primal v, q x = node.primal x := fun x hx => by
        by_cases hmark : node.edgeMap (node.edge x) = true
        · refine hq.2.included _ ((Node.edgeMap_eq_true.mp hmark).resolve_right ?_)
          exact (hclean q hq x (h.solved.perm.orbit_lt hv hx)).2
        · exact hall x (List.mem_filter.mpr ⟨hx, by simpa using hmark⟩)
      exact fun x hx => horbit x (hfull q hq.1 horbit x hx)
    · exact List.mem_filter.mpr ⟨hfull _ ht (fun _ _ => rfl) x hx, by simp [hmark]⟩

/-- A tour leaves a node that is no tour at one of the vertices. -/
theorem Subtour.differs {vs : List ℕ} (hs : Subtour data node vs) (hopen : ¬ IsTour data.rank node.primal)
    (hn : 2 ≤ data.rank) (hq : q ∈ node.tours data) : ∃ v ∈ vs, q v ≠ node.primal v := by
  by_contra hall
  push Not at hall
  have heq := hs.keeps q hq hall
  exact hopen (hq.1.congr (fun v hv => (heq v hv).symm) (by omega))

/-! ### Rule 3 -/

theorem branchingRule3_spec (hc : Costs data) (hn : 2 ≤ data.rank) (h : node.Valid data)
    (hf : data.rank < fuel) : ∃ vs, Subtour data node vs ∧
      BranchingRule.rule3.nodes fuel data node = some (rule3Nodes node [] (vs.map node.edge), []) := by
  obtain ⟨vs, hrun, hs⟩ := selectMove_spec hc hn h hf
  exact ⟨vs, hs, by simp [BranchingRule.nodes, branchingRule3, hrun]⟩

theorem Subtour.moves {vs : List ℕ} (h : Subtour data node vs) : Moves data node vs :=
  ⟨h.nodup, h.lt, h.unmarked⟩

/-- The first element of a list without a property. -/
theorem exists_first {α : Type*} {P : α → Prop} {l : List α} (h : ∃ x ∈ l, ¬ P x) :
    ∃ pre x post, l = pre ++ x :: post ∧ (∀ y ∈ pre, P y) ∧ ¬ P x := by
  classical
  obtain ⟨v, hv, hvne⟩ := h
  have hsome : (l.find? fun v => decide (¬ P v)).isSome :=
    List.find?_isSome.mpr ⟨v, hv, decide_eq_true hvne⟩
  obtain ⟨x, hx⟩ := Option.isSome_iff_exists.mp hsome
  obtain ⟨hx, pre, post, hl, hpre⟩ := List.find?_eq_some_iff_append.mp hx
  exact ⟨pre, x, post, hl, by simpa using hpre, by simpa using hx⟩

/-- The first vertex where a tour leaves the assignment gives the new node that keeps the tour. -/
theorem rule3_fits {vs : List ℕ} (hq : node.Fits q) (hne : ∃ v ∈ vs, q v ≠ node.primal v) :
    ∃ new ∈ rule3Nodes node [] (vs.map node.edge), new.Fits q := by
  obtain ⟨pre, x, post, rfl, hpre, hx⟩ := exists_first hne
  refine ⟨_, mem_rule3Nodes_map.mpr ⟨pre, x, post, rfl, rfl⟩, fun e he => ?_, fun e he => ?_⟩
  · rcases List.mem_append.mp he with he | he
    · obtain ⟨y, hy, rfl⟩ := List.mem_map.mp he
      exact hpre y hy
    · exact hq.included e he
  · rcases List.mem_cons.mp he with rfl | he
    · exact hx
    · exact hq.excluded e he

/-- A permutation that agrees with another one at all vertices but one is that permutation. -/
theorem IsPerm.eq_of_eq_off {n : ℕ} (hp : IsPerm n p) (hq : IsPerm n q) (x : ℕ)
    (h : ∀ y < n, y ≠ x → p y = q y) : ∀ y < n, p y = q y := by
  intro y hy
  by_cases hyx : y = x
  · obtain ⟨z, hz, heq⟩ := hp.surj (hq.lt hy)
    by_cases hzy : z = y
    · exact hzy ▸ heq
    · exact absurd (hq.inj hz hy ((h z hz (hyx ▸ hzy)).symm.trans heq)) hzy
  · exact h y hy hyx

/-- Where the assignment of the root is a tour, the last new node gives that tour back: all its edges
but one are included, and the last one, although excluded, is priced with its original cost. -/
theorem rule3_last {vs : List ℕ} (hn : 2 ≤ data.rank)
    (hall : ∀ v < data.rank, v ∈ vs) (htour : IsTour data.rank node.primal) :
    ∃ new ∈ rule3Nodes node [] (vs.map node.edge), ∀ m, new.Completes data m →
      IsTour data.rank m.primal ∧ m.data.value = cost data.rank data.matrix node.primal := by
  have hne : vs ≠ [] := List.ne_nil_of_mem (hall 0 (by omega))
  refine ⟨newNode node (vs.dropLast.map node.edge) [node.edge (vs.getLast hne)],
    mem_rule3Nodes_map.mpr ⟨vs.dropLast, vs.getLast hne, [], ?_, rfl⟩, fun m hm => ?_⟩
  · rw [List.dropLast_append_getLast]
  have heq : ∀ y < data.rank, m.primal y = node.primal y := by
    refine hm.solved.perm.eq_of_eq_off htour.perm (vs.getLast hne) fun y hy hyx => ?_
    have hmem : y ∈ vs.dropLast ++ [vs.getLast hne] := by
      rw [List.dropLast_append_getLast]
      exact hall y hy
    have hmem := (List.mem_append.mp hmem).resolve_right (by simpa using hyx)
    refine hm.solved.included (node.edge y) ?_
    rw [hm.includedPoints]
    exact List.mem_append_left _ (List.mem_map_of_mem hmem)
  refine ⟨htour.congr heq (by omega), ?_⟩
  rw [hm.solved.value]
  exact cost_congr heq

/-- Rule 3 loses no tour, at the root either. -/
theorem rule3_keeps {vs : List ℕ} (hn : 2 ≤ data.rank) (h : node.Valid data)
    (hs : Subtour data node vs) (hq : q ∈ node.tours data) :
    Keeps data (rule3Nodes node [] (vs.map node.edge)) q := by
  by_cases hne : ∃ v ∈ vs, q v ≠ node.primal v
  · exact .inl (rule3_fits hq.2 hne)
  have htour : IsTour data.rank node.primal := not_not.mp fun hopen => hne (hs.differs hopen hn hq)
  push Not at hne
  have heq := hs.keeps q hq hne
  obtain ⟨new, hnew, hlast⟩ := rule3_last hn (hs.all htour (h.unmarked_of_tour htour)) htour
  refine .inr ⟨new, hnew, fun m hm => (hlast m hm).imp id fun hval => ?_⟩
  rw [hval, cost_congr heq]

/-- The whole search with rule 3: each run of either loop and container ends with the least cost of
a tour. -/
theorem rule3_exact (hc : Costs data) (hn : 3 ≤ data.rank) (hf : rounds data.rank < fuel) :
    ∃ S, tspSolver fuel data .rule3 = some S ∧ ∃ v, IsOptimum data.rank data.matrix v ∧
      (∀ c, TotallyCorrect (Search.Step S c) (serialStart S mVal) (Search.Returns v)) ∧
      TotallyCorrect (Search.Step S .lifo) (simpleStart S mVal) (Search.Returns v) := by
  have hn2 : 2 ≤ data.rank := Nat.le_of_succ_le hn
  have hrank : data.rank < fuel := by
    unfold rounds at hf
    omega
  obtain ⟨S, hS, hstart⟩ := tspSolver_spec hn2 hc hf .rule3
  refine ⟨S, hS, hstart.optimum (exact_contract hc hstart.root (Node.Valid data) (fun _ h => h)
    (root_valid hstart.root) fun node h r sol => ?_) hn hc⟩
  obtain ⟨vs, hs, hrun⟩ := branchingRule3_spec hc hn2 h hrank
  exact hstart.exact hn2 hc hf hrun ((hs.moves.places3 h.solved.formed).splits h.solved) (fun _ _ _ _ hm => hm)
    (fun q hq => rule3_keeps hn2 h hs hq) r sol

/-- The default rule is exact: for all costs any `n` of which are less than `M_VAL`, each run of
`SerialBNB` ends, with either container, with the least cost of a tour. -/
theorem serial_tsp_optimal (data : InitialData) (hn : 3 ≤ data.rank) (hc : Costs data)
    (hr : data.rule = .rule3) : ∃ fuel₀, ∀ fuel > fuel₀, ∃ S, tspSolver fuel data data.rule = some S ∧
      ∃ v, IsOptimum data.rank data.matrix v ∧
        ∀ c, TotallyCorrect (Search.Step S c) (serialStart S mVal) (Search.Returns v) := by
  refine ⟨rounds data.rank, fun fuel hf => ?_⟩
  obtain ⟨S, hS, v, hv, hserial, _⟩ := rule3_exact hc hn hf
  exact ⟨S, hr ▸ hS, v, hv, hserial⟩

/-- Three vertices, with arcs that cost `1`. -/
def unitData : InitialData where
  matrix i j := if i = j then mVal else 1
  rank := 3
  size_lt := size_lt_three

theorem unitData_costs : Costs unitData :=
  .of_le (x := 1) (fun _ _ => if_pos rfl)
    (fun _ _ _ _ hij => by simp only [unitData, if_neg hij]; decide) (by norm_num [unitData, mVal])

theorem serial_tsp_optimal_unit : ∃ fuel₀, ∀ fuel > fuel₀, ∃ S,
    tspSolver fuel unitData unitData.rule = some S ∧ ∃ v, IsOptimum 3 unitData.matrix v ∧
      ∀ c, TotallyCorrect (Search.Step S c) (serialStart S mVal) (Search.Returns v) :=
  serial_tsp_optimal unitData (by decide) unitData_costs rfl

end Optimer.Tsp
