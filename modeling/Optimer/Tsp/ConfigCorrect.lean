import Optimer.Tsp.AsymmetricMemory
import Optimer.Tsp.Config
import Optimer.Tsp.DataLoaderCorrect

/-! From the texts of a config file and a problem file to the optimum: whichever engine a config file asks for, with
any branching rule but 2 and 4 the program finds the same value. -/

namespace Optimer.Tsp.Config
open Transition Ini

variable {n maxRank d : ℕ} {a : ℕ → ℕ → ℤ} {m : List ValueType} {ini : IniFile} {container : Container}
  {scheduler : Option Scheduler} {record v : ValueType} {distance : Point → Point → ValueType}
  {files : List Char → List Char} {text : List Char}

/-! ### The settings -/

/-- The value of `container_type`. -/
def containerType : Container → List Char
  | .lifo => "lifo".toList
  | .priority => "priority".toList

def valuationType (ini : IniFile) : List Char := (ini.get general).get "valuation_type".toList

def schedulerType (ini : IniFile) : List Char := (ini.get "scheduler".toList).get "type".toList

/-- The engine that a config file asks for. -/
inductive Engine (ini : IniFile) : Option Scheduler → Prop
  | serial (h : valuationType ini = "serial".toList) : Engine ini none
  | giving {params : GivingSchedulerParams} (h : valuationType ini = "parallel-lock".toList)
      (ht : schedulerType ini = "giving".toList)
      (hp : getGivingSchedulerParams (ini.get "scheduler".toList) = .ok params) : Engine ini (some (.giving params))
  | requesting {params : RequestingSchedulerParams} (h : valuationType ini = "parallel-lock".toList)
      (ht : schedulerType ini = "requesting".toList)
      (hp : getRequestingSchedulerParams (ini.get "scheduler".toList) = .ok params) :
      Engine ini (some (.requesting params))

/-- The settings of a config file, with counts that `ParallelBNB` works with. -/
structure Settings (ini : IniFile) (maxRank : ℕ) (container : Container) (scheduler : Option Scheduler)
    (record : ValueType) : Prop where
  size : problemSize ini = some maxRank
  container : (ini.get general).get "container_type".toList = containerType container
  engine : Engine ini scheduler
  record : initialRecord ini = some record
  rule : ∃ rule, branchingRule (ini.get "tsp".toList) = some rule ∧ rule ≠ some 2 ∧ rule ≠ some 4
  counts : ∀ sch, scheduler = some sch → 1 ≤ sch.numThreads.toNat ∧ 1 ≤ sch.numMinimumNodes.toNat ∧
    sch.numThreads.toNat * sch.numMinimumNodes.toNat < 2 ^ 32

/-- The dispatch on the three kinds of settings. -/
theorem processContainerType_eq (h : Settings ini maxRank container scheduler record) :
    processContainerType distance files ini = solve distance files ini container scheduler := by
  have hvaluation : processValuationType distance files ini container =
    solve distance files ini container scheduler := by
    have hne : "parallel-lock".toList ≠ "serial".toList := by decide
    have hne' : "requesting".toList ≠ "giving".toList := by decide
    cases h.engine with
    | serial hv => exact if_pos hv
    | giving hv ht hp =>
      refine (if_neg (hv.trans_ne hne)).trans ((if_pos hv).trans ?_)
      refine (if_pos ht).trans ?_
      rw [hp]
      rfl
    | requesting hv ht hp =>
      refine (if_neg (hv.trans_ne hne)).trans ((if_pos hv).trans ?_)
      refine (if_neg (ht.trans_ne hne')).trans ((if_pos ht).trans ?_)
      rw [hp]
      rfl
  rw [← hvaluation]
  have hne : "priority".toList ≠ "lifo".toList := by decide
  cases container with
  | lifo => exact if_pos h.container
  | priority => exact (if_neg (h.container.trans_ne hne)).trans (if_pos h.container)

/-! ### The problem -/

theorem load_block (T : TspLibText n a) (hn : n * n ≤ maxSize)
    (hrange : ∀ i j, i < n → j < n → (Binary64.nearest (a i j)).isSome)
    (hd : d = if maxRank ≠ 0 ∧ maxRank < n then maxRank else n) (distance : Point → Point → ValueType) :
    ∃ m, loadTsplibProblem distance T.text maxRank = .ok (m, d) ∧
      Cells d (loaded Binary64.ofInt a) (fun _ _ => True) m := by
  obtain ⟨m, hm, C⟩ := load_cells T distance hn hn hrange
  rw [loadTsplibProblem, loadTsplibProblemWithin, hm, hd]
  by_cases hk : maxRank ≠ 0 ∧ maxRank < n
  · obtain ⟨m₀, m', hm₀, hm', C'⟩ := shrink_cells C hn hn hk.2
    rw [if_pos hk]
    exact ⟨m', by simp [hk, hm₀, hm', bind, Except.bind, pure, Except.pure], C'⟩
  · rw [if_neg hk]
    exact ⟨m, by simp only [bind, Except.bind, if_neg hk]; rfl, C⟩

/-- Costs and optimum only depend on the matrix up to the rank. -/
theorem Costs.congr {data data' : InitialData} (hrank : data'.rank = data.rank)
    (h : ∀ i < data.rank, ∀ j < data.rank, data'.matrix i j = data.matrix i j) (hc : Costs data) : Costs data' where
  diag i hi := by
    rw [hrank] at hi
    rw [h i hi i hi, hc.diag i hi]
  nonneg i hi j hj hij := by
    rw [hrank] at hi hj
    rw [h i hi j hj]
    exact hc.nonneg i hi j hj hij
  small s hs hcard := by
    rw [hrank] at hs hcard
    rw [Finset.sum_congr rfl fun e he => ?_]
    · exact hc.small s hs hcard
    · obtain ⟨h1, h2, _⟩ := Finset.mem_offDiag.mp (hs he)
      exact h _ (Finset.mem_range.mp h1) _ (Finset.mem_range.mp h2)

theorem isOptimum_congr {f g : ℕ → ℕ → ValueType} (h : ∀ i < d, ∀ j < d, f i j = g i j) (hv : IsOptimum d g v) :
    IsOptimum d f v := by
  have himage : cost d f '' {p | IsTour d p} = cost d g '' {p | IsTour d p} := by
    refine Set.image_congr fun p hp => Finset.sum_congr rfl fun i hi => ?_
    have hlt := Finset.mem_range.mp hi
    exact h i hlt _ (hp.perm.lt hlt)
  rw [IsOptimum, himage]
  exact hv

/-! ### The search -/

/-- The engine of a job, on the nodes of its trees, returns the least cost of a tour, or the record it begins with
where that is less; `SerialBNB` also when a signal stops it, then with something in between. -/
def Job.Finds (job : Job) (S : Solver Node) (v : ValueType) : Prop :=
  match job.scheduler with
  | none => TotallyCorrect (MemSearch.Interruptible S Node.path job.container)
      (MemSearch.start S S.initialNode.data job.record) (SerialReturns job.record v)
  | some sch => ∀ st, Reaches (Parallel.MemUninterrupted S Node.path sch job.container)
      (Parallel.memStart S sch S.initialNode.data job.record) st →
      TotallyCorrect (Parallel.Coarse S Node.path sch job.container) st (Parallel.MemReturns (min job.record v))

theorem rule_free {data : InitialData} (h2 : data.branchingRule ≠ some 2) (h4 : data.branchingRule ≠ some 4) :
    data.rule.Free := by
  unfold InitialData.rule
  split
  · trivial
  · next h => exact absurd h h2
  · trivial
  · next h => exact absurd h h4
  · trivial
  · trivial

/-- All config files with the same problem file and size, whatever container, engine, counts, record and branching
rule but 2 and 4 they ask for, make the program search and find one value: the optimum, or the record where that is
less. -/
theorem config_optimal (T : TspLibText n a) (hn : n * n ≤ maxSize)
    (hrange : ∀ i j, i < n → j < n → (Binary64.nearest (a i j)).isSome)
    (hd : d = if maxRank ≠ 0 ∧ maxRank < n then maxRank else n) (h3 : 3 ≤ d) (hsize : d * d < 2 ^ 64)
    (hc : Costs { matrix := loaded Binary64.ofInt a, rank := d, size_lt := hsize }) :
    ∃ v, IsOptimum d (loaded Binary64.ofInt a) v ∧ ∀ distance files text container scheduler record,
      files (problemPath (.ofText text)) = T.text →
      Settings (.ofText text) maxRank container scheduler record →
      ∃ job data, solveText distance files text = .ok job ∧ job.container = container ∧
        job.scheduler = scheduler ∧ job.record = record ∧ job.data = some data ∧
        ∃ fuel₀, ∀ fuel > fuel₀, ∃ S, tspSolver fuel data data.rule = some S ∧ job.Finds S v := by
  obtain ⟨v, hv⟩ := exists_optimum d (loaded Binary64.ofInt a)
  refine ⟨v, hv, fun distance files text container scheduler record hfile h => ?_⟩
  obtain ⟨m, hm, C⟩ := load_block T hn hrange hd distance
  obtain ⟨rule, hparam, h2, h4⟩ := h.rule
  let job : Job := ⟨container, scheduler, m, d, (IniFile.ofText text).get "tsp".toList, record⟩
  let data : InitialData :=
    { matrix := fun i j => m.getD (i * d + j) 0
      rank := d
      size_lt := hsize
      branchingRule := rule }
  have hjob : solveText distance files text = .ok job := by
    rw [solveText, processContainerType_eq h, solve, h.size]
    simp only [hfile, hm, h.record]
    rfl
  have hdata : job.data = some data := by
    rw [Job.data, dif_pos ⟨C.length, hsize⟩]
    exact congrArg (Option.map _) hparam
  have hcell : ∀ i < d, ∀ j < d, data.matrix i j = loaded Binary64.ofInt a i j := fun i hi j hj => by
    show m.getD (i * d + j) 0 = _
    rw [List.getD_eq_getElem?_getD, C.cell i j hi hj trivial]
    rfl
  have hfree : data.rule.Free := rule_free h2 h4
  refine ⟨job, data, hjob, rfl, rfl, rfl, hdata, rounds d, fun fuel hf => ?_⟩
  have hcosts : Costs data := by
    refine Costs.congr ?_ ?_ hc
    · rfl
    · exact hcell
  have hopt : IsOptimum data.rank data.matrix v := isOptimum_congr (fun i hi j hj => hcell i hi j hj) hv
  obtain ⟨S, hS, hruns⟩ := memory_optimal data.rule h3 hcosts hopt hf
  have hfinds := hruns record container
  refine ⟨S, hS, ?_⟩
  cases scheduler with
  | none => exact hfinds.serial fun _ node _ _ _ _ => hfree.safe fuel data node
  | some sch =>
    obtain ⟨hT, hmin, hprod⟩ := h.counts sch rfl
    exact hfinds.parallel sch hT hmin hprod fun _ node _ _ _ _ => hfree.safe fuel data node

/-! ### A config file -/

def parallelText : List Char :=
  ("[general]\nproblem_path = zeros.tsp\ncontainer_type = priority\nvaluation_type = parallel-lock\n" ++
    "[scheduler]\ntype = requesting\nnum_threads = 0x2\nnum_minimum_nodes = 10\n" ++
    "[tsp]\nbranching_rule = 5\n").toList

theorem parallelText_get : ([(general, "problem_size".toList), (general, "record".toList),
      (general, "container_type".toList), (general, "valuation_type".toList), ("scheduler".toList, "type".toList),
      ("scheduler".toList, "num_threads".toList), ("scheduler".toList, "num_minimum_nodes".toList),
      ("tsp".toList, "branching_rule".toList)].map fun q => (IniFile.ofText parallelText).get q.1 q.2) =
    [none, none, some "priority".toList, some "parallel-lock".toList, some "requesting".toList, some "0x2".toList,
      some "10".toList, some "5".toList] := by
  decide +kernel

theorem parallelText_settings : Settings (.ofText parallelText) 0 .priority
    (some (.requesting ⟨2, 10⟩)) mVal := by
  have hget := parallelText_get
  generalize IniFile.ofText parallelText = ini at *
  simp only [List.map_cons, List.cons.injEq] at hget
  obtain ⟨hsize, hrecord, hcontainer, hvaluation, htype, hthreads, hnodes, hrule, _⟩ := hget
  have hparams : getRequestingSchedulerParams (ini.get "scheduler".toList) = .ok ⟨2, 10⟩ := by
    rw [getRequestingSchedulerParams, IniSection.get_of_some hthreads, IniSection.get_of_some hnodes]
    rfl
  have hengine : Engine ini (some (.requesting ⟨2, 10⟩)) :=
    .requesting (IniSection.get_of_some hvaluation) (IniSection.get_of_some htype) hparams
  refine ⟨?_, IniSection.get_of_some hcontainer, hengine, ?_, ⟨some 5, ?_, ?_⟩, ?_⟩
  · rw [problemSize, IniSection.get_of_none hsize]
    decide +kernel
  · rw [initialRecord, IniSection.get_of_none hrecord]
    decide +kernel
  · rw [branchingRule, hrule]
    decide +kernel
  · decide
  · rintro sch ⟨⟩
    decide

theorem zero_cell {i j : ℕ} (hij : i ≠ j) : loaded Binary64.ofInt (fun _ _ => 0) i j = 0 := by
  rw [loaded, if_neg hij]
  exact Binary64.ofInt_eq_self (z := 0) (by decide)

theorem zero_costs : Costs { matrix := loaded Binary64.ofInt fun _ _ => 0, rank := 3, size_lt := by decide } := by
  refine Costs.of_le (fun i _ => if_pos rfl) (fun i _ j _ hij => ?_) (x := 0) ?_
  · exact ⟨(zero_cell hij).ge, (zero_cell hij).le⟩
  · rw [smul_zero]
    decide

theorem config_optimal_zeros : ∃ v, IsOptimum 3 (loaded Binary64.ofInt fun _ _ => 0) v ∧
    ∃ job data, solveText (fun _ _ => 0) (fun _ => (zeroText 3).text) parallelText = .ok job ∧
      job.container = .priority ∧ job.record = mVal ∧ job.data = some data ∧
      ∃ fuel S, tspSolver fuel data data.rule = some S ∧ job.Finds S v := by
  have hrange : (Binary64.nearest ((0 : ℤ) : ℚ)).isSome := by
    rw [Binary64.nearest_intCast (by decide)]
    rfl
  have hd : 3 = if 0 ≠ 0 ∧ 0 < 3 then 0 else 3 := by decide
  obtain ⟨v, hv, hrun⟩ :=
    config_optimal (zeroText 3) (by decide) (fun _ _ _ _ => hrange) hd (by decide) (by decide) zero_costs
  obtain ⟨job, data, hjob, hcontainer, _, hrecord, hdata, fuel₀, hfuel⟩ :=
    hrun (fun _ _ => 0) (fun _ => (zeroText 3).text) parallelText _ _ _ rfl parallelText_settings
  obtain ⟨S, hS, hfinds⟩ := hfuel _ (Nat.lt_succ_self fuel₀)
  exact ⟨v, hv, job, data, hjob, hcontainer, hrecord, hdata, _, S, hS, hfinds⟩

end Optimer.Tsp.Config
