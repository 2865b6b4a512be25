import Optimer.Lib.Transition
import Optimer.Lib.Linked
import Optimer.Lib.Loop
import Optimer.Lib.Assignment
import Optimer.Lib.Binary64
import Optimer.Lib.CText
import Optimer.Common.AlgoString
import Optimer.Common.Allocator
import Optimer.Bnb.Tree
import Optimer.Bnb.TreeRun
import Optimer.Bnb.MTTree
import Optimer.Bnb.Solver
import Optimer.Bnb.Serial
import Optimer.Bnb.Scheduler
import Optimer.Bnb.Parallel
import Optimer.Bnb.ParallelMove
import Optimer.Bnb.ParallelInv
import Optimer.Bnb.Handing
import Optimer.Bnb.ParallelRecord
import Optimer.Bnb.ParallelCorrect
import Optimer.Bnb.Session
import Optimer.Bnb.Interrupt
import Optimer.Tsp.ApSolver
import Optimer.Tsp.ApMatching
import Optimer.Tsp.ApSolverShape
import Optimer.Tsp.ApSolverCorrect
import Optimer.Tsp.Types
import Optimer.Tsp.Tour
import Optimer.Tsp.Greedy
import Optimer.Tsp.Asymmetric
import Optimer.Tsp.AsymmetricNode
import Optimer.Tsp.Subtour
import Optimer.Tsp.RuleShape
import Optimer.Tsp.Reached
import Optimer.Tsp.AsymmetricDouble
import Optimer.Tsp.AsymmetricBranch
import Optimer.Tsp.AsymmetricCorrect
import Optimer.Bnb.Guarded
import Optimer.Tsp.Exclusion
import Optimer.Tsp.EdgeChoice
import Optimer.Tsp.RuleAgreement
import Optimer.Tsp.Branching
import Optimer.Tsp.DataLoader
import Optimer.Tsp.DataLoaderCorrect
import Optimer.Lib.SpanningTree
import Optimer.Tsp.OneTree
import Optimer.Tsp.OneTreeSpec
import Optimer.Tsp.OneTreeCorrect
import Optimer.Tsp.Lagrangean
import Optimer.Tsp.Adjacency
import Optimer.Tsp.LagrangeanBound
import Optimer.Tsp.BuildTour
import Optimer.Tsp.OneTreeShape
import Optimer.Tsp.SymmetricBranch
import Optimer.Tsp.Classical
import Optimer.Tsp.SymmetricSearch
import Optimer.Tsp.ClassicalCorrect
import Optimer.Bnb.Near
import Optimer.Tsp.LagrangeanRounds
import Optimer.Tsp.LagrangeanCorrect
import Optimer.Tsp.HamiltonianCycle
import Optimer.Heuristics.Ant
import Optimer.Heuristics.AntCorrect
import Optimer.Common.IniFile
import Optimer.Tsp.DataLoaderMalformed
import Optimer.Tsp.LagrangeanRecord
import Optimer.Tsp.BestSolution
import Optimer.Tsp.SymmetricNode
import Optimer.Tsp.MincardSubtour
import Optimer.Common.AllocatorRun
import Optimer.Bnb.TreeAllocator
import Optimer.Lib.Matched
import Optimer.Bnb.Ledger
import Optimer.Bnb.SerialInterrupt
import Optimer.Bnb.SerialMemory
import Optimer.Bnb.LedgerState
import Optimer.Bnb.ParallelMemory
import Optimer.Bnb.Renaming
import Optimer.Bnb.LedgerDecodes
import Optimer.Bnb.ParallelMemoryCorrect
import Optimer.Bnb.ParallelInterrupt
import Optimer.Bnb.GuardedMemory
import Optimer.Tsp.AsymmetricMemory
import Optimer.Bnb.NearMemory
import Optimer.Tsp.LagrangeanMemory
import Optimer.Lib.Counter
import Optimer.Bnb.MTCounts
import Optimer.Bnb.MTCountsLedger
import Optimer.Bnb.WordMemory
import Optimer.Bnb.WordMemoryCorrect
import Optimer.Heuristics.Colony
import Optimer.Heuristics.ColonyCorrect
import Optimer.Tools.ConfigGenerator
import Optimer.Tsp.Config
import Optimer.Tsp.ConfigCorrect
