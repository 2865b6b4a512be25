import Mathlib.Algebra.BigOperators.Fin
import Mathlib.Algebra.Order.BigOperators.Group.Multiset
import Mathlib.Data.Fintype.Card
import Optimer.Bnb.Scheduler
import Optimer.Bnb.Serial

/-! `ParallelBNB::solve` with the threads it starts. A step is one atomic read of shared data, one
section under a mutex, or work on a thread's own variables between two of these. -/

namespace Optimer
open Transition

/-- What the threads share: `record_`, the queue and the counter of the scheduler, the interrupt
flag. `created` and `released` record the calls of the search trees. -/
structure Shared (N : Type*) where
  record : ValueType
  queueSets : List N
  counter : UInt32
  interrupted : Bool
  created : Multiset N
  released : Multiset N

structure SchedulerStats where
  setsSent : ℕ := 0
  setsReceived : ℕ := 0
  deriving DecidableEq, Repr

def SchedulerStats.add (s t : SchedulerStats) : SchedulerStats where
  setsSent := s.setsSent + t.setsSent
  setsReceived := s.setsReceived + t.setsReceived

/-- Where a thread is in `start` and `schedule`. -/
inductive Pc (N : Type*)
  /-- Before `std::thread` has been called for it. -/
  | idle
  | start
  /-- At the test of the `while` loop of `start`. -/
  | loop
  | read (node : N)
  | branch (node : N)
  /-- At the first comparison with `record_`, and at the mutex after it. -/
  | check
  | publish
  | schedule
  | send
  | empty
  /-- In `schedule` without nodes and not yet counted. -/
  | enter
  /-- About to take the mutex and test the predicate of `wait`. -/
  | lock
  /-- Blocked in `condvar_sets_.wait`. -/
  | blocked
  | returned
  | exited
  deriving DecidableEq

/-- A thread with its entries of `list_nodes_` and `list_stats_`. `counted` says that it has changed
the counter of the scheduler and not changed it back. -/
structure Thread (N : Type*) where
  pc : Pc N := .idle
  listNodes : List N := []
  listStats : SchedulerStats := {}
  record : ValueType := 0
  nodes : List N := []
  sol : Solution := {}
  stats : SchedulerStats := {}
  counted : Bool := false

/-- What a step of a thread leaves, and whether it called `notify_all`. -/
structure Outcome (N : Type*) where
  thread : Thread N
  shared : Shared N
  notifyAll : Bool

namespace Thread

variable {N : Type*}

/-- The thread's copy of `list_nodes_[threadID]` and its other variables. -/
def begin (t : Thread N) (sh : Shared N) : Outcome N where
  thread := { t with
    pc := .loop
    listStats := {}
    record := sh.record
    nodes := Container.pushAll [] t.listNodes
    listNodes := [] }
  shared := sh
  notifyAll := false

def branch (S : Solver N) (t : Thread N) (sh : Shared N) (node : N) : Outcome N :=
  let b := S.branch node t.record t.sol
  { thread := { t with
      pc := .check
      record := b.record
      sol := b.sol
      nodes := Container.pushAll t.nodes b.nodes }
    shared := { sh with
      created := sh.created + (b.nodes + b.released)
      released := sh.released + (node ::ₘ b.released) }
    notifyAll := false }

/-- The second comparison with `record_`, under the mutex. -/
def publish (t : Thread N) (sh : Shared N) : Outcome N where
  thread := { t with pc := .schedule }
  shared := { sh with record := if t.record < sh.record then t.record else sh.record }
  notifyAll := false

def send (sch : Scheduler) (t : Thread N) (sh : Shared N) : Outcome N :=
  let (nodes, queue, sent) :=
    sendNodes sch.numMinimumNodes.toNat t.nodes sh.queueSets t.stats.setsSent
  { thread := { t with pc := .empty, nodes := nodes, stats := { t.stats with setsSent := sent } }
    shared := { sh with queueSets := queue }
    notifyAll := true }

def announce (sch : Scheduler) (t : Thread N) (sh : Shared N) : Outcome N where
  thread := { t with pc := .lock, counted := true }
  shared := { sh with counter := sch.announce sh.counter }
  notifyAll := false

/-- The predicate of `wait`. -/
def Ready (sch : Scheduler) (sh : Shared N) : Prop :=
  sh.queueSets ≠ [] ∨ sch.finished sh.counter

/-- The loop after `wait`. -/
def take (sch : Scheduler) (t : Thread N) (sh : Shared N) : Thread N × Shared N :=
  let (nodes, queue, received) :=
    takeNodes sch.numMinimumNodes.toNat t.nodes sh.queueSets t.stats.setsReceived
  ({ t with pc := .returned, nodes := nodes, stats := { t.stats with setsReceived := received } },
    { sh with queueSets := queue })

/-- The section under the mutex from the test of the predicate. -/
def wait (sch : Scheduler) (t : Thread N) (sh : Shared N) : Outcome N :=
  if sh.queueSets.isEmpty = false ∨ sch.finished sh.counter then
    let (t, sh) := t.take sch sh
    if t.nodes.isEmpty = true ∧ sch.finished sh.counter then
      { thread := t, shared := sh, notifyAll := true }
    else
      { thread := { t with counted := false }
        shared := { sh with counter := sch.withdraw sh.counter }
        notifyAll := false }
  else { thread := { t with pc := .blocked }, shared := sh, notifyAll := false }

/-- `GivingScheduler` holds the mutex when it counts the thread, `RequestingScheduler` does not. -/
def enter (sch : Scheduler) (t : Thread N) (sh : Shared N) : Outcome N :=
  let o := t.announce sch sh
  match sch with
  | .giving _ => o.thread.wait sch o.shared
  | .requesting _ => o

/-- `clean_nodes` and the end of `start`. -/
def leave (t : Thread N) (sh : Shared N) : Outcome N where
  thread := { t with pc := .exited, nodes := [] }
  shared := { sh with released := sh.released + t.nodes }
  notifyAll := false

/-- The next step of a thread; it has none before it is started, while it is blocked and after its
end. -/
def step (S : Solver N) (sch : Scheduler) (t : Thread N) (sh : Shared N) : Option (Outcome N) :=
  match t.pc with
  | .idle => none
  | .start => some (t.begin sh)
  | .loop =>
    match t.nodes, sh.interrupted with
    | n :: nodes, false => some ⟨{ t with pc := .read n, nodes := nodes }, sh, false⟩
    | _, _ => some (t.leave sh)
  | .read n => some ⟨{ t with pc := .branch n, record := sh.record }, sh, false⟩
  | .branch n => some (t.branch S sh n)
  | .check =>
    some ⟨{ t with pc := if t.record < sh.record then .publish else .schedule }, sh, false⟩
  | .publish => some (t.publish sh)
  | .schedule =>
    let send := sch.wantsToSend t.nodes.length sh.counter
    some ⟨{ t with pc := if send then .send else .empty, stats := {} }, sh, false⟩
  | .send => some (t.send sch sh)
  | .empty => some ⟨{ t with pc := if t.nodes.isEmpty then .enter else .returned }, sh, false⟩
  | .enter => some (t.enter sch sh)
  | .lock => some (t.wait sch sh)
  | .blocked => none
  | .returned =>
    some ⟨{ t with pc := .loop, listStats := t.listStats.add t.stats, stats := {} }, sh, false⟩
  | .exited => none

/-- What `notify_all` and a spurious wake-up do to a blocked thread. -/
def notified (t : Thread N) : Thread N :=
  match t.pc with
  | .blocked => { t with pc := .lock }
  | _ => t

end Thread

/-- The variables of the first phase of `solve`. -/
structure First (N : Type*) where
  nodes : List N
  record : ValueType
  sol : Solution := {}

/-- Where `solve` is. -/
inductive Main (N : Type*)
  | first (f : First N)
  /-- At the test of the interrupt flag before the parallel part. -/
  | decide (nodes : List N)
  | hand (nodes : List N) (i : UInt32)
  | spawn (i : ℕ)
  | join
  | clean (nodes : List N)
  | returned (sol : Solution)

structure State (N : Type*) (T : ℕ) where
  main : Main N
  threads : Fin T → Thread N
  shared : Shared N

namespace State

variable {N : Type*} {T : ℕ}

/-- The state after a step of thread `i`. -/
def apply (st : State N T) (i : Fin T) (o : Outcome N) : State N T where
  main := st.main
  threads := fun j =>
    let t := Function.update st.threads i o.thread j
    if o.notifyAll then t.notified else t
  shared := o.shared

end State

namespace Parallel

variable {N : Type*}

/-- `num_minimum_nodes` in `solve`, a product of two `unsigned`. -/
def bound (sch : Scheduler) : ℕ := (sch.numMinimumNodes * sch.numThreads).toNat

/-- The body of the loop of the first phase. -/
def First.body (S : Solver N) (f : First N) (n : N) (rest : List N) : First N :=
  let b := S.branch n f.record f.sol
  { record := b.record, sol := b.sol, nodes := Container.pushAll rest b.nodes }

/-- A round of the first phase, uninterrupted. -/
inductive FirstStep (S : Solver N) (sch : Scheduler) (c : Container) : First N → First N → Prop
  | body {f : First N} {n : N} {rest : List N} (hsize : f.nodes.length < bound sch)
      (hp : c.Pop S id f.nodes n rest) : FirstStep S sch c f (First.body S f n rest)

/-- The program steps of `solve` and its threads. -/
inductive Step (S : Solver N) (sch : Scheduler) (c : Container) :
    State N sch.numThreads.toNat → State N sch.numThreads.toNat → Prop
  | branch {st : State N sch.numThreads.toNat} {f : First N} {n : N} {rest : List N}
      (hm : st.main = .first f) (hi : st.shared.interrupted = false)
      (hsize : f.nodes.length < bound sch) (hp : c.Pop S id f.nodes n rest) :
      Step S sch c st { st with
        main := .first (First.body S f n rest)
        shared := { st.shared with
          created := st.shared.created +
            ((S.branch n f.record f.sol).nodes + (S.branch n f.record f.sol).released)
          released := st.shared.released + (n ::ₘ (S.branch n f.record f.sol).released) } }
  | stop {st : State N sch.numThreads.toNat} {f : First N} (hm : st.main = .first f)
      (h : f.nodes = [] ∨ bound sch ≤ f.nodes.length ∨ st.shared.interrupted = true) :
      Step S sch c st { st with
        main := .decide f.nodes
        shared := { st.shared with record := f.record } }
  | skip {st : State N sch.numThreads.toNat} {nodes : List N} (hm : st.main = .decide nodes)
      (hi : st.shared.interrupted = true) : Step S sch c st { st with main := .clean nodes }
  | resize {st : State N sch.numThreads.toNat} {nodes : List N} (hm : st.main = .decide nodes)
      (hi : st.shared.interrupted = false) : Step S sch c st { st with main := .hand nodes 0 }
  | hand {st : State N sch.numThreads.toNat} {nodes rest : List N} {i : UInt32} {n : N}
      {k : Fin sch.numThreads.toNat} (hm : st.main = .hand nodes i) (hp : c.Pop S id nodes n rest)
      (hk : k = (i % sch.numThreads).toNat) :
      Step S sch c st { st with
        main := .hand rest (i + 1)
        threads := Function.update st.threads k
          { st.threads k with listNodes := (st.threads k).listNodes ++ [n] } }
  | handed {st : State N sch.numThreads.toNat} {i : UInt32} (hm : st.main = .hand [] i) :
      Step S sch c st { st with main := .spawn 0 }
  | spawn {st : State N sch.numThreads.toNat} {i : Fin sch.numThreads.toNat}
      (hm : st.main = .spawn i) :
      Step S sch c st { st with
        main := .spawn (i + 1)
        threads := Function.update st.threads i { st.threads i with pc := .start } }
  | spawned {st : State N sch.numThreads.toNat} (hm : st.main = .spawn sch.numThreads.toNat) :
      Step S sch c st { st with main := .join }
  | join {st : State N sch.numThreads.toNat} (hm : st.main = .join)
      (h : ∀ i, (st.threads i).pc = .exited) : Step S sch c st { st with main := .clean [] }
  | clean {st : State N sch.numThreads.toNat} {nodes rest : List N} {n : N}
      (hm : st.main = .clean nodes) (hp : c.Pop S id nodes n rest) :
      Step S sch c st { st with
        main := .clean rest
        shared := { st.shared with released := st.shared.released + {n} } }
  | ret {st : State N sch.numThreads.toNat} (hm : st.main = .clean []) :
      Step S sch c st { st with main := .returned { value := st.shared.record, route := [] } }
  | thread {st : State N sch.numThreads.toNat} {i : Fin sch.numThreads.toNat} {o : Outcome N}
      (h : (st.threads i).step S sch st.shared = some o) : Step S sch c st (st.apply i o)

/-- A spurious wake-up. -/
inductive Wake {T : ℕ} : State N T → State N T → Prop
  | wake {st : State N T} (i : Fin T) :
      Wake st { st with threads := Function.update st.threads i (st.threads i).notified }

/-- `SIGINT` or `SIGTERM`. -/
inductive Signal {T : ℕ} : State N T → State N T → Prop
  | signal {st : State N T} :
      Signal st { st with shared := { st.shared with interrupted := true } }

/-- What the constructors of `ParallelBNB` and its scheduler store. -/
def construct (sch : Scheduler) : Shared N where
  record := 0
  queueSets := []
  counter := sch.initialCounter
  interrupted := false
  created := 0
  released := 0

/-- The variables of the first phase when it starts. -/
def firstStart (S : Solver N) (record : ValueType) : First N where
  nodes := [S.initialNode]
  record := if record > S.initialSolution.value then S.initialSolution.value else record

/-- `solve` up to its first loop, on an object with the fields `sh`. -/
def start (S : Solver N) (sch : Scheduler) (sh : Shared N) (record : ValueType) :
    State N sch.numThreads.toNat :=
  if S.rank > minRankValue then
    { main := .first (firstStart S record)
      threads := fun _ => {}
      shared := { sh with created := sh.created + {S.initialNode}, interrupted := false } }
  else
    { main := .decide []
      threads := fun _ => {}
      shared := { sh with interrupted := false } }

end Parallel

end Optimer
