import Mathlib.Algebra.Order.BigOperators.Group.Multiset
import Mathlib.Data.List.Basic

/-! The two schedulers that move nodes between the threads of `ParallelBNB`
(`bnb/giving_scheduler.h`, `bnb/requesting_scheduler.h`). Each keeps a queue of nodes and a counter
of threads under one mutex; what differs is which threads the counter counts, when a thread gives
nodes away, and that `RequestingScheduler` counts a waiting thread before it takes the mutex. -/

namespace Optimer

structure GivingSchedulerParams where
  numThreads : UInt32
  numMinimumNodes : UInt32
  numMaximumNodes : UInt32

structure RequestingSchedulerParams where
  numThreads : UInt32
  numMinimumNodes : UInt32

/-- A scheduler by its `params_`. -/
inductive Scheduler
  | giving (params : GivingSchedulerParams)
  | requesting (params : RequestingSchedulerParams)

namespace Scheduler

def numThreads : Scheduler → UInt32
  | giving p => p.numThreads
  | requesting p => p.numThreads

def numMinimumNodes : Scheduler → UInt32
  | giving p => p.numMinimumNodes
  | requesting p => p.numMinimumNodes

/-- What the constructors store in `num_working_threads_` and `num_waiting_threads_`. -/
def initialCounter : Scheduler → UInt32
  | giving p => p.numThreads
  | requesting _ => 0

/-- A thread without nodes is counted: `--num_working_threads_`, `++num_waiting_threads_`. -/
def announce : Scheduler → UInt32 → UInt32
  | giving _, counter => counter - 1
  | requesting _, counter => counter + 1

/-- A thread that got nodes takes that back. -/
def withdraw : Scheduler → UInt32 → UInt32
  | giving _, counter => counter + 1
  | requesting _, counter => counter - 1

/-- The second half of the predicate of `wait`: `num_working_threads_ == 0`,
`num_waiting_threads_.load() >= params_.num_threads`. -/
def finished : Scheduler → UInt32 → Prop
  | giving _, counter => counter = 0
  | requesting p, counter => counter ≥ p.numThreads

instance (sch : Scheduler) (counter : UInt32) : Decidable (sch.finished counter) :=
  match sch with
  | giving _ => inferInstanceAs (Decidable (counter = 0))
  | requesting p => inferInstanceAs (Decidable (p.numThreads ≤ counter))

/-- The first test of `schedule`: `nodes->size() > params_.num_maximum_nodes`,
`num_waiting_threads_.load() > 0` (a signed comparison). -/
def wantsToSend : Scheduler → ℕ → UInt32 → Bool
  | giving p, size, _ => size > p.numMaximumNodes.toNat
  | requesting _, _, counter => 0 < counter.toInt32

/-- The counter when `k` threads are counted as being without nodes. -/
def counterOf : Scheduler → ℕ → UInt32
  | giving p, k => p.numThreads - UInt32.ofNat k
  | requesting _, k => UInt32.ofNat k

variable {sch : Scheduler} {k : ℕ}

theorem counterOf_zero : sch.counterOf 0 = sch.initialCounter := by
  cases sch with
  | giving p => exact UInt32.sub_zero _
  | requesting p => rfl

theorem announce_counterOf : sch.announce (sch.counterOf k) = sch.counterOf (k + 1) := by
  cases sch with
  | giving p => simp only [announce, counterOf, UInt32.ofNat_add]; grind
  | requesting p => simp only [announce, counterOf, UInt32.ofNat_add]; rfl

theorem withdraw_counterOf : sch.withdraw (sch.counterOf (k + 1)) = sch.counterOf k := by
  cases sch with
  | giving p => simp only [withdraw, counterOf, UInt32.ofNat_add]; grind
  | requesting p => simp only [withdraw, counterOf, UInt32.ofNat_add]; grind

/-- The counter says that no thread has work exactly when all threads are counted. -/
theorem finished_counterOf (hk : k ≤ sch.numThreads.toNat) :
    sch.finished (sch.counterOf k) ↔ k = sch.numThreads.toNat := by
  have hlt := sch.numThreads.toNat_lt
  have hof : (UInt32.ofNat k).toNat = k := UInt32.toNat_ofNat_of_lt' (by simp [UInt32.size]; omega)
  cases sch with
  | giving p =>
    simp only [finished, counterOf, numThreads] at *
    have hsub : p.numThreads - UInt32.ofNat k = 0 ↔ p.numThreads = UInt32.ofNat k := by grind
    rw [hsub, ← UInt32.toNat_inj, hof, eq_comm]
  | requesting p =>
    simp only [finished, counterOf, numThreads, ge_iff_le, UInt32.le_iff_toNat_le] at *
    omega

end Scheduler

section Sections

variable {N : Type*}

/-- The loop that gives away what exceeds `num_minimum_nodes`, from the top of the stack to the end
of the queue, counting in `sets_sent`. -/
def sendNodes (minimum : ℕ) : List N → List N → ℕ → List N × List N × ℕ
  | [], queue, sent => ([], queue, sent)
  | n :: nodes, queue, sent =>
    if (n :: nodes).length > minimum then sendNodes minimum nodes (queue ++ [n]) (sent + 1)
    else (n :: nodes, queue, sent)

/-- The loop that takes up to `num_minimum_nodes` from the front of the queue, counting in
`sets_received`. -/
def takeNodes (minimum : ℕ) (nodes : List N) : List N → ℕ → List N × List N × ℕ
  | [], received => (nodes, [], received)
  | n :: queue, received =>
    if nodes.length < minimum then takeNodes minimum (n :: nodes) queue (received + 1)
    else (nodes, n :: queue, received)

/-- The moved nodes are a first part of the stack; some node stays if there was one. -/
theorem sendNodes_spec {minimum : ℕ} (hmin : 0 < minimum) (nodes queue : List N) (sent : ℕ) :
    ∃ moved kept, nodes = moved ++ kept ∧ (nodes = [] ↔ kept = []) ∧
      sendNodes minimum nodes queue sent = (kept, queue ++ moved, sent + moved.length) := by
  induction nodes generalizing queue sent with
  | nil => exact ⟨[], [], rfl, Iff.rfl, by simp [sendNodes]⟩
  | cons n nodes ih =>
    by_cases h : (n :: nodes).length > minimum
    · obtain ⟨moved, kept, rfl, hnil, heq⟩ := ih (queue ++ [n]) (sent + 1)
      have hne : moved ++ kept ≠ [] := List.ne_nil_of_length_pos (by simp at h ⊢; omega)
      refine ⟨n :: moved, kept, rfl, iff_of_false (List.cons_ne_nil _ _) (hne ∘ hnil.mpr), ?_⟩
      rw [sendNodes, if_pos h, heq]
      simp only [List.append_assoc, List.singleton_append, List.length_cons, Nat.add_assoc,
        Nat.add_comm 1]
    · exact ⟨[], n :: nodes, rfl, Iff.rfl, by
        rw [sendNodes, if_neg h, List.append_nil, List.length_nil, Nat.add_zero]⟩

/-- The taken nodes are a first part of the queue. -/
theorem takeNodes_spec (minimum : ℕ) (nodes queue : List N) (received : ℕ) :
    ∃ taken left, queue = taken ++ left ∧ takeNodes minimum nodes queue received =
      (taken.reverse ++ nodes, left, received + taken.length) := by
  induction queue generalizing nodes received with
  | nil => exact ⟨[], [], rfl, rfl⟩
  | cons n queue ih =>
    by_cases h : nodes.length < minimum
    · obtain ⟨taken, left, rfl, heq⟩ := ih (n :: nodes) (received + 1)
      refine ⟨n :: taken, left, rfl, ?_⟩
      rw [takeNodes, if_pos h, heq]
      simp only [List.reverse_cons, List.append_assoc, List.singleton_append, List.length_cons,
        Nat.add_assoc, Nat.add_comm 1]
    · exact ⟨[], n :: queue, rfl, by rw [takeNodes, if_neg h]; rfl⟩

/-- A thread without nodes gets one if the queue has one. -/
theorem takeNodes_eq_nil_iff {minimum : ℕ} (hmin : 0 < minimum) (queue : List N) (received : ℕ) :
    (takeNodes minimum [] queue received).1 = [] ↔ queue = [] := by
  cases queue with
  | nil => exact iff_of_true rfl rfl
  | cons n queue =>
    obtain ⟨taken, left, _, heq⟩ := takeNodes_spec minimum [n] queue (received + 1)
    rw [takeNodes, if_pos (by simpa using hmin), heq]
    simp

end Sections

end Optimer
