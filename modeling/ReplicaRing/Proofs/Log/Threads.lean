import ReplicaRing.Proofs.Log.Plan
import ReplicaRing.Proofs.Log.Refinement

/-!
# Threads of a log

A log is used by many threads at once, each with one call to make (`Log.Task`). A thread goes
through the accesses of its call one by one, and a schedule tells which thread is next
(`Log.Machine.run`). A read takes no locks. An append takes the locks of both files of its key
before its first access and holds them until it returns; while others hold one of them, it
does not get on (`Log.Machine.step`).
-/

namespace ReplicaRing.Log

/-! ## Tasks -/

/-- What a thread is to do. -/
inductive Task
  | append (key : String) (value : Bytes) (time : Time)
  | appendNow (key : String) (value : Bytes) (now : Time)
  | readLatest (key : String)
  | readAsOf (key : String) (time : Time)
  | readRange (key : String) (first final : Time)

namespace Task

/-- The key that the task is about. -/
def key : Task → String
  | append key _ _ | appendNow key _ _ | readLatest key | readAsOf key _ | readRange key _ _ => key

/-- The value that is to be appended. -/
def value? : Task → Option Bytes
  | append _ value _ | appendNow _ value _ => some value
  | _ => none

/-- The task is an append. -/
def isAppend (task : Task) : Bool := task.value?.isSome

/-- The call that the task is. -/
def call : Task → Call
  | append key value time => .append key value time
  | appendNow key value now => .appendNow key value now
  | readLatest key => .readLatest key
  | readAsOf key time => .readAsOf key time
  | readRange key first final => .readRange key first final

/-- What a history of the key answers to the task, and the history after it. -/
def onHistory (task : Task) (h : History) : Answer × History :=
  ((task.call.onHistories fun _ => h).1, (task.call.onHistories fun _ => h).2 task.key)

/-- The accesses of the task. -/
def plan : Task → Plan Log Answer
  | append key value time => do return .written (← appendPlan key value time)
  | appendNow key value now => do return .written (← appendNowPlan key value now)
  | readLatest key => do return .value (← readLatestPlan key)
  | readAsOf key time => do return .value (← readAsOfPlan key time)
  | readRange key first final => do return .values (← readRangePlan key first final)

/-- Left alone, the accesses of a task do what its call does. -/
theorem run_plan (log : Log) (task : Task) : task.plan.run log = task.call.run log := by
  cases task with
  | append key value time =>
    rw [plan, Plan.run_bind, run_appendPlan]
    rfl
  | appendNow key value now =>
    rw [plan, Plan.run_bind, run_appendNowPlan]
    rfl
  | readLatest key =>
    rw [plan, Plan.run_bind, run_readLatestPlan]
    rfl
  | readAsOf key time =>
    rw [plan, Plan.run_bind, run_readAsOfPlan]
    rfl
  | readRange key first final =>
    rw [plan, Plan.run_bind, run_readRangePlan]
    rfl

/-- The files that the task has to lock. -/
def locks (log : Log) (task : Task) : List Path :=
  if task.isAppend then [log.dataPath task.key, log.indexPath task.key] else []

end Task

/-! ## Threads -/

/-- A thread with its task. -/
inductive Thread
  | waiting (task : Task)
  | running (task : Task) (rest : Plan Log Answer)
  | returned (task : Task) (answer : Answer)

namespace Thread

def task : Thread → Task
  | waiting task | running task _ | returned task _ => task

/-- The files that the thread has locked. -/
def locks (log : Log) : Thread → List Path
  | running task _ => task.locks log
  | _ => []

end Thread

/-- A log with the threads that use it. -/
structure Machine where
  log : Log
  threads : List Thread

namespace Machine

/-- All threads are still to begin. -/
def start (log : Log) (tasks : List Task) : Machine := ⟨log, tasks.map .waiting⟩

/-- No thread has locked a file that the task has to lock. -/
def free (m : Machine) (task : Task) : Bool :=
  m.threads.all fun th => (th.locks m.log).all fun p => !(task.locks m.log).contains p

/-- What comes of the `i`-th thread taking one step: it begins, unless it has to wait for a lock,
    makes its next access, or returns. -/
def step (m : Machine) (i : Nat) : Machine :=
  match m.threads[i]? with
  | some (.waiting task) =>
    if m.free task then { m with threads := m.threads.set i (.running task task.plan) } else m
  | some (.running task (.next x k)) =>
    ⟨(x.run m.log).2, m.threads.set i (.running task (k (x.run m.log).1))⟩
  | some (.running task (.done a)) => { m with threads := m.threads.set i (.returned task a) }
  | _ => m

/-- The threads take steps in the order of a schedule. -/
def run (m : Machine) : List Nat → Machine
  | [] => m
  | i :: schedule => run (m.step i) schedule

theorem run_append (m : Machine) (s s' : List Nat) : m.run (s ++ s') = (m.run s).run s' := by
  induction s generalizing m with
  | nil => rfl
  | cons i s ih => exact ih _

variable {m : Machine} {task : Task} {σ : Nat → Nat} {i j n : Nat}

/-! ## Reads wait for nobody -/

/-- A step of one thread leaves the others where they are. -/
theorem step_of_ne (m : Machine) (h : j ≠ i) : (m.step j).threads[i]? = m.threads[i]? := by
  rw [step]
  split
  · split
    · exact List.getElem?_set_ne h
    · rfl
  · exact List.getElem?_set_ne h
  · exact List.getElem?_set_ne h
  · rfl

/-- No thread goes back to wait. -/
theorem waiting_of_step (h : (m.step j).threads[i]? = some (.waiting task)) :
    m.threads[i]? = some (.waiting task) := by
  by_cases hij : j = i
  · subst hij
    have hset : ∀ th : Thread, (m.threads.set j th)[j]? = some (.waiting task) →
        th = .waiting task := by
      intro th h
      rw [List.getElem?_set] at h
      simp only [if_true] at h
      split at h
      · exact Option.some.inj h
      · cases h
    rw [step] at h
    split at h
    · split at h
      · cases hset _ h
      · exact h
    · cases hset _ h
    · cases hset _ h
    · exact h
  · rwa [step_of_ne m hij] at h

/-- Nobody keeps a read from beginning. -/
theorem free_of_read (m : Machine) (hread : task.isAppend = false) : m.free task = true := by
  simp [free, Task.locks, hread]

/-- The first `n` turns of an endless schedule. -/
def turns (σ : Nat → Nat) (n : Nat) : List Nat := (List.range n).map σ

theorem turns_add (σ : Nat → Nat) (n k : Nat) :
    turns σ (n + k) = turns σ n ++ turns (fun l => σ (n + l)) k := by
  rw [turns, List.range_add, List.map_append, List.map_map]
  rfl

/-- The thread gets a turn again and again. -/
def Recurs (σ : Nat → Nat) (i : Nat) : Prop := ∀ n, ∃ k, n ≤ k ∧ σ k = i

theorem Recurs.later (h : Recurs σ i) (n : Nat) : Recurs (fun l => σ (n + l)) i := by
  intro k
  obtain ⟨l, hl, hσ⟩ := h (n + k)
  refine ⟨l - n, by omega, ?_⟩
  show σ (n + (l - n)) = i
  rwa [Nat.add_sub_cancel' (by omega)]

/-- The thread is where it was when it gets its next turn. -/
theorem exists_turn (m : Machine) (h : Recurs σ i) :
    ∃ n, σ n = i ∧ (m.run (turns σ n)).threads[i]? = m.threads[i]? := by
  classical
  have hex : ∃ n, σ n = i := (h 0).imp fun _ hn => hn.2
  refine ⟨Nat.find hex, Nat.find_spec hex, ?_⟩
  have hfirst : ∀ k ≤ Nat.find hex, (m.run (turns σ k)).threads[i]? = m.threads[i]? := by
    intro k hk
    induction k with
    | zero => rfl
    | succ k ih =>
      rw [turns_add, run_append]
      exact (step_of_ne _ (Nat.find_min hex hk)).trans (ih (Nat.le_of_succ_le hk))
  exact hfirst _ (Nat.le_refl _)

/-- The thread with its next turn taken. -/
theorem exists_step (m : Machine) (h : Recurs σ i) :
    ∃ (n : Nat) (m' : Machine), m'.threads[i]? = m.threads[i]? ∧ m.run (turns σ n) = m'.step i ∧
      Recurs (fun l => σ (n + l)) i := by
  obtain ⟨n, hσ, hn⟩ := exists_turn m h
  refine ⟨n + 1, _, hn, ?_, h.later _⟩
  rw [turns_add, run_append]
  show (m.run (turns σ n)).step (σ (n + 0)) = _
  rw [Nat.add_zero, hσ]

/-- A thread that is running returns, if only it gets turns. -/
theorem exists_returned {rest : Plan Log Answer} (hi : m.threads[i]? = some (.running task rest))
    (h : Recurs σ i) : ∃ n a, (m.run (turns σ n)).threads[i]? = some (.returned task a) := by
  -- Each turn that the thread takes leaves a smaller plan.
  induction rest generalizing m σ with
  | done a =>
    obtain ⟨n, m', hm', hrun, -⟩ := exists_step m h
    rw [hi] at hm'
    refine ⟨n, a, ?_⟩
    rw [hrun, step, hm']
    exact List.getElem?_set_self (List.getElem?_eq_some_iff.1 hm').1
  | next x k ih =>
    obtain ⟨n, m', hm', hrun, hlater⟩ := exists_step m h
    rw [hi] at hm'
    have hstep : (m.run (turns σ n)).threads[i]? =
        some (.running task (k (x.run m'.log).1)) := by
      rw [hrun, step, hm']
      exact List.getElem?_set_self (List.getElem?_eq_some_iff.1 hm').1
    obtain ⟨n', a, ha⟩ := ih _ hstep hlater
    exact ⟨n + n', a, by rw [turns_add, run_append]; exact ha⟩

/-- A read returns, whatever the other threads do, if only it gets turns. -/
theorem exists_returned_of_read (hread : task.isAppend = false)
    (hi : m.threads[i]? = some (.waiting task)) (h : Recurs σ i) :
    ∃ n a, (m.run (turns σ n)).threads[i]? = some (.returned task a) := by
  obtain ⟨n, m', hm', hrun, hlater⟩ := exists_step m h
  rw [hi] at hm'
  have hstep : (m.run (turns σ n)).threads[i]? = some (.running task task.plan) := by
    rw [hrun, step, hm']
    simp only [free_of_read m' hread, if_true]
    exact List.getElem?_set_self (List.getElem?_eq_some_iff.1 hm').1
  obtain ⟨n', a, ha⟩ := exists_returned hstep hlater
  exact ⟨n + n', a, by rw [turns_add, run_append]; exact ha⟩

end Machine

end ReplicaRing.Log
