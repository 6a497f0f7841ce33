/-
# The native thread pool

`Native_thread_pool` runs tasks in worker threads.  A task crosses three queues:

| queue | filled by | emptied by |
|---|---|---|
| `to_inject` | `execute` | the FSM `inject`, which signals one worker |
| `to_execute` | `inject` | a worker, which takes a batch and signals another one if more is left |
| `to_dispatch` | a worker, at the top of its loop | the FSM `fetch`, which completes the tasks |

The last two are shared with the workers and protected by a mutex, so a critical
section is one step.  A worker that finds nothing to execute waits on a condition
variable.  A signal wakes one of the threads that wait, if there is any, and a thread
may also wake up without one.  After it woke up, and locked the mutex again, it takes
what is there and one of the free worker objects, also when there is nothing to execute.

A worker writes a byte to a pipe when it makes `to_dispatch` nonempty.  `fetch` reads
one byte, or none, and then completes all tasks that it finds.

Tasks and worker objects are numbered in the order they come.  A worker thread takes the
task it executes out of its own deque when it begins, where the source does so when it
is done: no other thread sees the deque.  `w` is `none` while the worker object is in
`free_workers`, where the source keeps the pointer until it is assigned the next time.

`shutdown` clears `running`, without the mutex, and creates a cooperative thread that
wakes all workers and then waits for each of them on a semaphore.  The destructor does
the same in its own thread.  While the thread waits on the semaphore, no other
cooperative thread or FSM of the group runs.
-/

import Mathlib.Data.Nat.Notation
import Mathlib.Logic.Function.Basic
import Mathlib.Tactic.SplitIfs

namespace NoxClassic.Threads.Pool

open Function

/-! ### The model -/

/-- Where a worker thread is in `run`. -/
inductive Pc where
  /-- Before the test of `while (running)`. -/
  | test
  /-- Before it locks the mutex. -/
  | lock
  /-- In `available.wait`. -/
  | wait (signalled : Bool)
  /-- Before the test of `while (!e->empty() && running)`. -/
  | exec
  /-- In `t->execute(w)`. -/
  | busy (t : ℕ)
  /-- Behind the loop. -/
  | left
  | dead
  deriving DecidableEq, Repr

/-- A worker thread. -/
structure Thread where
  pc : Pc
  e : List ℕ
  results : List ℕ
  w : Option ℕ
  deriving DecidableEq, Repr

/-- Where the FSM `fetch` is. -/
inductive Fetch where
  | ready
  /-- The pipe was read, the mutex is not locked yet. -/
  | drain
  /-- It waits for the pipe. -/
  | blocked
  deriving DecidableEq, Repr

/-- Where the thread in `wait_threads` is, if there is one. -/
inductive Waiter where
  | idle
  | broadcast
  /-- It has waited for this many workers. -/
  | down (i : ℕ)
  | returned
  deriving DecidableEq, Repr

/-- The thread is in `dead_workers.down`. -/
def Waiter.isDown : Waiter → Bool
  | .down _ => true
  | .idle | .broadcast | .returned => false

structure State where
  running : Bool
  /-- The number of tasks that were submitted. -/
  submitted : ℕ
  toInject : List ℕ
  /-- The FSM `inject` does not wait for `need_injection`. -/
  injectReady : Bool
  toExecute : List ℕ
  toDispatch : List ℕ
  freeWorkers : List ℕ
  nThreads : ℕ
  thread : ℕ → Thread
  /-- The bytes in the pipe. -/
  bytes : ℕ
  fetch : Fetch
  deadWorkers : ℕ
  waiter : Waiter
  /-- The pool is in its destructor. -/
  destroyed : Bool
  /-- The calls of `t->execute`. -/
  executed : List ℕ
  /-- The calls of `complete`. -/
  completed : List ℕ
  /-- `free_workers` was popped when it was empty. -/
  underflow : Bool

/-- `Native_thread_pool::Native_thread_pool`. -/
def State.init : State where
  running := true
  submitted := 0
  toInject := []
  injectReady := true
  toExecute := []
  toDispatch := []
  freeWorkers := []
  nThreads := 0
  thread := fun _ => ⟨.test, [], [], none⟩
  bytes := 0
  fetch := .ready
  deadWorkers := 0
  waiter := .idle
  destroyed := false
  executed := []
  completed := []
  underflow := false

inductive Act where
  /-- A client calls one of the two `execute` functions. -/
  | execute
  /-- The FSM `inject` runs; thread `k` gets the signal. -/
  | inject (k : ℕ)
  | fetchRead
  | fetchDrain
  | addWorker
  /-- Worker thread `i` takes a step; thread `k` gets the signal if it sends one. -/
  | worker (i k : ℕ)
  | spurious (i : ℕ)
  | shutdown
  /-- The destructor of a pool that was not shut down. -/
  | destroy
  /-- A step of the thread in `wait_threads`. -/
  | waiter
  deriving DecidableEq, Repr

namespace State

variable (s : State)

def setThread (i : ℕ) (th : Thread) : State := { s with thread := update s.thread i th }

def setPc (i : ℕ) (pc : Pc) : State := s.setThread i { s.thread i with pc := pc }

/-- Thread `i` waits and has not been signalled. -/
def Waits (i : ℕ) : Prop := i < s.nThreads ∧ (s.thread i).pc = .wait false

instance (i : ℕ) : Decidable (s.Waits i) := inferInstanceAs (Decidable (_ ∧ _))

/-- A signal can go to thread `k`: it waits, or no thread does. -/
def CanSignal (k : ℕ) : Prop := s.Waits k ∨ ∀ i < s.nThreads, ¬ s.Waits i

instance (k : ℕ) : Decidable (s.CanSignal k) := inferInstanceAs (Decidable (_ ∨ _))

/-- `available.signal`. -/
def signal (k : ℕ) : State := if s.Waits k then s.setPc k (.wait true) else s

/-- `available.broadcast`. -/
def broadcast : State :=
  { s with thread := fun i => if s.Waits i then { s.thread i with pc := .wait true }
    else s.thread i }

/-- The cooperative threads and FSMs of the group cannot run. -/
def GroupBlocked : Prop := s.destroyed = true ∨ s.waiter.isDown = true

instance : Decidable s.GroupBlocked := inferInstanceAs (Decidable (_ ∨ _))

/-- The begin of the critical section: results and worker object are handed back. -/
def handBack (i : ℕ) : State :=
  let th := s.thread i
  let triggerPoll := s.toDispatch.isEmpty && !th.results.isEmpty
  { s with
    toDispatch := s.toDispatch ++ th.results
    bytes := if triggerPoll then s.bytes + 1 else s.bytes
    freeWorkers := th.w.toList ++ s.freeWorkers
    thread := update s.thread i { th with results := [], w := none } }

/-- The end of the critical section: the first free worker object is taken. -/
def popWorker (i : ℕ) : State :=
  { s with
    freeWorkers := s.freeWorkers.tail
    underflow := s.underflow || s.freeWorkers.isEmpty
    thread := update s.thread i
      { s.thread i with pc := .exec, w := s.freeWorkers.head? } }

/-- The part of the critical section in which tasks are taken. -/
def takeTasks (batch i k : ℕ) : Option State :=
  let th := s.thread i
  if batch < s.toExecute.length then
    let s := { s with
      toExecute := s.toExecute.drop batch
      thread := update s.thread i { th with e := th.e ++ s.toExecute.take batch } }
    if s.CanSignal k then some ((s.signal k).popWorker i) else none
  else if 0 < s.toExecute.length then
    let s := { s with
      toExecute := th.e
      thread := update s.thread i { th with e := s.toExecute } }
    some (s.popWorker i)
  else some (s.popWorker i)

/-- `run`, one step. -/
def worker (batch i k : ℕ) : Option State :=
  match (s.thread i).pc with
  | .test => some (s.setPc i (if s.running then .lock else .left))
  | .lock =>
    let s := s.handBack i
    if s.toExecute = [] then some (s.setPc i (.wait false)) else s.takeTasks batch i k
  | .wait false => none
  | .wait true => s.takeTasks batch i k
  | .exec =>
    match (s.thread i).e with
    | [] => some (s.setPc i .test)
    | t :: e =>
      if s.running then
        some { s.setThread i { s.thread i with pc := .busy t, e := e } with
          executed := s.executed ++ [t] }
      else some (s.setPc i .test)
  | .busy t =>
    some (s.setThread i
      { s.thread i with pc := .exec, results := (s.thread i).results ++ [t] })
  | .left => some { s.setPc i .dead with deadWorkers := s.deadWorkers + 1 }
  | .dead => none

/-- `execute`: the task is queued, and the FSM `inject` is woken. -/
def execute : State :=
  { s with
    submitted := s.submitted + 1
    toInject := s.toInject ++ [s.submitted]
    injectReady := true }

/-- The FSM `inject`. -/
def inject (k : ℕ) : Option State :=
  let s := { s with
    toExecute := s.toExecute ++ s.toInject
    toInject := []
    injectReady := false }
  if s.CanSignal k then some (s.signal k) else none

/-- The FSM `fetch`, after it locked the mutex: every task is completed. -/
def fetchDrain : State :=
  { s with completed := s.completed ++ s.toDispatch, toDispatch := [], fetch := .blocked }

/-- `add_worker`. -/
def addWorker : State :=
  { s with
    thread := update s.thread s.nThreads ⟨.test, [], [], none⟩
    freeWorkers := s.freeWorkers ++ [s.nThreads]
    nThreads := s.nThreads + 1 }

/-- `wait_threads`, one step. -/
def waitThreads : Option State :=
  match s.waiter with
  | .broadcast => some { s.broadcast with waiter := .down 0 }
  | .down i =>
    if i < s.nThreads then
      if 0 < s.deadWorkers then
        some { s with deadWorkers := s.deadWorkers - 1, waiter := .down (i + 1) }
      else none
    else some { s with waiter := .returned }
  | .idle | .returned => none

end State

def step (batch : ℕ) (s : State) : Act → Option State
  | .execute => if s.GroupBlocked then none else some s.execute
  | .inject k => if s.GroupBlocked ∨ s.injectReady = false then none else s.inject k
  | .fetchRead =>
    if s.GroupBlocked then none
    else if s.fetch = .ready ∨ s.fetch = .blocked ∧ 0 < s.bytes then
      some { s with bytes := s.bytes - 1, fetch := .drain }
    else none
  | .fetchDrain => if ¬ s.GroupBlocked ∧ s.fetch = .drain then some s.fetchDrain else none
  | .addWorker => if s.GroupBlocked then none else some s.addWorker
  | .worker i k => if i < s.nThreads then s.worker batch i k else none
  | .spurious i => if s.Waits i then some (s.setPc i (.wait true)) else none
  | .shutdown =>
    if s.GroupBlocked ∨ s.running = false then none
    else some { s with running := false, waiter := .broadcast }
  | .destroy =>
    if s.GroupBlocked ∨ s.running = false then none
    else some { s with running := false, waiter := .broadcast, destroyed := true }
  | .waiter => s.waitThreads

/-! ### The cases of a step -/

/-- The tasks of `to_inject` are moved. -/
def State.injected (s : State) : State :=
  { s with toExecute := s.toExecute ++ s.toInject, toInject := [], injectReady := false }

/-- What a step of worker `i` can be. -/
inductive WorkerStep (batch i k : ℕ) (s : State) : State → Prop
  | enter (hpc : (s.thread i).pc = .test) (hrun : s.running = true) :
      WorkerStep batch i k s (s.setPc i .lock)
  | leave (hpc : (s.thread i).pc = .test) (hrun : s.running = false) :
      WorkerStep batch i k s (s.setPc i .left)
  | wait (hpc : (s.thread i).pc = .lock) (hnil : s.toExecute = []) :
      WorkerStep batch i k s ((s.handBack i).setPc i (.wait false))
  | take {s'} (hpc : (s.thread i).pc = .lock)
      (htake : (s.handBack i).takeTasks batch i k = some s') :
      WorkerStep batch i k s s'
  | wake {s'} (hpc : (s.thread i).pc = .wait true) (htake : s.takeTasks batch i k = some s') :
      WorkerStep batch i k s s'
  | next (hpc : (s.thread i).pc = .exec) (he : (s.thread i).e = [] ∨ s.running = false) :
      WorkerStep batch i k s (s.setPc i .test)
  | start {t e} (hpc : (s.thread i).pc = .exec) (he : (s.thread i).e = t :: e)
      (hrun : s.running = true) :
      WorkerStep batch i k s
        { s.setThread i { s.thread i with pc := .busy t, e := e } with
          executed := s.executed ++ [t] }
  | finish {t} (hpc : (s.thread i).pc = .busy t) :
      WorkerStep batch i k s (s.setThread i
        { s.thread i with pc := .exec, results := (s.thread i).results ++ [t] })
  | die (hpc : (s.thread i).pc = .left) :
      WorkerStep batch i k s { s.setPc i .dead with deadWorkers := s.deadWorkers + 1 }

theorem workerStep {batch i k : ℕ} {s s' : State} (hs : s.worker batch i k = some s') :
    WorkerStep batch i k s s' := by
  unfold State.worker at hs
  cases hpc : (s.thread i).pc <;> rw [hpc] at hs
  case test =>
    cases hs
    cases hrun : s.running with
    | true => exact .enter hpc hrun
    | false => exact .leave hpc hrun
  case lock =>
    dsimp only at hs
    split_ifs at hs with hnil
    · cases hs
      exact .wait hpc hnil
    · exact .take hpc hs
  case wait b =>
    cases b with
    | false => nomatch hs
    | true => exact .wake hpc hs
  case exec =>
    cases he : (s.thread i).e with rw [he] at hs
    | nil =>
      cases hs
      exact .next hpc (.inl he)
    | cons t e =>
      split_ifs at hs with hrun <;> cases hs
      · exact .start hpc he hrun
      · exact .next hpc (.inr (Bool.eq_false_iff.2 hrun))
  case busy t =>
    cases hs
    exact .finish hpc
  case left =>
    cases hs
    exact .die hpc
  case dead =>
    nomatch hs

/-- What an action can do. -/
inductive Step (batch : ℕ) (s : State) : Act → State → Prop
  | execute (hfree : ¬ s.GroupBlocked) : Step batch s .execute s.execute
  | inject {k} (hfree : ¬ s.GroupBlocked) (hk : s.injected.CanSignal k) :
      Step batch s (.inject k) (s.injected.signal k)
  | fetchRead (hfree : ¬ s.GroupBlocked)
      (hf : s.fetch = .ready ∨ s.fetch = .blocked ∧ 0 < s.bytes) :
      Step batch s .fetchRead { s with bytes := s.bytes - 1, fetch := .drain }
  | fetchDrain (hfree : ¬ s.GroupBlocked) (hf : s.fetch = .drain) :
      Step batch s .fetchDrain s.fetchDrain
  | addWorker (hfree : ¬ s.GroupBlocked) : Step batch s .addWorker s.addWorker
  | worker {i k s'} (hi : i < s.nThreads) (hs : s.worker batch i k = some s') :
      Step batch s (.worker i k) s'
  | spurious {i} (hw : s.Waits i) : Step batch s (.spurious i) (s.setPc i (.wait true))
  | shutdown (hfree : ¬ s.GroupBlocked) (hrun : s.running = true) :
      Step batch s .shutdown { s with running := false, waiter := .broadcast }
  | destroy (hfree : ¬ s.GroupBlocked) (hrun : s.running = true) :
      Step batch s .destroy { s with running := false, waiter := .broadcast, destroyed := true }
  | broadcast (hw : s.waiter = .broadcast) :
      Step batch s .waiter { s.broadcast with waiter := .down 0 }
  | down {i} (hw : s.waiter = .down i) (hi : i < s.nThreads) (hd : 0 < s.deadWorkers) :
      Step batch s .waiter { s with deadWorkers := s.deadWorkers - 1, waiter := .down (i + 1) }
  | returned {i} (hw : s.waiter = .down i) (hi : s.nThreads ≤ i) :
      Step batch s .waiter { s with waiter := .returned }

theorem step_cases {batch : ℕ} {s s' : State} {a : Act} (hs : step batch s a = some s') :
    Step batch s a s' := by
  cases a <;> simp only [step] at hs
  case execute =>
    split_ifs at hs with hb
    cases hs
    exact .execute hb
  case inject k =>
    split_ifs at hs with hb
    unfold State.inject at hs
    dsimp only at hs
    split_ifs at hs with hk
    cases hs
    exact .inject (not_or.1 hb).1 hk
  case fetchRead =>
    split_ifs at hs with hb hf
    cases hs
    exact .fetchRead hb hf
  case fetchDrain =>
    split_ifs at hs with hf
    cases hs
    exact .fetchDrain hf.1 hf.2
  case addWorker =>
    split_ifs at hs with hb
    cases hs
    exact .addWorker hb
  case worker i k =>
    split_ifs at hs with hi
    exact .worker hi hs
  case spurious i =>
    split_ifs at hs with hw
    cases hs
    exact .spurious hw
  case shutdown =>
    split_ifs at hs with hb
    cases hs
    exact .shutdown (not_or.1 hb).1 (Bool.not_eq_false _ ▸ (not_or.1 hb).2)
  case destroy =>
    split_ifs at hs with hb
    cases hs
    exact .destroy (not_or.1 hb).1 (Bool.not_eq_false _ ▸ (not_or.1 hb).2)
  case waiter =>
    unfold State.waitThreads at hs
    split at hs
    · rename_i hw
      cases hs
      exact .broadcast hw
    · rename_i i hw
      split_ifs at hs with hi hd <;> cases hs
      · exact .down hw hi hd
      · exact .returned hw (Nat.not_lt.1 hi)
    all_goals nomatch hs

end NoxClassic.Threads.Pool
