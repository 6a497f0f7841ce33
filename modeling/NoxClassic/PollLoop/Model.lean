/-
# The threads of the poll loop

`src/lib/poll-loop.cc`.  The pollables are in a list, which one thread of a pool,
the polling thread, goes through again and again, calling `poll()` of each.  A
`poll()` may block.  The hook that is called just before rotates the list and
makes a dormant thread the polling thread; the blocked thread keeps its place in
the list, and comes back to it when its `poll()` goes on, possibly long after
the list was rotated, extended and shrunk by others.

The threads are cooperative: one runs until it blocks or yields, which is when
another may be resumed.  A step is one action of the running thread, or of code
outside the pool while none of its threads runs.  `poll()` and `wait()` are
arbitrary: while one runs, pollables are added and removed in any number, and
`poll()` blocks and goes on in any number as well (`co_yield` calls the hook like
`co_block` does).  Any thread that is blocked may be resumed at any time; which
events wake it is left out.

An iterator is the number of the list node it points to.  A failed assertion, and
the use of a node that was erased, clear `ok`.
-/

import NoxClassic.Lib.Run
import Mathlib.Data.Fintype.Basic

namespace NoxClassic.PollLoop

/-- `Pollable_ref`, with the number of its list node. -/
structure PollableRef (P : Type) where
  node : ℕ
  pollable : Option P
  refCnt : ℕ

/-- Where a thread is. -/
inductive Pc where
  /-- The thread that will call `run` has not yet. -/
  | outside
  /-- In `pt->wakeup.down()`, and in `dormant_threads`. -/
  | dormant
  /-- Taken out of `dormant_threads`, with `wakeup.up()` called, but not resumed yet. -/
  | woken
  /-- At the head of the loop of `service_pollables`. -/
  | servicing (i : Option ℕ) (progress : Bool)
  /-- In `ref.pollable->poll()`; `hook` says whether the pre-block hook is still set. -/
  | polling (i : ℕ) (progress hook : Bool)
  /-- In the `co_yield()` after `service_pollables`. -/
  | yielding
  /-- At the head of the loop that calls `wait()`. -/
  | waitLoop (i : Option ℕ)
  /-- In `ref.pollable->wait()`. -/
  | inWait (i : ℕ)
  /-- In `co_block()`. -/
  | waiting
  deriving DecidableEq

/-- What the results speak of. -/
inductive Event (P : Type) where
  | add (p : P) (node : ℕ)
  | remove (p : P) (node : ℕ)
  | poll (p : P)
  | wait (p : P)

/-- `Poll_loop_impl` with `n + 1` threads, of which the last is the one that calls `run`; `pos`
is the `pollables_pos` of the pollables, and `log` is what happened, the newest first. -/
structure State (P : Type) (n : ℕ) where
  pc : Fin (n + 1) → Pc
  pollingThread : Option (Fin (n + 1))
  dormantThreads : List (Fin (n + 1))
  pollables : List (PollableRef P)
  pos : P → ℕ
  next : ℕ
  running : Option (Fin (n + 1))
  ok : Bool
  log : List (Event P)

/-! ### The list -/

section List

variable {P : Type} (l : List (PollableRef P))

/-- The numbers of the nodes. -/
def nodes : List ℕ := l.map PollableRef.node

/-- `pollables.begin()`. -/
def begin : Option ℕ := (nodes l).head?

/-- `++i`. -/
def succ (i : ℕ) : Option ℕ := ((nodes l).dropWhile (· ≠ i)).tail.head?

/-- `*i`. -/
def deref (i : ℕ) : Option (PollableRef P) := l.find? fun ref => ref.node = i

/-- A change of `*i`. -/
def modify (i : ℕ) (f : PollableRef P → PollableRef P) : List (PollableRef P) :=
  l.map fun ref => if ref.node = i then f ref else ref

/-- `pollables.erase(i)`. -/
def erase (i : ℕ) : List (PollableRef P) := l.filter fun ref => ref.node ≠ i

/-- `pollables.splice(pollables.begin(), pollables, ++i, pollables.end())`. -/
def rotate (i : ℕ) : List (PollableRef P) :=
  let k := (nodes l).idxOf i + 1
  l.drop k ++ l.take k

end List

namespace State

variable {P : Type} {n : ℕ}

/-- The thread goes to `c`. -/
def goto (s : State P n) (t : Fin (n + 1)) (c : Pc) : State P n :=
  { s with pc := Function.update s.pc t c }

/-- The thread goes to `c`, where it blocks or yields. -/
def stopAt (s : State P n) (t : Fin (n + 1)) (c : Pc) : State P n :=
  { s.goto t c with running := none }

/-- An assertion. -/
def assert (s : State P n) (b : Bool) : State P n := { s with ok := s.ok && b }

/-- The beginning of `NEXT_WITH_REFERENCE`. -/
def reference (s : State P n) (i : ℕ) : State P n :=
  { s with pollables := modify s.pollables i fun ref => { ref with refCnt := ref.refCnt + 1 } }

/-- The end of `NEXT_WITH_REFERENCE`, with the iterator it leaves. -/
def unreference (s : State P n) (i : ℕ) : Option ℕ × State P n :=
  match deref s.pollables i with
  | none => (none, s.assert false)
  | some ref =>
    (succ s.pollables i,
      { s with
        pollables :=
          if ref.refCnt = 1 ∧ ref.pollable.isNone then erase s.pollables i
          else modify s.pollables i fun ref => { ref with refCnt := ref.refCnt - 1 } })

/-- The head of the loop of `poll_thread_main`, up to the loop of `service_pollables`. -/
def loopTop (s : State P n) (t : Fin (n + 1)) : State P n :=
  if s.pollingThread ≠ some t then
    { s with dormantThreads := t :: s.dormantThreads }.stopAt t .dormant
  else (s.assert (s.pollingThread = some t)).goto t (.servicing (begin s.pollables) false)

/-- `service_pollables` returned. -/
def serviced (s : State P n) (t : Fin (n + 1)) (progress : Bool) : State P n :=
  if progress then s.stopAt t .yielding
  else if s.pollingThread = some t then s.goto t (.waitLoop (begin s.pollables))
  else s.loopTop t

/-- The end of the body of the loop of `service_pollables`. -/
def nextPollable (s : State P n) (t : Fin (n + 1)) (i : Option ℕ) (progress : Bool) : State P n :=
  if s.pollingThread ≠ some t then
    if s.pollingThread.isSome then s.serviced t false
    else { s with pollingThread := some t }.serviced t true
  else s.goto t (.servicing i progress)

/-- `appoint_polling_thread`. -/
def appointPollingThread (s : State P n) (i : ℕ) : State P n :=
  let s := { s with pollables := rotate s.pollables i }
  match s.dormantThreads with
  | [] => { s with pollingThread := none }
  | d :: ds => { s with pollingThread := some d, dormantThreads := ds }.goto d .woken

/-- The pollable is in the list. -/
def registered [DecidableEq P] (s : State P n) (p : P) : Bool :=
  s.pollables.any fun ref => ref.pollable = some p

/-- Code that may call the loop is running: outside the pool, or a `poll()` or `wait()`. -/
def callable (s : State P n) : Bool :=
  match s.running with
  | none => true
  | some t =>
    match s.pc t with
    | .polling _ _ _ | .inWait _ => true
    | _ => false

/-- `Poll_loop_impl::add_pollable`. -/
def addPollable [DecidableEq P] (s : State P n) (p : P) : State P n :=
  { s with
    pollables := s.pollables ++ [⟨s.next, some p, 0⟩]
    pos := Function.update s.pos p s.next
    next := s.next + 1
    log := .add p s.next :: s.log }

/-- `Poll_loop_impl::remove_pollable`. -/
def removePollable (s : State P n) (p : P) : State P n :=
  match deref s.pollables (s.pos p) with
  | none => s.assert false
  | some ref =>
    let s := s.assert ref.pollable.isSome
    { s with
      pollables :=
        if ref.refCnt = 0 then erase s.pollables (s.pos p)
        else modify s.pollables (s.pos p) fun ref => { ref with pollable := none }
      log := .remove p (s.pos p) :: s.log }

/-- The state the constructor leaves. -/
def init (P : Type) (n : ℕ) (pos : P → ℕ) : State P n where
  pc := fun t => if t = Fin.last n then .outside else .dormant
  pollingThread := none
  dormantThreads := ((List.finRange n).map Fin.castSucc).reverse
  pollables := []
  pos := pos
  next := 0
  running := none
  ok := true
  log := []

end State

/-- What the threads and the code outside the pool do: `visit` is the running thread at the head
of one of its loops, and `ret` the end of the `poll()` or `wait()` it is in. -/
inductive Act (P : Type) (n : ℕ) where
  | run
  | resume (t : Fin (n + 1))
  | visit
  | add (p : P)
  | remove (p : P)
  | block
  | ret (progress : Bool)

namespace State

variable {P : Type} {n : ℕ}

/-- `Poll_loop_impl::run`. -/
def run (s : State P n) : State P n :=
  { s with pollingThread := some (Fin.last n), running := some (Fin.last n) }.loopTop (Fin.last n)

/-- A thread that was blocked, or had yielded, goes on. -/
def resume (s : State P n) (t : Fin (n + 1)) : Option (State P n) :=
  let s := { s with running := some t }
  match s.pc t with
  | .woken =>
    let s := s.assert (s.pollingThread = some t)
    some ((s.assert (s.pollingThread = some t)).goto t (.servicing (begin s.pollables) false))
  | .polling _ _ _ => some s
  | .yielding =>
    some ((s.assert (s.pollingThread = some t)).goto t (.servicing (begin s.pollables) false))
  | .waiting => some (s.loopTop t)
  | _ => none

/-- The running thread at the head of a loop. -/
def visit (s : State P n) (t : Fin (n + 1)) : Option (State P n) :=
  match s.pc t with
  | .servicing none progress => some (s.serviced t progress)
  | .servicing (some i) progress =>
    let s := s.reference i
    match deref s.pollables i with
    | none => some (s.assert false)
    | some ⟨_, some p, _⟩ =>
      some ({ s with log := .poll p :: s.log }.goto t (.polling i progress true))
    | some ⟨_, none, _⟩ =>
      let (i, s) := s.unreference i
      some (s.nextPollable t i progress)
  | .waitLoop none => some (s.stopAt t .waiting)
  | .waitLoop (some i) =>
    let s := s.reference i
    match deref s.pollables i with
    | none => some (s.assert false)
    | some ⟨_, some p, _⟩ => some ({ s with log := .wait p :: s.log }.goto t (.inWait i))
    | some ⟨_, none, _⟩ =>
      let (i, s) := s.unreference i
      some (s.goto t (.waitLoop i))
  | _ => none

/-- The running thread blocks in a `poll()`, or yields there. -/
def block (s : State P n) (t : Fin (n + 1)) : Option (State P n) :=
  match s.pc t with
  | .polling i progress true =>
    some ((s.appointPollingThread i).stopAt t (.polling i progress false))
  | .polling _ _ false => some { s with running := none }
  | _ => none

/-- The `poll()` or `wait()` of the running thread returns. -/
def ret (s : State P n) (t : Fin (n + 1)) (result : Bool) : Option (State P n) :=
  match s.pc t with
  | .polling i progress _ =>
    let (i, s) := s.unreference i
    some (s.nextPollable t i (progress || result))
  | .inWait i =>
    let (i, s) := s.unreference i
    some (s.goto t (.waitLoop i))
  | _ => none

/-- One step.  A pollable is added when it is not in the list, and removed when it is. -/
def step [DecidableEq P] (s : State P n) : Act P n → Option (State P n)
  | .run => if s.running = none ∧ s.pc (Fin.last n) = .outside then some s.run else none
  | .resume t => if s.running = none then s.resume t else none
  | .visit => s.running.bind s.visit
  | .add p => if s.callable ∧ ¬ s.registered p then some (s.addPollable p) else none
  | .remove p => if s.callable ∧ s.registered p then some (s.removePollable p) else none
  | .block => s.running.bind s.block
  | .ret progress => s.running.bind fun t => s.ret t progress

end State

end NoxClassic.PollLoop
