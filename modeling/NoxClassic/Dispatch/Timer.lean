/-
# The timer dispatcher

`Timer_dispatcher` in `src/lib/timer-dispatcher.cc`.  A posted timer waits in
`applicants` until the next `poll()` admits it to `timers`, a `std::set` in
order of time and generation; `all_timers` holds both.  `poll()` fires the timers
of the set from its front while they have expired.  A callback runs in the
middle of that loop and may post, cancel, delay or reset any timer, block, and so
let another thread run `poll()`, or call it itself; as in the event dispatcher,
`serial` tells the suspended activation to stop.

`Timer_impl` objects live on a heap and are named by their address, which
`new` may give out again after a `delete`: `post` takes any free address.  The
set is kept in the order its comparator saw at each insertion, and is searched
with the comparator, through the time stored in the objects, as `std::set` does.
`Act.ret` is everything between the return of a callback and the next one
entered, or the end of the activation.

`serial` and `generation` are `unsigned int`s and wrap.  `uid` numbers the posts;
it tells timers apart where addresses and generations are used again, and no
function reads it.
-/

import NoxClassic.Lib.Run
import NoxClassic.Dispatch.Timeval
import Mathlib.Data.UInt

namespace NoxClassic.Dispatch

/-- `Timer_impl`, without the callback, which any action list may play. -/
structure TimerImpl where
  uid : ℕ
  time : Timeval
  admitted : Bool
  generation : UInt32

/-- `Compare_timer`. -/
def compareTimer (lhs rhs : TimerImpl) : Bool :=
  if lhs.time ≠ rhs.time then lhs.time < rhs.time else lhs.generation < rhs.generation

/-- The objects on the heap by their address. -/
abbrev Heap := ℕ → Option TimerImpl

/-- `Compare_timer` on pointers. -/
def Heap.less (heap : Heap) (lhs rhs : ℕ) : Bool :=
  match heap lhs, heap rhs with
  | some x, some y => compareTimer x y
  | _, _ => false

/-- `Timer_queue::insert`: in order, and not where an equivalent timer is. -/
def Heap.insert (heap : Heap) (t : ℕ) : List ℕ → List ℕ
  | [] => [t]
  | u :: us =>
    if heap.less t u then t :: u :: us
    else if heap.less u t then u :: heap.insert t us
    else u :: us

/-- `Timer_queue::erase`: the timer the comparator holds equivalent to `t`. -/
def Heap.erase (heap : Heap) (t : ℕ) : List ℕ → List ℕ
  | [] => []
  | u :: us =>
    if heap.less u t then u :: heap.erase t us
    else if heap.less t u then u :: us
    else us

/-- `hash_set::insert`. -/
def setInsert (t : ℕ) (s : List ℕ) : List ℕ := if t ∈ s then s else t :: s

/-- `Timer_dispatcher_impl`, with the heap, `next_generation` and the time of day
that `do_gettimeofday()` has cached. -/
structure TimerDispatcher where
  heap : Heap
  timers : List ℕ
  applicants : List ℕ
  allTimers : List ℕ
  serial : UInt32
  nextGeneration : UInt32
  clock : Timeval

/-- `*heap[t]` is changed. -/
def TimerDispatcher.setImpl (d : TimerDispatcher) (t : ℕ) (impl : TimerImpl) : TimerDispatcher :=
  { d with heap := Function.update d.heap t (some impl) }

/-- `Timer_dispatcher::post`, the `uid`-th one, with the object at `t`. -/
def TimerDispatcher.post (d : TimerDispatcher) (uid t : ℕ) (duration : Timeval) : TimerDispatcher :=
  let generation := d.nextGeneration + 1
  { d.setImpl t { uid, time := d.clock + duration, admitted := false, generation } with
    applicants := setInsert t d.applicants
    allTimers := setInsert t d.allTimers
    nextGeneration := generation }

/-- `Timer_impl::cancel`. -/
def TimerDispatcher.cancel (d : TimerDispatcher) (t : ℕ) (impl : TimerImpl) : TimerDispatcher :=
  if impl.admitted then
    { d with timers := d.heap.erase t d.timers, allTimers := d.allTimers.erase t }.setImpl t
      { impl with admitted := false }
  else { d with applicants := d.applicants.erase t, allTimers := d.allTimers.erase t }

/-- `Timer_impl::set_timeout`. -/
def TimerDispatcher.setTimeout (d : TimerDispatcher) (t : ℕ) (impl : TimerImpl) (when : Timeval) :
    TimerDispatcher :=
  let d := (d.cancel t impl).setImpl t { impl with admitted := false, time := when }
  { d with applicants := setInsert t d.applicants, allTimers := setInsert t d.allTimers }

/-- `Timer_impl::delay`. -/
def TimerDispatcher.delay (d : TimerDispatcher) (t : ℕ) (impl : TimerImpl) (neg : Bool)
    (delta : Timeval) : TimerDispatcher :=
  d.setTimeout t impl (if neg then impl.time - delta else impl.time + delta)

/-- `Timer_impl::reset`. -/
def TimerDispatcher.reset (d : TimerDispatcher) (t : ℕ) (impl : TimerImpl) (delta : Timeval) :
    TimerDispatcher :=
  d.setTimeout t impl (d.clock + delta)

/-- `check_validity`: the object a `Timer` handle names, if it is still the one
the handle was made for. -/
def TimerDispatcher.valid (d : TimerDispatcher) (t : ℕ) (generation : UInt32) : Option TimerImpl :=
  if t ∈ d.allTimers then (d.heap t).filter fun impl => impl.generation = generation else none

/-- The applicants are marked as admitted. -/
def TimerDispatcher.markAdmitted (d : TimerDispatcher) : TimerDispatcher :=
  { d with heap := fun t => if t ∈ d.applicants
      then (d.heap t).map fun impl => { impl with admitted := true } else d.heap t }

/-- `poll()` up to its loop: the time is taken, the applicants are admitted and
the serial number is bumped. -/
def TimerDispatcher.admitApplicants (d : TimerDispatcher) (now : Timeval) : TimerDispatcher :=
  let d := d.markAdmitted
  { d with
    timers := d.applicants.foldl (fun timers t => d.heap.insert t timers) d.timers
    applicants := []
    serial := d.serial + 1
    clock := now }

/-- A `poll()` suspended in a callback: its number, its local `serial` and `now`,
and the timer it fires, which is deleted when the callback returns. -/
structure TimerActivation where
  no : ℕ
  serial : UInt32
  now : Timeval
  timer : ℕ

/-- What happened to a timer, or that a poll began. -/
inductive Obs where
  | posted (uid : ℕ)
  | retimed (uid : ℕ)
  | cancelled (uid : ℕ)
  | began (no : ℕ)
  | fired (no uid : ℕ) (time : Timeval) (generation : UInt32) (now : Timeval)
  deriving DecidableEq

/-- The dispatcher with its suspended activations, how many timers were posted and
polls begun, and what happened so far, the newest first. -/
structure TimerWorld where
  dispatcher : TimerDispatcher
  active : List TimerActivation
  posts : ℕ
  polls : ℕ
  log : List Obs

/-- A dispatcher just constructed. -/
def TimerWorld.initial (clock : Timeval) : TimerWorld where
  dispatcher := { heap := fun _ => none, timers := [], applicants := [], allTimers := [],
                  serial := 0, nextGeneration := 0, clock }
  active := []
  posts := 0
  polls := 0
  log := []

/-- One turn of the loop of `poll()` number `no`: the first timer is taken out of the
sets and its callback entered, unless it has not expired. -/
def TimerWorld.fire (w : TimerWorld) (no : ℕ) (serial : UInt32) (now : Timeval) : TimerWorld :=
  match w.dispatcher.timers with
  | [] => w
  | t :: timers =>
    match w.dispatcher.heap t with
    | none => w
    | some impl =>
      if now ≤ impl.time then w
      else
        { w with
          dispatcher.timers := timers
          dispatcher.allTimers := w.dispatcher.allTimers.erase t
          active := { no, serial, now, timer := t } :: w.active
          log := .fired no impl.uid impl.time impl.generation now :: w.log }

/-- `poll()` from its start. -/
def TimerWorld.poll (w : TimerWorld) (now : Timeval) : TimerWorld :=
  let w' := { w with
    dispatcher := w.dispatcher.admitApplicants now
    polls := w.polls + 1
    log := .began w.polls :: w.log }
  w'.fire w.polls w'.dispatcher.serial now

/-- The callback of activation `a` returns, or leaks a `std::exception`: the timer is
deleted and the loop goes on, unless another `poll()` has begun since. -/
def TimerWorld.ret (w : TimerWorld) (a : TimerActivation) : TimerWorld :=
  let w' := { w with
    dispatcher.heap := Function.update w.dispatcher.heap a.timer none
    active := w.active.filter fun b => b.no ≠ a.no }
  if a.serial ≠ w.dispatcher.serial then w' else w'.fire a.no a.serial a.now

/-- What callbacks and other threads can do. -/
inductive TimerAct where
  | tick (now : Timeval)
  | post (t : ℕ) (duration : Timeval)
  | cancel (t : ℕ) (generation : UInt32)
  | delay (t : ℕ) (generation : UInt32) (neg : Bool) (delta : Timeval)
  | reset (t : ℕ) (generation : UInt32) (delta : Timeval)
  | poll (now : Timeval)
  | ret (no : ℕ)
  | throw (no : ℕ)

/-- One step.  The clock does not go back; a stale handle does nothing; an exception that is
no `std::exception` leaves `poll()` and leaks its timer. -/
def TimerWorld.step (w : TimerWorld) : TimerAct → Option TimerWorld
  | .tick now => if w.dispatcher.clock ≤ now then some { w with dispatcher.clock := now } else none
  | .post t duration =>
    if w.dispatcher.heap t = none then
      some { w with
        dispatcher := w.dispatcher.post (w.posts + 1) t duration
        posts := w.posts + 1
        log := .posted (w.posts + 1) :: w.log }
    else none
  | .cancel t generation =>
    match w.dispatcher.valid t generation with
    | none => some w
    | some impl =>
      let d := w.dispatcher.cancel t impl
      some { w with
        dispatcher := { d with heap := Function.update d.heap t none }
        log := .cancelled impl.uid :: w.log }
  | .delay t generation neg delta =>
    match w.dispatcher.valid t generation with
    | none => some w
    | some impl =>
      some { w with
        dispatcher := w.dispatcher.delay t impl neg delta
        log := .retimed impl.uid :: w.log }
  | .reset t generation delta =>
    match w.dispatcher.valid t generation with
    | none => some w
    | some impl =>
      some { w with
        dispatcher := w.dispatcher.reset t impl delta
        log := .retimed impl.uid :: w.log }
  | .poll now => if w.dispatcher.clock ≤ now then some (w.poll now) else none
  | .ret no => (w.active.find? fun a => a.no = no).map w.ret
  | .throw no =>
    if w.active.any fun a => a.no = no
    then some { w with active := w.active.filter fun a => a.no ≠ no } else none

end NoxClassic.Dispatch
