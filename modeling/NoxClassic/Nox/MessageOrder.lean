/-
# Messages between a join and a leave

`register_switch`, `Conn::close` and `Conn::do_poll` (`src/builtin/nox.cc`),
`Event_dispatcher` (`src/lib/event-dispatcher.cc`) and the poll loop, together.  That a
connection joined or left is posted, and dispatched by the `poll()` of the event
dispatcher; the messages of the connection are dispatched by its own `poll()`.  Both are
pollables of one loop, and the handlers they call may block.

A connection is registered by a state machine, which runs when every thread of the pool is
suspended, and is added behind the dispatcher.  So when nothing is suspended in the
dispatcher, it is polled before the connection, and dispatches all that was posted
(`dispatched_between`).  A handler of an earlier event that blocks lets the loop go on
behind the dispatcher, and then the connection is polled first; and a handler of a message
that blocks goes on when the connection was closed and its leave dispatched
(`dispatched_outside`).

Connections are numbered as they are registered; a management channel is registered in the
same way.  `closes` are the connections that are closed during a registration: an older one
with the same id, and those that handlers of the command that clears the flow table ask
for.  Handlers are arbitrary: they post events, close connections, add and remove other
pollables and block, in any number.  `other 0` is the timer dispatcher.
-/

import NoxClassic.PollLoop.Order

namespace NoxClassic.Nox.MessageOrder

open Function List Option PollLoop Lib

open PollLoop (Live)

inductive Pollable where
  | dispatcher
  | conn (c : ℕ)
  | other (k : ℕ)
  deriving DecidableEq

inductive Event where
  | join (c : ℕ)
  | leave (c : ℕ)
  | other
  deriving DecidableEq

/-- The `poll()` a thread is in: that of the dispatcher, with its `serial`, its `max`, the rounds
that are left and the event that is being dispatched; that of a connection, before and after a
message was received; or none of these. -/
inductive Task where
  | dispatching (serial : UInt32) (max left : ℕ) (event : Option Event)
  | receiving (c : ℕ)
  | giving (c : ℕ)
  | free
  deriving DecidableEq

/-- The connection that `recv_openflow` is called for. -/
def Task.conn? : Task → Option ℕ
  | .receiving c => some c
  | _ => none

/-- The thread is in the dispatcher. -/
def Task.dispatches : Task → Bool
  | .dispatching _ _ _ _ => true
  | _ => false

/-- The connection whose join is being dispatched. -/
def Task.joins : Task → Option ℕ
  | .dispatching _ _ _ (some (.join c)) => some c
  | _ => none

/-- What the results speak of: the dispatch of a join has ended, that of a leave has begun, and a
handler was given an event built from a message. -/
inductive Note where
  | joined (c : ℕ)
  | leaving (c : ℕ)
  | given (c : ℕ)
  deriving DecidableEq

/-- What the begin of a dispatch is, of what the results speak of. -/
def Event.begun : Event → List Note
  | .leave c => [.leaving c]
  | _ => []

/-- What the end of a dispatch is. -/
def Event.ended : Event → List Note
  | .join c => [.joined c]
  | _ => []

/-- The loop with `n + 1` threads, the dispatcher and the connections. -/
structure State (n : ℕ) where
  loop : PollLoop.State Pollable n
  queue : List Event
  serial : UInt32
  task : Fin (n + 1) → Task
  closing : ℕ → Bool
  next : ℕ
  log : List Note

namespace State

variable {n : ℕ}

/-- The state that `nox::init` leaves. -/
def init (n : ℕ) : State n where
  loop :=
    ((PollLoop.State.init Pollable n fun _ => 0).addPollable .dispatcher).addPollable (.other 0)
  queue := []
  serial := 0
  task := fun _ => .free
  closing := fun _ => false
  next := 0
  log := []

def setTask (s : State n) (t : Fin (n + 1)) (k : Task) : State n :=
  { s with task := Function.update s.task t k }

/-- `Event_dispatcher::post`. -/
def post (s : State n) (e : Event) : State n := { s with queue := s.queue ++ [e] }

/-- `Conn::close`; a request finds a connection that is registered and was not closed. -/
def close (s : State n) (c : ℕ) : State n :=
  if c < s.next ∧ s.closing c = false then
    { s.post (.leave c) with
      closing := Function.update s.closing c true
      loop := s.loop.removePollable (.conn c) }
  else s

/-- `register_conn`, and the rest of `register_switch`. -/
def register (s : State n) (closes : List ℕ) : State n :=
  let added := { s with loop := s.loop.addPollable (.conn s.next), next := s.next + 1 }
  (closes.foldl close added).post (.join s.next)

/-- Code outside the pool, or a handler, or the call of another pollable runs. -/
def calls (s : State n) : Bool :=
  s.loop.callable &&
    match s.loop.running with
    | none => true
    | some t =>
      match s.task t with
      | .dispatching _ _ _ (some _) | .giving _ | .free => true
      | _ => false

/-- The beginning of a `poll()`. -/
def enter (s : State n) : Option Pollable → Task
  | some .dispatcher => .dispatching (s.serial + 1) s.queue.length s.queue.length none
  | some (.conn c) => .receiving c
  | _ => .free

/-- The thread goes on at the head of a loop, where it may call a pollable. -/
def visit (s : State n) (t : Fin (n + 1)) : Option (State n) :=
  (s.loop.step .visit).map fun loop =>
    let p := loop.atPoll.bind fun i =>
      (PollLoop.deref loop.pollables i).bind PollLoop.PollableRef.pollable
    { s.setTask t (s.enter p) with
      loop := loop
      serial := if p = some .dispatcher then s.serial + 1 else s.serial }

/-- The next round of `Event_dispatcher::poll`, up to the first handler. -/
def pop (s : State n) (t : Fin (n + 1)) : Option (State n) :=
  match s.task t, s.queue with
  | .dispatching serial max (left + 1) none, e :: queue =>
    some { s.setTask t (.dispatching serial max left (some e)) with
      queue := queue, log := e.begun ++ s.log }
  | _, _ => none

/-- The end of `dispatch(*event)`, and the check after it. -/
def dispatched (s : State n) (t : Fin (n + 1)) : Option (State n) :=
  match s.task t with
  | .dispatching serial max left (some e) =>
    let left := if serial ≠ s.serial then 0 else left
    some { s.setTask t (.dispatching serial max left none) with log := e.ended ++ s.log }
  | _ => none

/-- The `poll()` or `wait()` that the thread is in returns. -/
def ret (s : State n) (t : Fin (n + 1)) (result : Bool) : Option (State n) :=
  (s.loop.step (.ret result)).map fun loop => { s.setTask t .free with loop := loop }

end State

/-- What happens: the actions of the loop; in a `poll()` of the dispatcher, the begin and the end of
a dispatch; in one of a connection, the outcome of `recv_openflow` other than `EAGAIN`, and the call
of a handler; and what handlers, and code outside the pool, do. -/
inductive Act (n : ℕ) where
  | run
  | resume (t : Fin (n + 1))
  | visit
  | block
  | ret (result : Bool)
  | pop
  | dispatched
  | recv
  | recvError
  | give
  | post
  | close (c : ℕ)
  | register (closes : List ℕ)
  | add (k : ℕ)
  | remove (k : ℕ)

namespace State

variable {n : ℕ}

/-- One step of the thread that runs. -/
def threadStep (s : State n) (t : Fin (n + 1)) : Act n → Option (State n)
  | .visit => s.visit t
  | .block =>
    if s.calls then (s.loop.step .block).map fun loop => { s with loop := loop } else none
  | .ret result =>
    match s.task t with
    | .dispatching _ max 0 none => s.ret t (0 < max)
    | .dispatching _ _ _ _ => none
    | .receiving _ => s.ret t false
    | .giving _ => s.ret t true
    | .free => s.ret t result
  | .pop => s.pop t
  | .dispatched => s.dispatched t
  | .recv =>
    match s.task t with
    | .receiving c => some (s.setTask t (.giving c))
    | _ => none
  | .recvError =>
    match s.task t with
    | .receiving c => ((s.setTask t .free).close c).ret t true
    | _ => none
  | .give =>
    match s.task t with
    | .giving c => some { s with log := .given c :: s.log }
    | _ => none
  | _ => none

/-- One step. -/
def step (s : State n) : Act n → Option (State n)
  | .run => (s.loop.step .run).map fun loop => { s with loop := loop }
  | .resume t => (s.loop.step (.resume t)).map fun loop => { s with loop := loop }
  | .post => if s.calls then some (s.post .other) else none
  | .close c => if s.calls then some (s.close c) else none
  | .register closes => if s.loop.running = none then some (s.register closes) else none
  | .add k =>
    if s.calls then (s.loop.step (.add (.other k))).map fun loop => { s with loop := loop }
    else none
  | .remove k =>
    if s.calls then (s.loop.step (.remove (.other k))).map fun loop => { s with loop := loop }
    else none
  | a => s.loop.running.bind fun t => s.threadStep t a

/-! ### The condition -/

/-- No `poll()` of the connection is suspended. -/
def Closable (s : State n) (c : ℕ) : Prop :=
  ∀ t, s.loop.running ≠ some t → s.task t ≠ .giving c

/-- The thread may be suspended: it is not in the dispatcher, and not in the `poll()` of a
connection that was closed. -/
def mayBlock (s : State n) : Task → Bool
  | .dispatching _ _ _ _ => false
  | .giving c => !s.closing c
  | .receiving _ | .free => true

/-- No handler blocks in the `poll()` of the dispatcher, and no `poll()` of a connection is
suspended while the connection is closed. -/
def Heeds (s : State n) : Act n → Prop
  | .block => ∀ t, s.loop.running = some t → s.mayBlock (s.task t) = true
  | .recvError => ∀ t, s.loop.running = some t → ∀ c ∈ (s.task t).conn?, s.Closable c
  | .close c => s.Closable c
  | .register closes => ∀ c ∈ closes, s.Closable c
  | _ => True

end State

/-! ### The invariant -/

/-- Every event built from a message was given after the join, and before the leave. -/
def Within : List Note → Prop
  | [] => True
  | .given c :: log => (.joined c ∈ log ∧ .leaving c ∉ log) ∧ Within log
  | _ :: log => Within log

theorem Within.split {c : ℕ} {newer older : List Note} (h : Within (newer ++ .given c :: older)) :
    .joined c ∈ older ∧ .leaving c ∉ older := by
  induction newer with
  | nil => exact h.1
  | cons note newer ih =>
    cases note with
    | given d => exact ih h.2
    | joined | leaving => exact ih h

section Invariant

variable {n : ℕ}

/-- What holds of a thread that does this.  A thread in the dispatcher runs, and no join is behind
the events it will dispatch. -/
def TaskOk (s : State n) (t : Fin (n + 1)) : Task → Prop
  | .dispatching serial _ left _ =>
    s.loop.running = some t ∧ s.loop.atPoll = some (s.loop.pos .dispatcher) ∧
      serial = s.serial ∧ ∀ c, .join c ∉ s.queue.drop left
  | .receiving c => s.loop.running = some t ∧ .joined c ∈ s.log ∧ s.closing c = false
  | .giving c => .joined c ∈ s.log ∧ .leaving c ∉ s.log ∧
      (s.closing c = true → s.loop.running = some t)
  | .free => True

/-- The invariant; `pending` is the connection whose join is still to be posted.  The join of a
connection that is in the list was dispatched, or is being dispatched, or is in the queue and the
dispatcher is ahead of the connection. -/
structure Inv (pending : Option ℕ) (s : State n) : Prop where
  loop : PollLoop.Inv s.loop
  dispatcher : Live .dispatcher s.loop.log
  live : ∀ c, Live (.conn c) s.loop.log ↔ c < s.next ∧ s.closing c = false
  fresh : ∀ c, s.next ≤ c → s.closing c = false
  leaves : ∀ c, .leave c ∈ s.queue ∨ .leaving c ∈ s.log → s.closing c = true
  polled : ∀ t, s.loop.running = some t → s.loop.atPoll = some (s.loop.pos .dispatcher) →
    (s.task t).dispatches = true
  tasks : ∀ t, TaskOk s t (s.task t)
  order : ∀ c, Live (.conn c) s.loop.log → .joined c ∈ s.log ∨
    (∃ t, (s.task t).joins = some c) ∨ (.join c ∈ s.queue ∨ pending = some c) ∧
      [s.loop.pos .dispatcher, s.loop.pos (.conn c)].Sublist s.loop.rest
  within : Within s.log

variable {pending : Option ℕ} {s s' : State n} {t u : Fin (n + 1)} {k : Task} {c : ℕ}

theorem inv_init (n : ℕ) : Inv none (State.init n) := by
  have hloop := (PollLoop.inv_init (n := n) fun _ : Pollable => 0).add (p := .dispatcher) rfl
  refine ⟨hloop.add (by rfl), .inr (.inl rfl), fun c => ?_, fun _ _ => rfl, nofun, nofun,
    fun _ => trivial, fun c hc => ?_, trivial⟩
  · exact iff_of_false (by rintro (h | h | h) <;> cases h) (by rintro ⟨h, -⟩; nomatch h)
  · rcases hc with h | h | h <;> cases h

theorem Inv.task (h : Inv pending s) (ht : s.task t = k) : TaskOk s t k := ht ▸ h.tasks t

theorem State.setTask_task (s : State n) (t : Fin (n + 1)) (k : Task) :
    (s.setTask t k).task t = k := update_self _ _ _

/-- A suspended thread keeps what holds of it, whatever the others do. -/
theorem Inv.still (h : Inv pending s) (ht : s.loop.running ≠ some t)
    (hlog : ∀ c, .joined c ∈ s.log → .joined c ∈ s'.log)
    (hclosed : ∀ c, .leaving c ∈ s'.log ∨ s'.closing c = true → s.closing c = true) :
    TaskOk s' t (s.task t) := by
  cases hk : s.task t with
  | dispatching | receiving => exact absurd (h.task hk).1 ht
  | giving c =>
    have hopen (hc : .leaving c ∈ s'.log ∨ s'.closing c = true) : False :=
      ht ((h.task hk).2.2 (hclosed c hc))
    exact ⟨hlog c (h.task hk).1, fun hc => hopen (.inl hc), fun hc => (hopen (.inr hc)).elim⟩
  | free => trivial

theorem running_ne (hrun : s.loop.running = some t) (hut : u ≠ t) : s.loop.running ≠ some u :=
  fun hu => hut (some.inj (hu.symm.trans hrun))

theorem Task.dispatches_of_joins (h : k.joins = some c) : k.dispatches = true := by
  cases k with
  | dispatching serial max left event => rfl
  | _ => nomatch h

/-- Only the thread that runs is in the dispatcher. -/
theorem Inv.running_of_dispatches (h : Inv pending s) (ht : (s.task t).dispatches = true) :
    s.loop.running = some t := by
  cases heq : s.task t with
  | dispatching serial max left event => exact (h.task heq).1
  | _ => rw [heq] at ht; nomatch ht

variable {a : PollLoop.Act Pollable n} {loop : PollLoop.State Pollable n}
    {task : Fin (n + 1) → Task}

/-- The thread that runs changes what it does. -/
theorem Inv.tasks_of (h : Inv pending s) (hrun : s.loop.running = some t)
    (htask : ∀ u, u ≠ t → task u = s.task u) (hok : TaskOk s' t (task t))
    (hlog : ∀ c, .joined c ∈ s.log → .joined c ∈ s'.log)
    (hclosed : ∀ c, .leaving c ∈ s'.log ∨ s'.closing c = true → s.closing c = true)
    (u : Fin (n + 1)) : TaskOk s' u (task u) := by
  by_cases hut : u = t
  · exact hut ▸ hok
  · rw [htask u hut]
    exact h.still (running_ne hrun hut) hlog hclosed

theorem Inv.closed (h : Inv pending s) (c : ℕ) (hc : .leaving c ∈ s.log ∨ s.closing c = true) :
    s.closing c = true := hc.elim (fun hc => h.leaves c (.inr hc)) id

/-- **An action of the loop.**  The queue, the connections and what happened are as before. -/
theorem Inv.moved (h : Inv none s)
    (ha : a.quiet = true) (hs : s.loop.step a = some loop)
    {serial : UInt32} (hjoin : ∀ t, (s.task t).joins = none)
    (hends : a.ends = true → s.loop.atPoll = some (s.loop.pos .dispatcher) → ∀ c, .join c ∉ s.queue)
    (hpolled : ∀ t, loop.running = some t → loop.atPoll = some (loop.pos .dispatcher) →
      (task t).dispatches = true)
    (htasks : ∀ t, TaskOk { s with loop := loop, task := task, serial := serial } t (task t)) :
    Inv none { s with loop := loop, task := task, serial := serial } := by
  have hquiet := quiet_step h.loop ha hs
  refine ⟨h.loop.step hs, (hquiet.live _).2 h.dispatcher, fun c => (hquiet.live _).trans (h.live c),
    h.fresh, h.leaves, hpolled, htasks, fun c hc => ?_, h.within⟩
  rcases h.order c ((hquiet.live _).1 hc) with hjoined | ⟨t, ht⟩ | ⟨hqueue, hsub⟩
  · exact .inl hjoined
  · nomatch (hjoin t).symm.trans ht
  · refine .inr (.inr ⟨hqueue, ?_⟩)
    refine order_step h.loop hs (fun he hat => ?_) h.dispatcher ((hquiet.live _).1 hc)
      ((hquiet.live _).2 h.dispatcher) hc hsub
    exact hends he hat c (hqueue.resolve_right nofun)

/-- No thread joins a connection when none is in the dispatcher. -/
theorem joins_eq_none (h : ∀ t, (s.task t).dispatches = false) (t : Fin (n + 1)) :
    (s.task t).joins = none := by
  refine eq_none_iff_forall_ne_some.2 fun c hc => ?_
  nomatch (h t).symm.trans (Task.dispatches_of_joins hc)

section

variable (h : Inv none s)
include h

/-- No thread of the pool runs, and one goes on. -/
theorem Inv.wake (ha : a.quiet = true ∧ a.ends = false ∧ a ≠ .visit)
    (hrun : s.loop.running = none) (hs : s.loop.step a = some loop) :
    Inv none { s with loop := loop } := by
  have hnone (t : Fin (n + 1)) : s.loop.running ≠ some t := by rw [hrun]; exact nofun
  refine h.moved ha.1 hs (joins_eq_none fun t => ?_) (fun he => nomatch he.symm.trans ha.2.1)
    (fun t _ hat => ?_) fun t => h.still (hnone t) (fun _ => id) h.closed
  · exact Bool.eq_false_iff.2 fun ht => hnone t (h.running_of_dispatches ht)
  · nomatch ((quiet_step h.loop ha.1 hs).atPoll ha.2.2).symm.trans hat

section

variable (hrun : s.loop.running = some t)
include hrun

/-- A thread that runs is suspended. -/
theorem Inv.block (hcalls : s.calls = true)
    (hmay : s.mayBlock (s.task t) = true)
    (hs : s.loop.step .block = some loop) : Inv none { s with loop := loop } := by
  have hnot (u : Fin (n + 1)) : (s.task u).dispatches = false := by
    refine Bool.eq_false_iff.2 fun hu => ?_
    obtain rfl := some.inj (hrun.symm.trans (h.running_of_dispatches hu))
    cases heq : s.task t with
    | dispatching serial max left event => rw [heq] at hmay; nomatch hmay
    | _ => rw [heq] at hu; nomatch hu
  refine h.moved rfl hs (joins_eq_none hnot) (fun _ hat => ?_) (fun u _ hat => ?_)
    (h.tasks_of hrun (fun _ _ => rfl) ?_ (fun _ => id) h.closed)
  · nomatch (hnot t).symm.trans (h.polled t hrun hat)
  · nomatch ((quiet_step h.loop rfl hs).atPoll nofun).symm.trans hat
  unfold State.calls at hcalls
  rw [hrun] at hcalls
  cases htask : s.task t with
  | dispatching serial max left event => rw [htask] at hmay; nomatch hmay
  | receiving c => simp [htask] at hcalls
  | giving c =>
    refine ⟨(h.task htask).1, (h.task htask).2.1, fun hc => ?_⟩
    simp [htask, State.mayBlock, show s.closing c = true from hc] at hmay
  | free => trivial

/-- A `poll()` or `wait()` returns; that of the dispatcher when nothing is left. -/
theorem Inv.ret {result : Bool}
    (hdone : ∀ c, (s.task t).joins ≠ some c ∧ ((s.task t).dispatches = true → .join c ∉ s.queue))
    (hs : s.ret t result = some s') : Inv none s' := by
  obtain ⟨loop, hstep, rfl⟩ := map_eq_some_iff.1 hs
  refine h.moved rfl hstep (fun u => ?_) (fun _ hat c => (hdone c).2 (h.polled t hrun hat))
    (fun u _ hat => ?_)
    (h.tasks_of hrun (fun u hu => update_of_ne hu _ _) ?_ (fun _ => id) h.closed)
  · refine eq_none_iff_forall_ne_some.2 fun c hc => ?_
    have hu := h.running_of_dispatches (Task.dispatches_of_joins hc)
    obtain rfl := some.inj (hrun.symm.trans hu)
    exact (hdone c).1 hc
  · nomatch ((quiet_step h.loop rfl hstep).atPoll nofun).symm.trans hat
  · rw [State.setTask_task]
    trivial

/-- A thread calls a pollable: a connection only after its join. -/
theorem Inv.visit (hs : s.visit t = some s') :
    Inv none s' := by
  obtain ⟨loop, hstep, rfl⟩ := map_eq_some_iff.1 hs
  have hquiet := quiet_step h.loop rfl hstep
  have hinv := h.loop.step hstep
  have hlive := (hquiet.live _).2 h.dispatcher
  have hnone := joins_eq_none fun u => Bool.eq_false_iff.2 fun hu => by
    cases heq : s.task u with
    | dispatching serial max left event =>
      nomatch (atPoll_of_visit hstep).symm.trans (h.task heq).2.1
    | _ => rw [heq] at hu; nomatch hu
  have hsame {i : ℕ} (hat : loop.atPoll = some i) : loop.running = some t :=
    (hquiet.running.resolve_left (by rw [hat]; exact nofun)).trans hrun
  generalize hp : (loop.atPoll.bind fun i =>
    (deref loop.pollables i).bind PollLoop.PollableRef.pollable) = p
  have hcalled {q : Pollable} (hq : p = some q) :
      loop.atPoll = some (loop.pos q) ∧ Live q loop.log := by
    obtain ⟨i, hat, hi⟩ := bind_eq_some_iff.1 (hp.trans hq)
    obtain ⟨hq, rfl⟩ := hinv.live_of_deref hi
    exact ⟨hat, hq⟩
  refine h.moved rfl hstep hnone nofun (fun u hu hat => ?_)
    (h.tasks_of hrun (fun u hu => update_of_ne hu _ _) ?_ (fun _ => id) h.closed)
  · obtain rfl := some.inj ((hsame hat).symm.trans hu)
    obtain rfl : some .dispatcher = p := by rw [← hp, hat, ← hinv.deref_pos hlive]; rfl
    show (update s.task t _ t).dispatches = true
    rw [update_self]
    rfl
  · rw [State.setTask_task]
    cases p with
    | none => trivial
    | some q =>
      obtain ⟨hat, hq⟩ := hcalled rfl
      cases q with
      | dispatcher =>
        refine ⟨hsame hat, hat, rfl, fun c hc => ?_⟩
        rw [drop_length] at hc
        nomatch hc
      | other k => trivial
      | conn c =>
        have hc := (hquiet.live _).1 hq
        refine ⟨hsame hat, ?_, ((h.live c).1 hc).2⟩
        rcases h.order c hc with hjoined | ⟨v, hv⟩ | ⟨-, hsub⟩
        · exact hjoined
        · nomatch (hnone v).symm.trans hv
        -- the dispatcher would be ahead of the connection that is being polled
        have hne : loop.pos .dispatcher ≠ loop.pos (.conn c) := by
          intro heq
          have hself := hinv.deref_pos hlive
          rw [heq, hinv.deref_pos hq] at hself
          nomatch hself
        exact absurd (order_step h.loop hstep nofun h.dispatcher hc hlive hq hsub)
          (hinv.not_behind hat hne)

/-- **A step of the thread that runs, in its `poll()`.**  The loop and the connections are as
before, and of the events only the one it takes from the queue is lost. -/
theorem Inv.act
    {queue : List Event} {log : List Note} (hok : TaskOk { s with queue, log } t k)
    (hpolled : (s.task t).dispatches = true → k.dispatches = true)
    (hlog : ∀ c, .joined c ∈ s.log → .joined c ∈ log)
    (hleaves : ∀ c, .leave c ∈ queue ∨ .leaving c ∈ log → .leave c ∈ s.queue ∨ .leaving c ∈ s.log)
    (hqueue : ∀ c, .join c ∈ s.queue → k.joins = some c ∨ .join c ∈ queue)
    (hjoins : ∀ c, (s.task t).joins = some c → .joined c ∈ log ∨ k.joins = some c)
    (hwithin : Within log) : Inv none { s.setTask t k with queue, log } := by
  have hself : update s.task t k t = k := update_self _ _ _
  have hother : ∀ u, u ≠ t → update s.task t k u = s.task u := fun u hu => update_of_ne hu _ _
  unfold State.setTask
  generalize update s.task t k = task at hself hother
  subst hself
  have hclosing (c : ℕ) (hc : .leave c ∈ queue ∨ .leaving c ∈ log) : s.closing c = true :=
    h.leaves c (hleaves c hc)
  refine ⟨h.loop, h.dispatcher, h.live, h.fresh, hclosing, fun u hu hat => ?_,
    h.tasks_of hrun hother hok hlog fun c hc => hc.elim (fun hc => hclosing c (.inr hc)) id,
    fun c hc => ?_, hwithin⟩
  · obtain rfl := some.inj (hrun.symm.trans hu)
    exact hpolled (h.polled t hrun hat)
  rcases h.order c hc with hjoined | ⟨u, hu⟩ | ⟨hpend, hsub⟩
  · exact .inl (hlog c hjoined)
  · have hrun' := h.running_of_dispatches (Task.dispatches_of_joins hu)
    obtain rfl := some.inj (hrun.symm.trans hrun')
    exact (hjoins c hu).imp_right fun ht => .inl ⟨t, ht⟩
  · refine .inr ((hqueue c (hpend.resolve_right nofun)).imp (fun ht => ⟨t, ht⟩) fun hq => ?_)
    exact ⟨.inl hq, hsub⟩

theorem Inv.pop (hs : s.pop t = some s') :
    Inv none s' := by
  unfold State.pop at hs
  split at hs
  · rename_i serial max left e queue htask hqueue
    cases hs
    obtain ⟨-, hat, hserial, hwindow⟩ := h.task htask
    rw [hqueue] at hwindow
    refine h.act hrun ⟨hrun, hat, hserial, hwindow⟩ (fun _ => rfl) (fun c => mem_append_right _)
      (fun c hc => ?_) (fun c hc => ?_) (fun c hc => ?_) ?_
    · rw [hqueue]
      rcases hc with hc | hc
      · exact .inl (mem_cons_of_mem e hc)
      rcases mem_append.1 hc with hc | hc
      · cases e with
        | leave d =>
          obtain rfl := Note.leaving.inj (mem_singleton.1 hc)
          exact .inl mem_cons_self
        | _ => nomatch hc
      · exact .inr hc
    · rw [hqueue] at hc
      rcases mem_cons.1 hc with rfl | hc
      · exact .inl rfl
      · exact .inr hc
    · rw [htask] at hc
      nomatch hc
    · cases e <;> exact h.within
  · nomatch hs

theorem Inv.dispatched
    (hs : s.dispatched t = some s') : Inv none s' := by
  unfold State.dispatched at hs
  split at hs
  · rename_i serial max left e htask
    cases hs
    obtain ⟨-, hat, hserial, hwindow⟩ := h.task htask
    refine h.act hrun ?_ (fun _ => rfl) (fun c => mem_append_right _)
      (fun c hc => hc.imp_right fun hc => ?_) (fun c => .inr) (fun c hc => ?_) ?_
    · rw [if_neg (not_not.2 hserial)]
      exact ⟨hrun, hat, hserial, hwindow⟩
    · rcases mem_append.1 hc with hc | hc
      · cases e <;> simp [Event.ended] at hc
      · exact hc
    · rw [htask] at hc
      cases e with
      | join d =>
        obtain rfl : d = c := some.inj hc
        exact .inl (mem_append_left _ (mem_singleton.2 rfl))
      | _ => nomatch hc
    · cases e <;> exact h.within
  · nomatch hs

theorem Inv.recv (ht : s.task t = .receiving c) :
    Inv none (s.setTask t (.giving c)) := by
  have hok := h.task ht
  refine h.act hrun ⟨hok.2.1, fun hc => ?_, fun _ => hrun⟩ (by rw [ht]; nofun) (fun _ => id)
    (fun _ => id) (fun _ => .inr) (by rw [ht]; nofun) h.within
  nomatch hok.2.2.symm.trans (h.leaves c (.inr hc))

theorem Inv.give (ht : s.task t = .giving c) :
    Inv none { s with log := .given c :: s.log } := by
  have hok := h.task ht
  rw [← update_eq_self t s.task, ht]
  refine h.act hrun ⟨mem_cons_of_mem _ hok.1, not_mem_cons_of_ne_of_not_mem nofun hok.2.1, hok.2.2⟩
    (ht ▸ id) (fun _ => mem_cons_of_mem _) (fun d hd => hd.imp_right fun hd => ?_) (fun _ => .inr)
    (fun _ => ht ▸ .inr) ⟨⟨hok.1, hok.2.1⟩, h.within⟩
  exact (mem_cons.1 hd).resolve_left nofun

end

end

variable {pending' : Option ℕ}

/-- **What is posted is posted behind the events of a round**, and a join when no round runs. -/
theorem Inv.post (h : Inv pending s) {e : Event} (hleave : ∀ c, e = .leave c → s.closing c = true)
    (hjoin : ∀ c, e = .join c → s.loop.running = none)
    (hpending : ∀ c, pending = some c → e = .join c ∨ pending' = some c) :
    Inv pending' (s.post e) := by
  refine ⟨h.loop, h.dispatcher, h.live, h.fresh, fun c hc => ?_, h.polled, fun t => ?_,
    fun c hc => (h.order c hc).imp_right (Or.imp_right fun hq => ?_), h.within⟩
  · rcases hc with hc | hc
    · rcases mem_append.1 hc with hc | hc
      · exact h.leaves c (.inl hc)
      · exact hleave c (mem_singleton.1 hc).symm
    · exact h.leaves c (.inr hc)
  · show TaskOk _ t (s.task t)
    cases ht : s.task t with
    | dispatching serial max left event =>
      obtain ⟨hrun, hat, hserial, hwindow⟩ := h.task ht
      refine ⟨hrun, hat, hserial, fun c hc => ?_⟩
      replace hc : .join c ∈ (s.queue ++ [e]).drop left := hc
      rw [drop_append] at hc
      rcases mem_append.1 hc with hc | hc
      · exact hwindow c hc
      · have he := mem_singleton.1 (mem_of_mem_drop hc)
        nomatch hrun.symm.trans (hjoin c he.symm)
    | _ => exact h.task ht
  · refine ⟨?_, hq.2⟩
    rcases hq.1 with hc | hc
    · exact .inl (mem_append_left _ hc)
    · exact (hpending c hc).imp (fun he => mem_append_right _ (by rw [he]; simp)) id

/-- **What is in the list changes**, but for the dispatcher; a new connection is behind it. -/
theorem Inv.relist (h : Inv pending s) {p : Pollable}
    (hs : s.loop.step a = some loop) (ha : a.ends = false)
    (hre : PollLoop.Relisted p s.loop loop) (hp : .dispatcher ≠ p)
    (hdispatcher : Live .dispatcher loop.log) {closing : ℕ → Bool} {next : ℕ}
    (hlive : ∀ c, Live (.conn c) loop.log ↔ c < next ∧ closing c = false)
    (hfresh : ∀ c, next ≤ c → closing c = false)
    (hclosing : ∀ c, s.closing c = true → closing c = true)
    (htasks : ∀ t c, closing c = true → s.closing c = false →
      s.task t ≠ .receiving c ∧ (s.task t = .giving c → s.loop.running = some t))
    (hnew : ∀ c, Live (.conn c) loop.log → Live (.conn c) s.loop.log ∨ pending' = some c ∧
      [loop.pos .dispatcher, loop.pos (.conn c)].Sublist loop.rest)
    (hpending : ∀ c, pending = some c → pending' = some c) :
    Inv pending' { s with loop := loop, closing := closing, next := next } := by
  have hpos := hre.pos _ hp
  refine ⟨h.loop.step hs, hdispatcher, hlive, hfresh, fun c hc => hclosing c (h.leaves c hc),
    fun t hrun hat => h.polled t (hre.running ▸ hrun) (hre.atPoll ▸ hpos ▸ hat), fun t => ?_,
    fun c hc => ?_, h.within⟩
  · cases ht : s.task t with have hok := h.task ht
    | dispatching serial max left event =>
      exact ⟨hre.running.trans hok.1, (hre.atPoll.trans hok.2.1).trans (by rw [hpos]), hok.2.2⟩
    | receiving c =>
      refine ⟨hre.running.trans hok.1, hok.2.1, Bool.eq_false_iff.2 fun hc => ?_⟩
      exact (htasks t c hc hok.2.2).1 ht
    | giving c =>
      refine ⟨hok.1, hok.2.1, fun hc => hre.running.trans ?_⟩
      cases hold : s.closing c with
      | true => exact hok.2.2 hold
      | false => exact (htasks t c hc hold).2 ht
    | free => trivial
  · rcases hnew c hc with hold | hpend
    · refine (h.order c hold).imp_right (Or.imp_right fun hq => ⟨hq.1.imp_right (hpending c), ?_⟩)
      exact order_step h.loop hs (fun he => nomatch he.symm.trans ha) h.dispatcher hold
        hdispatcher hc hq.2
    · exact .inr (.inr ⟨.inr hpend.1, hpend.2⟩)

/-- Other pollables are added and removed. -/
theorem Inv.relist_other (h : Inv none s) {k : ℕ}
    (ha : a = .add (.other k) ∨ a = .remove (.other k))
    (hs : s.loop.step a = some loop) : Inv none { s with loop := loop } := by
  have hlive : PollLoop.Relisted (.other k) s.loop loop ∧
      ∀ q, (∀ j, q ≠ .other j) → (Live q loop.log ↔ Live q s.loop.log) := by
    rcases ha with rfl | rfl
    · obtain ⟨hre, hlive⟩ := add_step hs
      exact ⟨hre, fun q hq => (hlive q).trans (or_iff_right (hq k).symm)⟩
    · obtain ⟨hre, hlive⟩ := remove_step h.loop hs
      exact ⟨hre, fun q hq => (hlive q).trans (and_iff_right (hq k).symm)⟩
  have hconn (c : ℕ) := hlive.2 (.conn c) nofun
  exact h.relist hs (by rcases ha with rfl | rfl <;> rfl) hlive.1 nofun
    ((hlive.2 .dispatcher nofun).2 h.dispatcher) (fun c => (hconn c).trans (h.live c)) h.fresh
    (fun _ => id) (fun t c hc hopen => nomatch hopen.symm.trans hc)
    (fun c hc => .inl ((hconn c).1 hc)) fun _ => id

/-- **A connection is closed**, when none of its `poll()` is suspended. -/
theorem Inv.close (h : Inv pending s) (hcall : s.loop.callable = true) (hclosable : s.Closable c)
    (hrecv : ∀ t, s.task t ≠ .receiving c) : Inv pending (s.close c) := by
  unfold State.close
  split_ifs with hc
  · have hreg : s.loop.registered (.conn c) = true := h.loop.registered_iff.2 ((h.live c).2 hc)
    have hs : s.loop.step (.remove (.conn c)) = some (s.loop.removePollable (.conn c)) :=
      if_pos ⟨hcall, hreg⟩
    obtain ⟨hre, hlive⟩ := remove_step h.loop hs
    have hself : update s.closing c true c = true := update_self _ _ _
    have hother {d : ℕ} (hd : d ≠ c) : update s.closing c true d = s.closing d :=
      update_of_ne hd _ _
    have hclosed : Inv pending { s with
        loop := s.loop.removePollable (.conn c), closing := update s.closing c true } := by
      refine h.relist hs rfl hre nofun ((hlive _).2 ⟨nofun, h.dispatcher⟩) (fun d => ?_)
        (fun d hd => ?_) (fun d hd => ?_) (fun t d hd hopen => ?_)
        (fun d hd => .inl ((hlive _).1 hd).2) fun _ => id
      · rw [hlive, h.live]
        by_cases hd : d = c
        · rw [hd, hself]
          exact iff_of_false (fun hne => hne.1 rfl) fun hn => nomatch hn.2
        · rw [hother hd]
          exact and_iff_right fun heq => hd (Pollable.conn.inj heq).symm
      · rw [hother (ne_of_gt (hc.1.trans_le hd))]
        exact h.fresh d hd
      · by_cases hdc : d = c
        · rw [hdc, hself]
        · rwa [hother hdc]
      · obtain rfl : d = c := by
          by_contra hdc
          nomatch hopen.symm.trans ((hother hdc).symm.trans hd)
        exact ⟨hrecv t, fun ht => not_not.1 fun hrun => hclosable t hrun ht⟩
    exact hclosed.post (fun d hd => Event.leave.inj hd ▸ hself) nofun fun _ => .inr
  · exact h

/-- Closing leaves the threads. -/
theorem State.close_same (s : State n) (c : ℕ) :
    (s.close c).loop.running = s.loop.running ∧ (s.close c).loop.pc = s.loop.pc ∧
      (s.close c).task = s.task := by
  unfold State.close PollLoop.State.removePollable
  split_ifs
  · split <;> exact ⟨rfl, rfl, rfl⟩
  · exact ⟨rfl, rfl, rfl⟩

/-- **A connection is registered**, when no thread of the pool runs: it is behind the dispatcher
when it is added, and its join is posted before a thread runs. -/
theorem Inv.register (h : Inv none s) (hrun : s.loop.running = none) {closes : List ℕ}
    (hclosable : ∀ c ∈ closes, s.Closable c) : Inv none (s.register closes) := by
  have hcallable {r : State n} (hr : r.loop.running = none) : r.loop.callable = true := by
    unfold PollLoop.State.callable
    rw [hr]
  have hidle {pending : Option ℕ} {r : State n} (hinv : Inv pending r) (hr : r.loop.running = none)
      (t : Fin (n + 1)) (c : ℕ) : r.task t ≠ .receiving c :=
    fun ht => nomatch hr.symm.trans (hinv.task ht).1
  have hnext : ¬ Live (.conn s.next) s.loop.log := fun hl => Nat.lt_irrefl _ ((h.live _).1 hl).1
  have hs : s.loop.step (.add (.conn s.next)) = some (s.loop.addPollable (.conn s.next)) :=
    if_pos ⟨hcallable hrun, fun hreg => hnext (h.loop.registered_iff.1 hreg)⟩
  obtain ⟨hre, hlive⟩ := add_step hs
  have hinv := h.loop.step hs
  have hadded : Inv (some s.next) { s with
      loop := s.loop.addPollable (.conn s.next), next := s.next + 1 } := by
    refine h.relist hs rfl hre nofun ((hlive _).2 (.inr h.dispatcher)) (fun c => ?_)
      (fun c hc => h.fresh c (by omega)) (fun _ => id)
      (fun t c hc hopen => nomatch hopen.symm.trans hc) (fun c hc => ?_) nofun
    · rw [hlive, h.live]
      constructor
      · rintro (heq | ⟨hlt, hopen⟩)
        · obtain rfl := Pollable.conn.inj heq
          exact ⟨Nat.lt_succ_self _, h.fresh _ le_rfl⟩
        · exact ⟨Nat.lt_succ_of_lt hlt, hopen⟩
      · rintro ⟨hlt, hopen⟩
        rcases Nat.lt_succ_iff_lt_or_eq.1 hlt with hlt | rfl
        · exact .inr ⟨hlt, hopen⟩
        · exact .inl rfl
    · rcases (hlive _).1 hc with heq | hold
      · obtain rfl := Pollable.conn.inj heq
        refine .inr ⟨rfl, ?_⟩
        have hnodes : nodes (s.loop.addPollable (.conn s.next)).pollables =
          nodes s.loop.pollables ++ [s.loop.next] := map_append
        have hself : (s.loop.addPollable (.conn s.next)).pos (.conn s.next) = s.loop.next :=
          update_self _ _ _
        rw [hinv.rest_eq_nodes hrun, hnodes, hself, hre.pos .dispatcher nofun]
        exact (singleton_sublist.2 (h.loop.pos_mem h.dispatcher)).append (List.Sublist.refl _)
      · exact .inl hold
  have hfold : ∀ (closes : List ℕ) (r : State n), Inv (some s.next) r → r.loop.running = none →
      (∀ c ∈ closes, r.Closable c) → Inv (some s.next) (closes.foldl State.close r) ∧
        (closes.foldl State.close r).loop.running = none := by
    intro closes
    induction closes with
    | nil => exact fun r hr hr' _ => ⟨hr, hr'⟩
    | cons c closes ih =>
      intro r hr hr' hcl
      obtain ⟨hsame, -, htask⟩ := r.close_same c
      refine ih _ (hr.close (hcallable hr') (hcl c mem_cons_self) fun t => hidle hr hr' t c)
        (hsame.trans hr') fun d hd t _ => ?_
      rw [htask]
      exact hcl d (mem_cons_of_mem c hd) t (by rw [hr']; exact nofun)
  obtain ⟨hclosed, hrun'⟩ := hfold closes _ hadded hrun hclosable
  exact hclosed.post nofun (fun _ _ => hrun') fun c hc => .inl (congrArg _ (some.inj hc))

theorem Inv.recvError (h : Inv none s) (hrun : s.loop.running = some t)
    (ht : s.task t = .receiving c) (hclosable : s.Closable c)
    (hs : ((s.setTask t .free).close c).ret t true = some s') : Inv none s' := by
  have hfree : Inv none (s.setTask t .free) :=
    h.act hrun trivial (by rw [ht]; nofun) (fun _ => id) (fun _ => id) (fun _ => .inr)
      (by rw [ht]; nofun) h.within
  obtain ⟨hsame, hpc, htask⟩ := (s.setTask t .free).close_same c
  obtain ⟨loop, hstep, -⟩ := map_eq_some_iff.1 hs
  have hcall : (s.setTask t .free).loop.callable = true := by
    have hcall := callable_of_ret hstep
    unfold PollLoop.State.callable at hcall ⊢
    rwa [hsame, hpc] at hcall
  have hself := s.setTask_task t .free
  refine Inv.ret (hfree.close hcall (fun u hu => ?_) fun u => ?_) (hsame.trans hrun)
    (fun d => ?_) hs
  · have hut : u ≠ t := fun heq => hu (heq ▸ hrun)
    show update s.task t .free u ≠ _
    rw [update_of_ne hut]
    exact hclosable u hu
  · by_cases hut : u = t
    · rw [hut, hself]
      exact nofun
    · show update s.task t .free u ≠ _
      rw [update_of_ne hut]
      exact fun hu => running_ne hrun hut (h.task hu).1
  · rw [htask, hself]
    exact ⟨nofun, nofun⟩

theorem Inv.threadStep (h : Inv none s) (hrun : s.loop.running = some t) {a : Act n}
    (ha : s.Heeds a) (hs : s.threadStep t a = some s') : Inv none s' := by
  cases a <;> simp only [State.threadStep, reduceCtorEq] at hs
  case visit => exact h.visit hrun hs
  case block =>
    obtain ⟨hcalls, hs⟩ := ite_none_right_eq_some.1 hs
    obtain ⟨loop, hstep, rfl⟩ := map_eq_some_iff.1 hs
    exact h.block hrun hcalls (ha t hrun) hstep
  case ret result =>
    split at hs
    · rename_i serial max ht
      refine h.ret hrun (fun c => ?_) hs
      have hok := h.task ht
      rw [ht]
      exact ⟨nofun, fun _ => hok.2.2.2 c⟩
    · nomatch hs
    all_goals
      rename_i ht
      refine h.ret hrun (fun c => ?_) hs
      rw [ht]
      exact ⟨nofun, nofun⟩
  case pop => exact h.pop hrun hs
  case dispatched => exact h.dispatched hrun hs
  case recv =>
    split at hs
    · rename_i c ht
      cases hs
      exact h.recv hrun ht
    · nomatch hs
  case recvError =>
    split at hs
    · rename_i c ht
      exact h.recvError hrun ht (ha t hrun c (by rw [ht]; rfl)) hs
    · nomatch hs
  case give =>
    split at hs
    · rename_i c ht
      cases hs
      exact h.give hrun ht
    · nomatch hs

/-- **Every step that heeds the condition keeps the invariant.** -/
theorem Inv.step (h : Inv none s) {a : Act n} (ha : s.Heeds a) (hs : s.step a = some s') :
    Inv none s' := by
  have hthread (hs : (s.loop.running.bind fun t => s.threadStep t a) = some s') : Inv none s' := by
    obtain ⟨t, hrun, hs⟩ := bind_eq_some_iff.1 hs
    exact h.threadStep hrun ha hs
  cases a with
  | run =>
    obtain ⟨loop, hstep, rfl⟩ := map_eq_some_iff.1 hs
    exact h.wake (a := .run) ⟨rfl, rfl, nofun⟩ (ite_none_right_eq_some.1 hstep).1.1 hstep
  | resume t =>
    obtain ⟨loop, hstep, rfl⟩ := map_eq_some_iff.1 hs
    exact h.wake (a := .resume t) ⟨rfl, rfl, nofun⟩ (ite_none_right_eq_some.1 hstep).1 hstep
  | post =>
    obtain ⟨-, rfl⟩ := of_guard hs
    exact h.post nofun nofun fun _ => .inr
  | close c =>
    obtain ⟨hcalls, rfl⟩ := of_guard hs
    have hcalls' := Bool.and_eq_true_iff.1 hcalls
    refine h.close hcalls'.1 ha fun t ht => ?_
    simp [(h.task ht).1, ht] at hcalls'
  | register closes =>
    obtain ⟨hrun, rfl⟩ := of_guard hs
    exact h.register hrun ha
  | add k =>
    obtain ⟨loop, hstep, rfl⟩ := map_eq_some_iff.1 (ite_none_right_eq_some.1 hs).2
    exact h.relist_other (.inl rfl) hstep
  | remove k =>
    obtain ⟨loop, hstep, rfl⟩ := map_eq_some_iff.1 (ite_none_right_eq_some.1 hs).2
    exact h.relist_other (.inr rfl) hstep
  | _ => exact hthread hs

/-- **Messages are seen only between join and leave**, in every run in which no handler blocks in
the `poll()` of the dispatcher, and no `poll()` of a connection is suspended while the connection is
closed: whenever a handler was given an event built from a message of a connection, the dispatch of
its join had ended, and that of its leave had not begun. -/
theorem dispatched_between {acts : List (Act n)}
    (hheeds : Along State.step State.Heeds (State.init n) acts)
    (hrun : run State.step (State.init n) acts = some s) (c : ℕ) (newer older : List Note)
    (hlog : s.log = newer ++ .given c :: older) : .joined c ∈ older ∧ .leaving c ∉ older := by
  have h : Inv none s := run_invariant_of_along (fun _ _ _ h ha hs => Inv.step h ha hs)
    (inv_init n) hheeds hrun
  exact Within.split (hlog ▸ h.within)

end Invariant

instance {n : ℕ} (s : State n) (a : Act n) : Decidable (s.Heeds a) :=
  have (c : ℕ) : Decidable (s.Closable c) :=
    inferInstanceAs (Decidable (∀ t, s.loop.running ≠ some t → s.task t ≠ .giving c))
  match a with
  | .block => inferInstanceAs (Decidable
      (∀ t, s.loop.running = some t → s.mayBlock (s.task t) = true))
  | .recvError => inferInstanceAs (Decidable
      (∀ t, s.loop.running = some t → ∀ c ∈ (s.task t).conn?, s.Closable c))
  | .close c => this c
  | .register closes => inferInstanceAs (Decidable (∀ c ∈ closes, s.Closable c))
  | .run | .resume _ | .visit | .ret _ | .pop | .dispatched | .recv | .give | .post | .add _
  | .remove _ => inferInstanceAs (Decidable True)

/-- The loop polls the dispatcher and the timers, waits for both, and blocks. -/
def idle : List (Act 1) :=
  [.run, .visit, .ret false, .visit, .ret false, .visit, .visit, .ret false, .visit, .ret false,
    .visit]

/-- A switch joins, and a message of it is given to a handler that blocks. -/
def message : List (Act 1) :=
  idle ++ [.register [], .resume 1, .visit, .pop, .dispatched, .ret false, .visit, .ret false,
    .visit, .recv, .give, .block]

/-- The handler goes on and closes the connection, and the next one is given the message. -/
def closedByHandler : List (Act 1) := message ++ [.resume 1, .close 0, .give]

/-- The hypotheses of `dispatched_between` are satisfiable: `closedByHandler` is such a run, with
two events given. -/
theorem dispatched_between_closed : ∃ s : State 1,
    run State.step (State.init 1) closedByHandler = some s ∧
    s.log = [.given 0, .given 0, .joined 0] ∧
    (Note.joined 0 ∈ [Note.given 0, .joined 0] ∧ Note.leaving 0 ∉ [Note.given 0, .joined 0]) := by
  have hlog : (run State.step (State.init 1) closedByHandler).map State.log =
      some [.given 0, .given 0, .joined 0] := by decide +kernel
  obtain ⟨s, hrun, hlog⟩ := map_eq_some_iff.1 hlog
  exact ⟨s, hrun, hlog, dispatched_between (by decide +kernel) hrun 0 [] _ hlog⟩

/-- A switch is registered behind an event whose handler blocks, and the other thread polls it. -/
def blockedHandler : List (Act 1) :=
  idle ++ [.post, .register [], .resume 1, .visit, .pop, .block, .resume 0, .visit, .ret false,
    .visit, .recv, .give]

/-- The other thread closes the connection while the handler is blocked, and dispatches its leave;
then the next handler is given the message. -/
def closedMeanwhile : List (Act 1) :=
  message ++ [.resume 0, .visit, .ret false, .visit, .close 0, .ret true, .visit, .visit,
    .resume 0, .visit, .pop, .dispatched, .ret false, .visit, .ret false, .visit, .visit,
    .resume 1, .give]

/-- **A message is given before the join is dispatched, and another after the leave.** -/
theorem dispatched_outside :
    (∃ (acts : List (Act 1)) (s : State 1) (older : List Note),
      run State.step (State.init 1) acts = some s ∧ s.log = .given 0 :: older ∧
        .joined 0 ∉ older) ∧
    ∃ (acts : List (Act 1)) (s : State 1) (older : List Note),
      run State.step (State.init 1) acts = some s ∧ s.log = .given 0 :: older ∧
        .leaving 0 ∈ older := by
  have hearly : (run State.step (State.init 1) blockedHandler).map State.log =
      some [.given 0] := by decide +kernel
  have hlate : (run State.step (State.init 1) closedMeanwhile).map State.log =
      some [.given 0, .leaving 0, .given 0, .joined 0] := by decide +kernel
  obtain ⟨s, hs, hlog⟩ := map_eq_some_iff.1 hearly
  obtain ⟨s', hs', hlog'⟩ := map_eq_some_iff.1 hlate
  exact ⟨⟨blockedHandler, s, [], hs, hlog, by decide⟩,
    closedMeanwhile, s', _, hs', hlog', by decide⟩

end NoxClassic.Nox.MessageOrder
