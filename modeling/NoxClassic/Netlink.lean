/-
# Netlink transactions

`Nl_socket::transact` of `lib/netlink.cc`.  Cooperative threads run transactions on one
socket; a transaction is known by its sequence number, and so is its thread.  The thread
that receives a message records it for whichever transaction it answers, and the one that
learns of a lost message (`ENOBUFS`) sends every request again that waits for a reply.  A
thread runs until it blocks or returns, and the results of `::write` and `::recv` are
arguments of the steps.
-/

import Mathlib.Data.Int.Notation
import NoxClassic.Lib.Run

namespace NoxClassic.Netlink

open Function Option

/-- What is in a valid message. -/
inductive Body where
  | data
  | shortError
  | error (code : ℤ)

/-- A valid message. -/
structure Msg where
  seq : ℕ
  body : Body

/-- `status`. -/
inductive Status where
  | needRetransmit
  | needReply
  | done (reply : Msg)
  | failed (error : ℕ)

/-- `status < 0`. -/
def Status.isPending : Status → Bool
  | .needRetransmit | .needReply => true
  | .done _ | .failed _ => false

/-- What a thread is blocked on: that the descriptor is writable; that it is readable, or
`wakeup`; or nothing any more. -/
inductive Wait where
  | write
  | read
  | ready

/-- Where a thread is: in the loop of `do_transact`, in `do_recv`, in `transact_wait`, or
blocked. -/
inductive Pc where
  | transact
  | recv
  | wait
  | blocked (w : Wait)

/-- A transaction with its thread; `sentAt` counts the losses before the request was last sent. -/
structure Thread where
  status : Status
  pc : Pc
  sentAt : Option ℕ

/-- `Nl_socket`, with the thread that runs, the number of losses and what `transact` returned. -/
structure State where
  threads : ℕ → Option Thread
  running : Option ℕ
  losses : ℕ
  returned : List (ℕ × Except ℕ Msg)

def State.init : State := ⟨fun _ => none, none, 0, []⟩

/-- What `::write` returns. -/
inductive Sent where
  | ok
  | again
  | error (errno : ℕ)

/-- What `do_recv` gets: the error `ENOBUFS`, with what is returned to the requests that are sent
again; a message; a message that is not valid; no byte; or another error. -/
inductive Received where
  | nobufs (sends : ℕ → Sent)
  | message (m : Msg)
  | invalid
  | nothing
  | again
  | error (errno : ℕ)

def EAGAIN : ℕ := 11
def EPROTO : ℕ := 71

/-- What `do_transact` makes of a reply. -/
def answer (m : Msg) : Except ℕ Msg :=
  match m.body with
  | .data => .ok m
  | .shortError => .error EPROTO
  | .error code =>
    if code < 0 then .error (if -code = EAGAIN then EPROTO else (-code).toNat) else .ok m

namespace Thread

/-- `Nl_transaction::retransmit` of a request that is due. -/
def retransmit (t : Thread) (losses : ℕ) : Sent → Thread
  | .ok => { t with status := .needReply, sentAt := some losses }
  | .again => t
  | .error errno => { t with status := .failed errno }

/-- `wakeup.broadcast()`. -/
def broadcast (t : Thread) : Thread :=
  match t.pc with
  | .blocked .read => { t with pc := .blocked .ready }
  | _ => t

/-- A round of `retransmit_all`. -/
def resend (t : Thread) (losses : ℕ) (r : Sent) : Thread :=
  match t.status with
  | .needReply => ({ t with status := .needRetransmit }.retransmit losses r).broadcast
  | _ => t

/-- A message that answers the transaction. -/
def record (t : Thread) (m : Msg) : Thread :=
  if t.status.isPending then { t with status := .done m }.broadcast else t

end Thread

namespace State

def set (s : State) (n : ℕ) (t : Thread) : State :=
  { s with threads := Function.update s.threads n (some t) }

/-- The thread runs. -/
def switch (s : State) (n : ℕ) (t : Thread) : State := { s.set n t with running := some n }

/-- The thread blocks. -/
def park (s : State) (n : ℕ) (t : Thread) (w : Wait) : State :=
  { s.set n { t with pc := .blocked w } with running := none }

/-- `transact` returns, and the transaction is destroyed. -/
def leave (s : State) (n : ℕ) (result : Except ℕ Msg) : State :=
  { s with
    threads := Function.update s.threads n none
    running := none
    returned := (n, result) :: s.returned }

/-- `retransmit_all`. -/
def retransmitAll (s : State) (sends : ℕ → Sent) : State :=
  { s with
    threads := fun n => (s.threads n).map fun t => t.resend (s.losses + 1) (sends n)
    losses := s.losses + 1 }

/-- The running thread sends its request, in `do_transact` or in `transact_wait`. -/
def send (s : State) (n : ℕ) (t : Thread) (r : Sent) : Option State :=
  match t.status, t.pc, r with
  | .needRetransmit, .transact, .ok => some (s.set n (t.retransmit s.losses .ok))
  | .needRetransmit, .transact, .again => some (s.set n { t with pc := .wait })
  | .needRetransmit, .transact, .error errno => some (s.leave n (.error errno))
  | .needRetransmit, .wait, .ok => some (s.park n (t.retransmit s.losses .ok) .read)
  | .needRetransmit, .wait, .again => some (s.park n t .write)
  | .needRetransmit, .wait, .error errno =>
    some (s.park n (t.retransmit s.losses (.error errno)) .ready)
  | _, _, _ => none

/-- `do_recv` in the running thread, to the next message. -/
def recv (s : State) (n : ℕ) (t : Thread) : Received → State
  | .nobufs sends => (s.set n { t with pc := .recv }).retransmitAll sends
  | .message m =>
    match (s.set n { t with pc := .recv }).threads m.seq with
    | some u => (s.set n { t with pc := .recv }).set m.seq (u.record m)
    | none => s.set n { t with pc := .transact }
  | .invalid => s.leave n (.error EPROTO)
  | .nothing => s.set n { t with pc := .transact }
  | .again => s.set n { t with pc := .wait }
  | .error errno => s.leave n (.error errno)

/-- The running thread finds the transaction complete, or blocks. -/
def finish (s : State) (n : ℕ) (t : Thread) : Option State :=
  match t.pc, t.status with
  | .transact, .done m => some (s.leave n (answer m))
  | .transact, .failed errno => some (s.leave n (.error errno))
  | .wait, .needReply => some (s.park n t .read)
  | .wait, .done _ | .wait, .failed _ => some (s.park n t .ready)
  | _, _ => none

/-- The thread that runs. -/
def current (s : State) : Option (ℕ × Thread) :=
  s.running.bind fun n => (s.threads n).map fun t => (n, t)

end State

/-- A thread starts a transaction, is resumed, or runs on. -/
inductive Act where
  | start (n : ℕ)
  | resume (n : ℕ)
  | send (r : Sent)
  | recv (r : Received)
  | finish

/-- One step. -/
def State.step (s : State) : Act → Option State
  | .start n =>
    match s.running, s.threads n with
    | none, none => some (s.switch n ⟨.needRetransmit, .transact, none⟩)
    | _, _ => none
  | .resume n =>
    match s.running, s.threads n with
    | none, some ⟨status, .blocked _, sentAt⟩ => some (s.switch n ⟨status, .transact, sentAt⟩)
    | _, _ => none
  | .send r => s.current.bind fun (n, t) => s.send n t r
  | .recv r =>
    match s.current with
    | some (n, ⟨.needReply, .transact, sentAt⟩) => some (s.recv n ⟨.needReply, .transact, sentAt⟩ r)
    | some (n, ⟨status, .recv, sentAt⟩) => some (s.recv n ⟨status, .recv, sentAt⟩ r)
    | _ => none
  | .finish => s.current.bind fun (n, t) => s.finish n t

/-! ### The invariant -/

variable {s s' : State} {t : Thread} {n losses : ℕ}

/-- What holds of a transaction and its thread. -/
structure Good (losses n : ℕ) (t : Thread) : Prop where
  own : ∀ m, t.status = .done m → m.seq = n
  fresh : t.status = .needReply → t.sentAt = some losses
  read : t.pc = .blocked .read → t.status = .needReply
  write : t.pc = .blocked .write → t.status = .needRetransmit

structure Inv (s : State) : Prop where
  threads : ∀ n t, s.threads n = some t → Good s.losses n t
  returned : ∀ n m, (n, .ok m) ∈ s.returned → m.seq = n

theorem inv_init : Inv .init := ⟨nofun, nofun⟩

/-- A thread that is not blocked. -/
theorem Good.go (h : Good losses n t) {pc : Pc} (hpc : ∀ w, pc ≠ .blocked w) :
    Good losses n { t with pc := pc } :=
  ⟨h.own, h.fresh, fun hb => absurd hb (hpc _), fun hb => absurd hb (hpc _)⟩

theorem set_threads : (s.set n t).threads = update s.threads n (some t) := rfl

theorem Inv.set (h : Inv s) (ht : Good s.losses n t) : Inv (s.set n t) := by
  refine ⟨fun k u hu => ?_, h.returned⟩
  rw [set_threads, update_apply] at hu
  split_ifs at hu with hk
  · subst hk
    exact some.inj hu ▸ ht
  · exact h.threads k u hu

theorem Inv.switch (h : Inv s) (ht : Good s.losses n t) : Inv (s.switch n t) :=
  ⟨(h.set ht).threads, h.returned⟩

theorem Inv.park (h : Inv s) {w : Wait} (ht : Good s.losses n { t with pc := .blocked w }) :
    Inv (s.park n t w) :=
  ⟨(h.set ht).threads, h.returned⟩

theorem Inv.leave (h : Inv s) {result : Except ℕ Msg} (hr : ∀ m, result = .ok m → m.seq = n) :
    Inv (s.leave n result) := by
  refine ⟨fun k u hu => ?_, fun k m hm => ?_⟩
  · by_cases hk : k = n
    · simp [State.leave, hk] at hu
    · exact h.threads k u ((update_of_ne hk _ _).symm.trans hu)
  · rcases List.mem_cons.1 hm with hm | hm
    · cases hm
      exact hr m rfl
    · exact h.returned k m hm

theorem answer_eq_ok {m reply : Msg} (h : answer m = .ok reply) : reply = m := by
  unfold answer at h
  split at h
  · exact (Except.ok.inj h).symm
  · cases h
  · split_ifs at h
    exact (Except.ok.inj h).symm

/-- A status that nobody is blocked on any more. -/
theorem Good.broadcast (hown : ∀ m, t.status = .done m → m.seq = n)
    (hfresh : t.status = .needReply → t.sentAt = some losses) (hw : t.pc ≠ .blocked .write) :
    Good losses n t.broadcast := by
  unfold Thread.broadcast
  split
  · exact ⟨hown, hfresh, nofun, nofun⟩
  · next hr => exact ⟨hown, hfresh, fun hb => absurd hb hr, fun hb => absurd hb hw⟩

/-- **After a loss**, a request that waits for a reply has been sent again. -/
theorem Good.resend (h : Good losses n t) (r : Sent) :
    Good (losses + 1) n (t.resend (losses + 1) r) := by
  unfold Thread.resend
  split
  · next hs =>
    have hw : t.pc ≠ .blocked .write := fun hb => nomatch hs.symm.trans (h.write hb)
    cases r with
    | ok => exact Good.broadcast nofun (fun _ => rfl) hw
    | again | error => exact Good.broadcast nofun nofun hw
  · next hs => exact ⟨h.own, fun hr => absurd hr hs, fun hb => absurd (h.read hb) hs, h.write⟩

theorem Good.record (h : Good losses n t) {m : Msg} (hm : m.seq = n)
    (hw : t.pc ≠ .blocked .write) : Good losses n (t.record m) := by
  unfold Thread.record
  split_ifs
  · exact Good.broadcast (fun _ hd => Status.done.inj hd ▸ hm) nofun hw
  · exact h

theorem Inv.retransmitAll (h : Inv s) (sends : ℕ → Sent) : Inv (s.retransmitAll sends) := by
  refine ⟨fun k u hu => ?_, h.returned⟩
  obtain ⟨t, ht, rfl⟩ := map_eq_some_iff.1 hu
  exact (h.threads k t ht).resend (sends k)

theorem Inv.send (h : Inv s) (ht : Good s.losses n t) {r : Sent} (hs : s.send n t r = some s') :
    Inv s' := by
  unfold State.send at hs
  split at hs <;> cases hs
  next hst hpc => exact h.set ⟨nofun, fun _ => rfl, by simp [Thread.retransmit, hpc],
    by simp [Thread.retransmit, hpc]⟩
  next => exact h.set (ht.go nofun)
  next => exact h.leave nofun
  next => exact h.park ⟨nofun, fun _ => rfl, fun _ => rfl, nofun⟩
  next hst hpc => exact h.park ⟨ht.own, ht.fresh, nofun, fun _ => hst⟩
  next => exact h.park ⟨nofun, nofun, nofun, nofun⟩

/-- No reply is received for a thread that is blocked to send. -/
def Heeds (s : State) : Act → Prop
  | .recv (.message m) => ∀ t, s.threads m.seq = some t → t.pc ≠ .blocked .write
  | _ => True

theorem Inv.recv (h : Inv s) (ht : Good s.losses n t) {r : Received}
    (hr : Heeds s (.recv r)) : Inv (s.recv n t r) := by
  have hrecv : Inv (s.set n { t with pc := .recv }) := h.set (ht.go nofun)
  cases r with
  | nobufs sends => exact hrecv.retransmitAll sends
  | message m =>
    simp only [State.recv]
    split
    · next u hu =>
      refine hrecv.set ((hrecv.threads _ u hu).record rfl ?_)
      rw [set_threads, update_apply] at hu
      split_ifs at hu
      · cases hu
        nofun
      · exact hr u hu
    · exact h.set (ht.go nofun)
  | invalid | error => exact h.leave nofun
  | nothing | again => exact h.set (ht.go nofun)

theorem Inv.finish (h : Inv s) (ht : Good s.losses n t) (hs : s.finish n t = some s') : Inv s' := by
  unfold State.finish at hs
  split at hs <;> cases hs
  next m hpc hst => exact h.leave fun reply hr => answer_eq_ok hr ▸ ht.own m hst
  next => exact h.leave nofun
  next hpc hst => exact h.park ⟨ht.own, ht.fresh, fun _ => hst, nofun⟩
  next => exact h.park ⟨ht.own, ht.fresh, nofun, nofun⟩
  next => exact h.park ⟨ht.own, ht.fresh, nofun, nofun⟩

theorem Inv.current (h : Inv s) (hc : s.current = some (n, t)) : Good s.losses n t := by
  obtain ⟨k, -, hk⟩ := bind_eq_some_iff.1 hc
  obtain ⟨u, hu, he⟩ := map_eq_some_iff.1 hk
  cases he
  exact h.threads _ _ hu

theorem Inv.step {a : Act} (h : Inv s) (ha : Heeds s a) (hs : s.step a = some s') : Inv s' := by
  cases a with simp only [State.step] at hs
  | start n =>
    split at hs <;> cases hs
    exact h.switch ⟨nofun, nofun, nofun, nofun⟩
  | resume n =>
    split at hs <;> cases hs
    next hn => exact h.switch ((h.threads n _ hn).go nofun)
  | send r =>
    obtain ⟨⟨n, t⟩, hc, hs⟩ := bind_eq_some_iff.1 hs
    exact h.send (h.current hc) hs
  | recv r =>
    split at hs <;> cases hs
    next hc => exact h.recv (h.current hc) ha
    next hc => exact h.recv (h.current hc) ha
  | finish =>
    obtain ⟨⟨n, t⟩, hc, hs⟩ := bind_eq_some_iff.1 hs
    exact h.finish (h.current hc) hs

/-- **Transactions are reliable.**  In every run in which no reply is received for a thread that is
blocked to send: a transaction succeeds only with a reply that carries its sequence number; no
thread is blocked whose transaction is complete, except to run next; and a request without a reply
was sent after the last loss when its thread waits for the reply. -/
theorem transactions_reliable {acts : List Act} (hmsg : Lib.Along State.step Heeds .init acts)
    (hrun : Lib.run State.step .init acts = some s) :
    (∀ n m, (n, .ok m) ∈ s.returned → m.seq = n) ∧
      ∀ n t, s.threads n = some t →
        (t.status.isPending = false → t.pc ≠ .blocked .read ∧ t.pc ≠ .blocked .write) ∧
        (t.status = .needReply ∨ t.pc = .blocked .read → t.sentAt = some s.losses) := by
  have h : Inv s := Lib.run_invariant_of_along (fun _ _ _ h ha hs => Inv.step h ha hs)
    inv_init hmsg hrun
  refine ⟨h.returned, fun n t ht => ⟨fun hp => ⟨fun hb => ?_, fun hb => ?_⟩, fun hr => ?_⟩⟩
  · rw [(h.threads n t ht).read hb] at hp
    cases hp
  · rw [(h.threads n t ht).write hb] at hp
    cases hp
  · exact (h.threads n t ht).fresh (hr.elim id (h.threads n t ht).read)

/-- A reply of the kernel. -/
def ack (n : ℕ) : Received := .message ⟨n, .error 0⟩

/-- Two threads, and a loss while both wait for their replies, which the second one receives. -/
def twoThreads : List Act :=
  [.start 1, .send .ok, .recv .again, .finish, .start 2, .send .ok, .recv (.nobufs fun _ => .ok),
    .recv (ack 1), .recv (ack 2), .recv .again, .finish, .resume 1, .finish, .resume 2, .finish]

/-- The hypotheses of `transactions_reliable` are satisfiable, and both transactions succeed. -/
theorem transactions_reliable_resent : ∃ s, Lib.run State.step .init twoThreads = some s ∧
    s.returned = [(2, .ok ⟨2, .error 0⟩), (1, .ok ⟨1, .error 0⟩)] ∧
    ∀ n m, (n, .ok m) ∈ s.returned → m.seq = n := by
  have hrun : Lib.run State.step .init twoThreads = some _ := rfl
  refine ⟨_, hrun, rfl, (transactions_reliable ?_ hrun).1⟩
  exact .cons trivial rfl <| .cons trivial rfl <| .cons trivial rfl <| .cons trivial rfl <|
    .cons trivial rfl <| .cons trivial rfl <| .cons trivial rfl <| .cons nofun rfl <|
    .cons nofun rfl <| .cons trivial rfl <| .cons trivial rfl <| .cons trivial rfl <|
    .cons trivial rfl <| .cons trivial rfl <| .cons trivial rfl trivial

/-- **A reply that wakes nobody.**  A loss makes request 1 due again, its thread blocks until it
can send, and thread 2 receives the reply: transaction 1 is complete, and its thread still waits
to send. -/
theorem reply_wakes_nobody : ∃ s t, Lib.run State.step .init
    [.start 1, .send .ok, .recv .again, .finish,
      .start 2, .send .ok, .recv (.nobufs fun n => if n = 1 then .again else .ok), .recv .again,
      .finish, .resume 1, .send .again, .send .again, .resume 2, .recv (ack 1)] = some s ∧
      s.threads 1 = some t ∧ t.status.isPending = false ∧ t.pc = .blocked .write :=
  ⟨_, _, rfl, rfl, rfl, rfl⟩

end NoxClassic.Netlink
