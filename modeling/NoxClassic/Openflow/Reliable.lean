/-
# The connection that reconnects

`Reliable_openflow_connection` of `lib/openflow.cc`: a finite state machine makes a
connection with a factory and makes another when it fails, after a delay that doubles
with every failure until a message is received.  `send` and `recv` run the machine
as well, when the connection fails under them.

`ok` is cleared when the pointer to the inner connection is dereferenced while it is
null.  The log holds what the delays are about, the newest first.
-/

import Mathlib.Order.MinMax
import NoxClassic.Lib.Run
import Mathlib.Algebra.Group.Nat.Defs

namespace NoxClassic.Openflow.Reliable

/-- `status`. -/
inductive Status where
  | sleeping
  | waking
  | connecting
  | connected
deriving DecidableEq

/-- What the factory or the inner connection returns: 0, `EAGAIN` or another error. -/
inductive Result where
  | ok
  | again
  | error

/-- What the machine waits for; `rest` is nothing. -/
inductive Fsm where
  | ready
  | timer (seconds : ℕ)
  | io
  | rest
deriving DecidableEq

/-- What the delays are about. -/
inductive Event where
  | failure
  | timer (seconds : ℕ)
  | attempt
  | receipt
deriving DecidableEq

/-- `Reliable_openflow_connection`; `c` says whether the pointer is set. -/
structure State where
  c : Bool
  backoff : ℕ
  status : Status
  fsm : Fsm
  ok : Bool
  log : List Event

/-- `backoff_limit`. -/
def backoffLimit : ℕ := 60

namespace State

/-- A call of the inner connection. -/
def deref (s : State) : State := { s with ok := s.ok && s.c }

/-- `reconnect`. -/
def reconnect (s : State) : State :=
  { s with
    c := false
    backoff := min backoffLimit (max 1 (s.backoff * 2))
    status := .sleeping
    log := .failure :: s.log }

/-- `run` in `CONN_CONNECTING`. -/
def connect (s : State) : Result → State
  | .ok => { s.deref with status := .connected, fsm := .rest }
  | .again => { s.deref.deref with fsm := .io }
  | .error => { s.deref.reconnect with fsm := .ready }

/-- `run` in `CONN_WAKING`. -/
def attempt (s : State) (factory inner : Result) : State :=
  let s := { s with c := true, log := .attempt :: s.log }
  match factory with
  | .ok => { s with status := .connecting }.connect inner
  | .again | .error => { s.reconnect with fsm := .ready }

/-- `run`. -/
def run (s : State) (factory inner : Result) : State :=
  match s.status with
  | .sleeping =>
    if s.backoff ≠ 0 then
      { s with status := .waking, fsm := .timer s.backoff, log := .timer s.backoff :: s.log }
    else { s with status := .waking }.attempt factory inner
  | .waking => s.attempt factory inner
  | .connecting => s.connect inner
  | .connected => s

/-- The constructor. -/
def init (factory inner : Result) : State :=
  run ⟨false, 0, .sleeping, .ready, true, []⟩ factory inner

end State

/-- A call, or an activation of the machine by what it waits for. -/
inductive Act where
  | activate (factory inner : Result)
  | send (result factory inner : Result)
  | recv (result factory inner : Result)
  | sendWait
  | recvWait
  | close

/-- One step. -/
def State.step (s : State) : Act → Option State
  | .activate factory inner => if s.fsm = .rest then none else some (s.run factory inner)
  | .send result factory inner =>
    if s.status = .connected then
      match result with
      | .ok | .again => some s.deref
      | .error => some (s.deref.reconnect.run factory inner)
    else some s
  | .recv result factory inner =>
    if s.status = .connected then
      match result with
      | .ok => some { s.deref with backoff := 0, log := .receipt :: s.log }
      | .again => some s.deref
      | .error => some (s.deref.reconnect.run factory inner)
    else some s
  | .sendWait | .recvWait => some (if s.status = .connected then s.deref else s)
  | .close => some s.deref

/-- The failures since a message was received. -/
def streak : List Event → ℕ
  | [] | .receipt :: _ => 0
  | .failure :: log => streak log + 1
  | .timer _ :: log | .attempt :: log => streak log

/-- The delay after so many failures. -/
def delay : ℕ → ℕ
  | 0 => 0
  | k + 1 => min backoffLimit (2 ^ k)

/-- The last failure is followed by its delay. -/
def Delayed (log : List Event) : Prop :=
  ∃ older, log = .timer (delay (streak log)) :: .failure :: older

/-- **Every attempt but the first comes after a failure and its delay.** -/
def Paced : List Event → Prop
  | [] => True
  | .attempt :: log => (log = [] ∨ Delayed log) ∧ Paced log
  | _ :: log => Paced log

theorem delay_succ (k : ℕ) : min backoffLimit (max 1 (delay k * 2)) = delay (k + 1) := by
  cases k with
  | zero => rfl
  | succ k =>
    have hpos : 1 ≤ 2 ^ k := Nat.one_le_two_pow
    simp only [delay, backoffLimit, Nat.pow_succ]
    omega

variable {s s' : State} {factory inner : Result}

/-- What holds at every point of `run`. -/
structure Base (s : State) : Prop where
  ok : s.ok = true
  backoff : s.backoff = delay (streak s.log)
  paced : Paced s.log

/-- What holds between the steps. -/
structure Inv (s : State) : Prop extends Base s where
  c : s.c = true ↔ s.status = .connecting ∨ s.status = .connected
  fsm : s.fsm = .rest ↔ s.status = .connected
  sleeping : s.status = .sleeping → s.log.head? = some .failure
  waking : s.status = .waking → Delayed s.log

theorem Base.reconnect (h : Base s) : Inv { s.reconnect with fsm := .ready } := by
  refine ⟨⟨h.ok, ?_, h.paced⟩, by simp [State.reconnect], by simp [State.reconnect],
    fun _ => rfl, nofun⟩
  show min backoffLimit (max 1 (s.backoff * 2)) = delay (streak s.log + 1)
  rw [h.backoff, delay_succ]

theorem Base.deref (h : Base s) (hc : s.c = true) : Base s.deref :=
  ⟨by simp [State.deref, h.ok, hc], h.backoff, h.paced⟩

theorem Base.connect (h : Base s) (hc : s.c = true) (hs : s.status = .connecting) :
    Inv (s.connect inner) := by
  have hd := h.deref hc
  cases inner with
  | ok => exact ⟨{ hd with }, by simp [State.connect, State.deref, hc],
      by simp [State.connect], nofun, nofun⟩
  | again =>
    refine ⟨⟨(hd.deref hc).ok, hd.backoff, hd.paced⟩, ?_, ?_, ?_, ?_⟩ <;>
      simp [State.connect, State.deref, hc, hs]
  | error => exact hd.reconnect

theorem Base.attempt (h : Base s) (hlog : s.log = [] ∨ Delayed s.log) :
    Inv (s.attempt factory inner) := by
  have hb : Base { s with c := true, log := .attempt :: s.log } := ⟨h.ok, h.backoff, hlog, h.paced⟩
  cases factory with
  | ok =>
    have hc : Base { s with c := true, log := .attempt :: s.log, status := .connecting } :=
      { hb with }
    exact hc.connect rfl rfl
  | again | error => exact hb.reconnect

/-- A failure is followed by its delay. -/
theorem Base.sleep (h : Base s) (hs : s.status = .sleeping) (hc : s.c = false)
    (hlog : s.log.head? = some .failure) : Inv (s.run factory inner) := by
  obtain ⟨log, hlog⟩ : ∃ log, s.log = .failure :: log := by
    cases hl : s.log <;> simp_all
  have hpos : s.backoff ≠ 0 := by
    have : 1 ≤ 2 ^ streak log := Nat.one_le_two_pow
    simp only [h.backoff, hlog, streak, delay, backoffLimit]
    omega
  rw [State.run, hs]
  simp only [if_pos hpos]
  refine ⟨{ h with }, by simp [hc], by simp, nofun, fun _ => ⟨log, ?_⟩⟩
  rw [h.backoff, hlog]
  rfl

theorem inv_init (factory inner : Result) : Inv (.init factory inner) :=
  Base.attempt ⟨rfl, rfl, trivial⟩ (.inl rfl)

theorem Inv.run (h : Inv s) (hrest : s.fsm ≠ .rest) : Inv (s.run factory inner) := by
  have hc := h.c
  cases hs : s.status with
  | sleeping => exact h.toBase.sleep hs (by simpa [hs] using hc) (h.sleeping hs)
  | waking =>
    rw [State.run, hs]
    exact h.toBase.attempt (.inr (h.waking hs))
  | connecting =>
    rw [State.run, hs]
    exact h.toBase.connect (hc.2 (.inl hs)) hs
  | connected => exact absurd (h.fsm.2 hs) hrest

theorem Inv.deref (h : Inv s) (hc : s.c = true) : Inv s.deref :=
  ⟨h.toBase.deref hc, h.c, h.fsm, h.sleeping, h.waking⟩

/-- The connection fails under a call. -/
theorem Inv.drop (h : Inv s) (hc : s.c = true) : Inv (s.deref.reconnect.run factory inner) := by
  have hr := (h.toBase.deref hc).reconnect
  exact Base.sleep { hr with } rfl rfl rfl

/-- `close` is called while there is a connection. -/
def Heeds (s : State) : Act → Prop
  | .close => s.status = .connecting ∨ s.status = .connected
  | _ => True

theorem Inv.step {a : Act} (h : Inv s) (ha : Heeds s a) (hs : s.step a = some s') : Inv s' := by
  have hc : s.status = .connected → s.c = true := fun hst => h.c.2 (.inr hst)
  cases a with simp only [State.step] at hs
  | activate factory inner =>
    simp only [Option.ite_none_left_eq_some, Option.some.injEq] at hs
    exact hs.2 ▸ h.run hs.1
  | send result factory inner =>
    split_ifs at hs with hst
    · cases result <;> cases hs
      · exact h.deref (hc hst)
      · exact h.deref (hc hst)
      · exact h.drop (hc hst)
    · cases hs
      exact h
  | recv result factory inner =>
    split_ifs at hs with hst
    · have hd := h.deref (hc hst)
      cases result <;> cases hs
      · exact ⟨⟨hd.ok, rfl, hd.paced⟩, hd.c, hd.fsm, by simp [State.deref, hst],
          by simp [State.deref, hst]⟩
      · exact hd
      · exact h.drop (hc hst)
    · cases hs
      exact h
  | sendWait | recvWait =>
    split_ifs at hs with hst <;> cases hs
    · exact h.deref (hc hst)
    · exact h
  | close =>
    cases hs
    exact h.deref (h.c.2 ha)

/-- **Reliable connections recover.**  In every run in which `close` is called only while there is
a connection: the pointer is not null when it is dereferenced, and is set only in `CONNECTING` and
`CONNECTED`; every attempt but the first comes after a failure and a delay of
`min backoff_limit 2 ^ (k - 1)` seconds, for the `k`-th failure since a message was received; and
the machine waits for nothing only in `CONNECTED`. -/
theorem reliable_recovers (factory inner : Result) {acts : List Act}
    (hclose : Lib.Along State.step Heeds (.init factory inner) acts)
    (hrun : Lib.run State.step (.init factory inner) acts = some s) :
    s.ok = true ∧ (s.c = true → s.status = .connecting ∨ s.status = .connected) ∧ Paced s.log ∧
      (s.fsm = .rest → s.status = .connected) := by
  have h : Inv s := Lib.run_invariant_of_along (fun _ _ _ h ha hs => Inv.step h ha hs)
    (inv_init factory inner) hclose hrun
  exact ⟨h.ok, h.c.1, h.paced, h.fsm.1⟩

/-- The hypotheses of `reliable_recovers` are satisfiable: a connection that fails, comes back and
is closed. -/
theorem reliable_recovers_closed : ∃ s, Lib.run State.step (.init .error .ok)
    [.activate .ok .ok, .activate .ok .ok, .recv .ok .ok .ok, .close] = some s ∧ s.ok = true := by
  have hrun : Lib.run State.step (.init .error .ok)
      [.activate .ok .ok, .activate .ok .ok, .recv .ok .ok .ok, .close] = some _ := rfl
  refine ⟨_, hrun, (reliable_recovers .error .ok ?_ hrun).1⟩
  refine ⟨trivial, fun s1 h1 => ⟨trivial, fun s2 h2 => ⟨trivial, fun s3 h3 => ⟨?_, fun _ _ =>
    trivial⟩⟩⟩⟩
  cases h1
  cases h2
  cases h3
  exact .inr rfl

/-- **A close without a connection**: the factory failed, and the pointer is null. -/
theorem close_dereferences_null :
    (Lib.run State.step (.init .error .ok) [.close]).map State.ok = some false := rfl

end NoxClassic.Openflow.Reliable
