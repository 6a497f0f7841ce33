/-
# The handshake and the idle probe of an OpenFlow connection

`Openflow_connection` (`src/lib/openflow.cc`): `connect` and the functions
`s_connecting` … `s_send_error` it steps through, `send_openflow`,
`recv_openflow` and the timer-driven `run`.

The operations below them, `do_connect`, `do_send_openflow` and
`do_recv_openflow`, may return anything; an `Io` holds their results and the
clock for one pass of `connect` and what follows it.  A pass that ends in `EINTR`
is followed by another at once.  A blocking call that gets `EAGAIN` yields and is
entered again later, so between its passes any other call may come: it is several
calls here.  The texts that are logged, and those of the HELLO and the error
message, are left out.

The connection carries a log, newest entry first, of what the safety statement
speaks of: our HELLO accepted, messages received, messages of callers handed to
`do_send_openflow` or returned to them, and states entered.
-/

import NoxClassic.Dispatch.Timeval
import NoxClassic.Openflow.Receive

namespace NoxClassic.Openflow

open List Dispatch

/-- `Openflow_connection::State`. -/
inductive State where
  | connecting
  | sendHello
  | recvHello
  | connected
  | idle
  | sendError
  | disconnected
  deriving DecidableEq, Repr

/-- The states in which messages of callers pass. -/
def State.IsOpen (st : State) : Prop := st = .connected ∨ st = .idle

instance (st : State) : Decidable st.IsOpen := inferInstanceAs (Decidable (_ ∨ _))

/-- How many rounds the loop of `connect` can do from a state on. -/
def State.rounds : State → ℕ
  | .connecting => 5
  | .sendHello => 4
  | .recvHello => 3
  | .sendError => 2
  | .connected | .idle | .disconnected => 1

/-- `OFP_VERSION`. -/
def ofpVersion : ℕ := 0x01

/-- `OFP_EXPERIMENTAL_VERSION`. -/
def ofpExperimentalVersion : ℕ := 0x80

/-- `Openflow_connection::probe_interval`. -/
def probeInterval : Timeval := ⟨15, 0⟩

/-- `EINTR`. -/
def eintr : Errno := .transport 4

/-- `oh->version`. -/
def peerVersion (oh : List UInt8) : ℕ := (oh.getD 0 0).toNat

/-- `oh->type == OFPT_HELLO`. -/
def isHello (oh : List UInt8) : Bool := oh.getD 1 0 == 0

/-- The OFPT_ECHO_REQUEST of `send_echo_request`, whose transaction id is arbitrary. -/
def echoRequest : List UInt8 := [1, 2, 0, 8, 0, 0, 0, 0]

/-- What the safety statement speaks of. -/
inductive Event where
  | helloSent
  | received (m : List UInt8) (now : Timeval)
  | handed (oh : List UInt8) (st : State)
  | returned (m : List UInt8) (st : State)
  | entered (st : State) (now : Timeval)
  deriving DecidableEq, Repr

/-- The clock and the results of the operations of the transport, for one pass.
`none` is success. -/
structure Io where
  now : Timeval
  doConnect : Option Errno
  sendHello : Option Errno
  recvHello : Except Errno (List UInt8)
  sendError : Option Errno
  doSend : Option Errno
  doRecv : Except Errno (List UInt8)

/-- An `Openflow_connection`, with its log. -/
structure Conn where
  state : State
  error : Option Errno
  version : ℕ
  minVersion : ℕ
  timeout : Timeval
  log : List Event
  deriving DecidableEq, Repr

namespace Conn

/-- A new connection; `error`, `version` and `timeout` are not initialised. -/
def init (minVersion : ℕ) (error : Option Errno) (version : ℕ) (timeout : Timeval) : Conn :=
  ⟨.connecting, error, version, minVersion, timeout, []⟩

/-- An assignment to `state`. -/
def enter (c : Conn) (st : State) (now : Timeval) : Conn :=
  { c with state := st, log := .entered st now :: c.log }

/-- `state = S_DISCONNECTED; error = retval`. -/
def disconnect (c : Conn) (e : Errno) (now : Timeval) : Conn :=
  { c.enter .disconnected now with error := some e }

/-- `s_connecting`. -/
def sConnecting (c : Conn) (io : Io) : Conn :=
  match io.doConnect with
  | none => c.enter .sendHello io.now
  | some .eagain => c
  | some e => c.disconnect e io.now

/-- `s_send_hello`. -/
def sSendHello (c : Conn) (io : Io) : Conn :=
  match io.sendHello with
  | none => { c with log := .helloSent :: c.log }.enter .recvHello io.now
  | some .eagain => c
  | some e => c.disconnect e io.now

/-- `s_recv_hello`. -/
def sRecvHello (c : Conn) (io : Io) : Conn :=
  match io.recvHello with
  | .ok m =>
    let c := { c with log := .received m io.now :: c.log }
    if isHello m then
      let c := { c with version := min ofpVersion (peerVersion m) }
      if c.version < c.minVersion then c.enter .sendError io.now
      else
        { c.enter (if ofpExperimentalVersion < peerVersion m then .sendError else .connected)
            io.now with
          timeout := io.now + probeInterval }
    else c.disconnect .eproto io.now
  | .error .eagain => c
  | .error e => c.disconnect e io.now

/-- `s_send_error`. -/
def sSendError (c : Conn) (io : Io) : Conn :=
  match io.sendError with
  | some .eagain => c
  | some e => c.disconnect e io.now
  | none => c.disconnect .eproto io.now

/-- The `switch` in `connect`. -/
def advance (c : Conn) (io : Io) : Conn :=
  match c.state with
  | .connecting => c.sConnecting io
  | .sendHello => c.sSendHello io
  | .recvHello => c.sRecvHello io
  | .sendError => c.sSendError io
  | .connected | .idle | .disconnected => c

/-- The loop of `connect`, for at most `fuel` rounds. -/
def connectLoop (io : Io) : ℕ → Conn → Option Errno × Conn
  | 0, c => (some .eagain, c)
  | fuel + 1, c =>
    if c.state.IsOpen then (none, c)
    else if c.state = .disconnected then (c.error, c)
    else if (c.advance io).state = c.state then (some .eagain, c.advance io)
    else connectLoop io fuel (c.advance io)

/-- `connect`.  Five rounds are enough: `connectLoop_eq`. -/
def connect (c : Conn) (io : Io) : Option Errno × Conn :=
  connectLoop io 5 c

/-- One pass of the loop of `send_openflow`. -/
def sendPass (c : Conn) (oh : List UInt8) (io : Io) : Option Errno × Conn :=
  match c.connect io with
  | (none, c) => (io.doSend, { c with log := .handed oh c.state :: c.log })
  | (some e, c) => (some e, c)

/-- `send_openflow`: passes until one does not end in `EINTR`.  The result is `none`
where the passes that are given do not suffice. -/
def sendOpenflow (c : Conn) (oh : List UInt8) : List Io → Option (Option Errno) × Conn
  | [] => (none, c)
  | io :: ios =>
    let r := c.sendPass oh io
    if r.1 = some eintr then r.2.sendOpenflow oh ios else (some r.1, r.2)

/-- What `recv_openflow` does with a message before it returns it. -/
def deliver (c : Conn) (m : List UInt8) (now : Timeval) : Conn :=
  let c := { c with log := .received m now :: c.log }
  let c := if c.state = .idle then c.enter .connected now else c
  { c with timeout := now + probeInterval, log := .returned m c.state :: c.log }

/-- `recv_openflow`, in passes like `send_openflow`.  An `EINTR` of `connect` itself is
returned. -/
def recvOpenflow (c : Conn) : List Io → Option (Except Errno (List UInt8)) × Conn
  | [] => (none, c)
  | io :: ios =>
    match c.connect io with
    | (some e, c) => (some (.error e), c)
    | (none, c) =>
      match io.doRecv with
      | .ok m => (some (.ok m), c.deliver m io.now)
      | .error e => if e = eintr then c.recvOpenflow ios else (some (.error e), c)

/-- `run`, at the time `now`.  `ios` are the passes of the echo request. -/
def run (c : Conn) (now : Timeval) (ios : List Io) : Conn :=
  if c.state.IsOpen ∧ c.timeout ≤ now then
    if c.state = .connected then
      match c.sendOpenflow echoRequest ios with
      | (some none, c) => { c.enter .idle now with timeout := now + probeInterval }
      | (some (some .eagain), c) => c
      | (some (some e), c) => c.disconnect e now
      | (none, c) => c
    else c.disconnect .eproto now
  else c

/-! ### The loop of `connect` -/

/-- A round ends the loop or brings the connection nearer to its end. -/
theorem rounds_advance {c : Conn} (io : Io) (h : (c.advance io).state ≠ c.state) :
    (c.advance io).state.rounds < c.state.rounds := by
  revert h
  unfold advance
  cases hst : c.state with
  | connecting =>
    unfold sConnecting
    rcases io.doConnect with _ | _ | _ <;> simp [enter, disconnect, State.rounds, hst]
  | sendHello =>
    unfold sSendHello
    rcases io.sendHello with _ | _ | _ <;> simp [enter, disconnect, State.rounds, hst]
  | recvHello =>
    unfold sRecvHello
    rcases io.recvHello with (_ | _) | m <;> simp [enter, disconnect, State.rounds, hst]
    split_ifs <;> simp
  | sendError =>
    unfold sSendError
    rcases io.sendError with _ | _ | _ <;> simp [enter, disconnect, State.rounds, hst]
  | connected | idle | disconnected => simp [hst]

/-- More rounds than the state leaves make no difference. -/
theorem connectLoop_eq (io : Io) {fuel : ℕ} {c : Conn} (h : c.state.rounds ≤ fuel) (k : ℕ) :
    connectLoop io (fuel + k) c = connectLoop io fuel c := by
  induction fuel generalizing c with
  | zero => cases hst : c.state <;> simp [hst, State.rounds] at h
  | succ fuel ih =>
    rw [Nat.add_right_comm, connectLoop, connectLoop]
    split_ifs with hopen hdisc hsame
    · rfl
    · rfl
    · rfl
    · exact ih (by have := rounds_advance io hsame; omega)

/-- **What `connect` keeps and returns**, from what a round of its loop keeps. -/
theorem connect_spec {I : Conn → Prop} {io : Io}
    (hstep : ∀ c, I c → I (c.advance io)) {c : Conn} (h : I c) :
    I (c.connect io).2 ∧ ((c.connect io).1 = none → (c.connect io).2.state.IsOpen ∨
      (c.connect io).2.state = .disconnected ∧ (c.connect io).2.error = none) := by
  unfold connect
  generalize 5 = fuel
  induction fuel generalizing c with
  | zero => exact ⟨h, nofun⟩
  | succ fuel ih =>
    rw [connectLoop]
    split_ifs with hopen hdisc hsame
    · exact ⟨h, fun _ => .inl hopen⟩
    · exact ⟨h, fun he => .inr ⟨hdisc, he⟩⟩
    · exact ⟨hstep c h, nofun⟩
    · exact ih (hstep c h)

end Conn

/-! ### The log -/

/-- The message of a `received` entry, with the time. -/
def Event.received? : Event → Option (List UInt8 × Timeval)
  | .received m now => some (m, now)
  | _ => none

/-- The messages received, newest first. -/
def receivedOf (log : List Event) : List (List UInt8 × Timeval) :=
  log.filterMap Event.received?

/-- The state entered last. -/
def stateOf : List Event → State
  | [] => .connecting
  | .entered st _ :: _ => st
  | .helloSent :: log | .received _ _ :: log | .handed _ _ :: log | .returned _ _ :: log =>
    stateOf log

/-- The handshake is behind: our HELLO was accepted for sending, and the first message
received was a HELLO whose version both sides can do. -/
def Greeted (minVersion : ℕ) (log : List Event) : Prop :=
  .helloSent ∈ log ∧ ∃ m now, (receivedOf log).getLast? = some (m, now) ∧ isHello m ∧
    minVersion ≤ min ofpVersion (peerVersion m) ∧ peerVersion m ≤ ofpExperimentalVersion

/-- At the time `now` the last message is a full probe interval old. -/
def Silent (log : List Event) (now : Timeval) : Prop :=
  ∃ m t, (receivedOf log).head? = some (m, t) ∧ t + probeInterval ≤ now

/-- What an entry of the log says of the entries before it. -/
def Event.Justified (minVersion : ℕ) (older : List Event) : Event → Prop
  | .helloSent => True
  | .received _ _ => True
  | .handed _ st => st.IsOpen
  | .returned _ st => st.IsOpen
  | .entered st now => (∀ t, .entered .disconnected t ∉ older) ∧
      (st.IsOpen → Greeted minVersion older) ∧ (st = .idle → Silent older now)

/-- Every entry of the log is justified by those before it. -/
def SafeLog (minVersion : ℕ) : List Event → Prop
  | [] => True
  | e :: older => e.Justified minVersion older ∧ SafeLog minVersion older

theorem SafeLog.split {v : ℕ} {newer older : List Event} {e : Event}
    (h : SafeLog v (newer ++ e :: older)) : e.Justified v older := by
  induction newer with
  | nil => exact h.1
  | cons x newer ih => exact ih h.2

/-- A handshake that is behind stays behind. -/
theorem Greeted.cons {v : ℕ} {log : List Event} (h : Greeted v log) (e : Event) :
    Greeted v (e :: log) := by
  obtain ⟨hhello, m, now, hlast, hm⟩ := h
  refine ⟨mem_cons_of_mem _ hhello, m, now, ?_, hm⟩
  cases he : e.received? with
  | none => rw [receivedOf, filterMap_cons_none he, ← receivedOf, hlast]
  | some x =>
    rw [receivedOf, filterMap_cons_some he, List.getLast?_cons]
    change some ((receivedOf log).getLast?.getD x) = _
    rw [hlast, Option.getD_some]

/-! ### The invariant -/

namespace Conn

/-- **The invariant of a connection** whose minimum version is `v`. -/
structure Inv (c : Conn) (v : ℕ) : Prop where
  min : c.minVersion = v
  safe : SafeLog v c.log
  alive : c.state ≠ .disconnected → ∀ t, .entered .disconnected t ∉ c.log
  state : c.state = stateOf c.log
  error : c.state = .disconnected → c.error ≠ none
  early : c.state = .connecting ∨ c.state = .sendHello ∨ c.state = .recvHello →
    receivedOf c.log = []
  hello : c.state = .recvHello → .helloSent ∈ c.log
  greeted : c.state.IsOpen → Greeted v c.log
  timeout : c.state = .connected →
    ∃ m t, (receivedOf c.log).head? = some (m, t) ∧ c.timeout = t + probeInterval

theorem inv_init (minVersion : ℕ) (error : Option Errno) (version : ℕ) (timeout : Timeval) :
    (init minVersion error version timeout).Inv minVersion := by
  refine ⟨rfl, trivial, fun _ _ => not_mem_nil, rfl, nofun, fun _ => rfl, nofun, ?_, nofun⟩
  rintro (h | h) <;> exact absurd h nofun

variable {c : Conn} {v : ℕ} {now : Timeval}

theorem not_isOpen_disconnected : ¬ State.disconnected.IsOpen := by decide

/-- Being disconnected needs nothing but a log that is safe so far. -/
theorem inv_disconnect (hmin : c.minVersion = v) (hsafe : SafeLog v c.log)
    (halive : ∀ t, .entered .disconnected t ∉ c.log) (e : Errno) (now : Timeval) :
    (c.disconnect e now).Inv v where
  min := hmin
  safe := ⟨⟨halive, fun h => absurd h not_isOpen_disconnected, nofun⟩, hsafe⟩
  alive h := absurd rfl h
  state := rfl
  error _ := Option.some_ne_none e
  early h := absurd h (by rintro (h | h | h) <;> exact absurd h nofun)
  hello := nofun
  greeted h := absurd h not_isOpen_disconnected
  timeout := nofun

/-- A state entered during the handshake. -/
theorem inv_enter_early (st : State) (hmin : c.minVersion = v) (hsafe : SafeLog v c.log)
    (halive : ∀ t, .entered .disconnected t ∉ c.log) (hopen : ¬ st.IsOpen)
    (hst : st ≠ .disconnected) (hearly : st = .sendError ∨ receivedOf c.log = [])
    (hhello : st = .recvHello → .helloSent ∈ c.log) : (c.enter st now).Inv v where
  min := hmin
  safe := ⟨⟨halive, fun h => absurd h hopen, fun h => absurd (.inr h) hopen⟩, hsafe⟩
  alive _ t h := by
    rcases mem_cons.1 h with h | h
    · exact hst (Event.entered.inj h).1.symm
    · exact halive t h
  state := rfl
  error h := absurd h hst
  early h := by
    rcases hearly with rfl | hearly
    · exact absurd h (by rintro (h | h | h) <;> exact absurd h nofun)
    · exact (filterMap_cons_none rfl).trans hearly
  hello h := mem_cons_of_mem _ (hhello h)
  greeted h := absurd h hopen
  timeout h := absurd (.inl h) hopen

/-- An open state entered once the handshake is behind. -/
theorem inv_enter_open (st : State) (hmin : c.minVersion = v) (hsafe : SafeLog v c.log)
    (halive : ∀ t, .entered .disconnected t ∉ c.log) (hopen : st.IsOpen)
    (hgreet : Greeted v c.log) (hidle : st = .idle → Silent c.log now)
    (htimeout : st = .connected →
      ∃ m t, (receivedOf c.log).head? = some (m, t) ∧ c.timeout = t + probeInterval) :
    (c.enter st now).Inv v where
  min := hmin
  safe := ⟨⟨halive, fun _ => hgreet, hidle⟩, hsafe⟩
  alive _ t h := by
    rcases mem_cons.1 h with h | h
    · exact not_isOpen_disconnected ((Event.entered.inj h).1 ▸ hopen)
    · exact halive t h
  state := rfl
  error h := absurd (h ▸ hopen) not_isOpen_disconnected
  early h := by
    rcases h with h | h | h <;>
      exact absurd ((show st = _ from h) ▸ hopen) (by decide)
  hello h := absurd ((show st = _ from h) ▸ hopen) (by decide)
  greeted _ := hgreet.cons _
  timeout := htimeout

section

variable (h : c.Inv v)
include h

/-- A message of a caller handed down, or one returned to it, in an open state. -/
theorem Inv.passed (hopen : c.state.IsOpen) {e : Event} {m : List UInt8}
    (he : e = .handed m c.state ∨ e = .returned m c.state) :
    ({ c with log := e :: c.log } : Conn).Inv v := by
  rcases he with rfl | rfl <;> exact {
    min := h.min
    safe := ⟨hopen, h.safe⟩
    alive := fun hst t ht => (mem_cons.1 ht).elim nofun (h.alive hst t)
    state := h.state
    error := h.error
    early := h.early
    hello := fun hst => mem_cons_of_mem _ (h.hello hst)
    greeted := fun ho => (h.greeted ho).cons _
    timeout := h.timeout }

/-! ### One round of `connect` -/

theorem Inv.sConnecting (hst : c.state = .connecting) (io : Io) : (c.sConnecting io).Inv v := by
  have halive := h.alive (hst ▸ nofun)
  unfold Conn.sConnecting
  split
  · exact inv_enter_early _ h.min h.safe halive (by decide) nofun
      (.inr (h.early (.inl hst))) nofun
  · exact h
  · exact inv_disconnect h.min h.safe halive _ _

theorem Inv.sSendHello (hst : c.state = .sendHello) (io : Io) : (c.sSendHello io).Inv v := by
  have halive := h.alive (hst ▸ nofun)
  unfold Conn.sSendHello
  split
  · refine inv_enter_early _ h.min ⟨trivial, h.safe⟩ (fun t ht => ?_) (by decide) nofun
      (.inr (h.early (.inr (.inl hst)))) (fun _ => mem_cons_self)
    exact (mem_cons.1 ht).elim nofun (halive t)
  · exact h
  · exact inv_disconnect h.min h.safe halive _ _

/-- The first message decides: only a HELLO of a version both sides can do opens the
connection. -/
theorem Inv.sRecvHello (hst : c.state = .recvHello) (io : Io) : (c.sRecvHello io).Inv v := by
  have halive := h.alive (hst ▸ nofun)
  unfold Conn.sRecvHello
  split
  · rename_i m _
    have halive' : ∀ t, .entered .disconnected t ∉ Event.received m io.now :: c.log :=
      fun t ht => (mem_cons.1 ht).elim nofun (halive t)
    have hrecv : receivedOf (.received m io.now :: c.log) = [(m, io.now)] :=
      congrArg (List.cons _) (h.early (.inr (.inr hst)))
    dsimp only
    split_ifs with hm hv hx
    · exact inv_enter_early .sendError h.min ⟨trivial, h.safe⟩ halive' (by decide) nofun
        (.inl rfl) nofun
    · exact inv_enter_early (c := ⟨c.state, c.error, _, c.minVersion, io.now + probeInterval, _⟩)
        .sendError h.min ⟨trivial, h.safe⟩ halive' (by decide) nofun (.inl rfl) nofun
    · refine inv_enter_open (c := ⟨c.state, c.error, _, c.minVersion, io.now + probeInterval,
        .received m io.now :: c.log⟩) .connected h.min ⟨trivial, h.safe⟩ halive' (.inl rfl)
        ⟨mem_cons_of_mem _ (h.hello hst), m, io.now, ?_, hm, h.min ▸ Nat.le_of_not_lt hv,
          Nat.le_of_not_lt hx⟩ nofun (fun _ => ⟨m, io.now, ?_, rfl⟩)
      · rw [hrecv]
        rfl
      · rfl
    · exact inv_disconnect (c := { c with log := .received m io.now :: c.log }) h.min
        ⟨trivial, h.safe⟩ halive' _ _
  · exact h
  · exact inv_disconnect h.min h.safe halive _ _

theorem Inv.sSendError (hst : c.state = .sendError) (io : Io) : (c.sSendError io).Inv v := by
  have halive := h.alive (hst ▸ nofun)
  unfold Conn.sSendError
  split
  · exact h
  all_goals exact inv_disconnect h.min h.safe halive _ _

theorem Inv.advance (io : Io) : (c.advance io).Inv v := by
  unfold Conn.advance
  split
  · exact h.sConnecting ‹_› io
  · exact h.sSendHello ‹_› io
  · exact h.sRecvHello ‹_› io
  · exact h.sSendError ‹_› io
  all_goals exact h

/-- **`connect` returns 0 only in an open state.** -/
theorem Inv.connect (io : Io) :
    (c.connect io).2.Inv v ∧ ((c.connect io).1 = none → (c.connect io).2.state.IsOpen) := by
  obtain ⟨hinv, hnone⟩ := connect_spec (I := fun c => c.Inv v) (fun _ hc => hc.advance io) h
  refine ⟨hinv, fun he => (hnone he).resolve_right ?_⟩
  rintro ⟨hst, herr⟩
  exact hinv.error hst herr

/-! ### The calls -/

theorem Inv.sendPass (oh : List UInt8) (io : Io) : (c.sendPass oh io).2.Inv v := by
  obtain ⟨hinv, hopen⟩ := h.connect io
  unfold Conn.sendPass
  rcases hc : c.connect io with ⟨_ | e, c'⟩
  · rw [hc] at hinv hopen
    exact hinv.passed (hopen rfl) (.inl rfl)
  · rw [hc] at hinv
    exact hinv

theorem Inv.sendOpenflow (oh : List UInt8) (ios : List Io) : (c.sendOpenflow oh ios).2.Inv v := by
  induction ios generalizing c with
  | nil => exact h
  | cons io ios ih =>
    unfold Conn.sendOpenflow
    dsimp only
    split_ifs
    · exact ih (h.sendPass oh io)
    · exact h.sendPass oh io

/-- A message received in an open state is returned in `S_CONNECTED`. -/
theorem Inv.deliver (hopen : c.state.IsOpen) (m : List UInt8) (now : Timeval) :
    (c.deliver m now).Inv v := by
  have hne : c.state ≠ .disconnected := fun hst => not_isOpen_disconnected (hst ▸ hopen)
  -- the connection with the message in its log and the new timeout, in `S_CONNECTED`
  have hconn : ∃ d : Conn, d.Inv v ∧ d.state.IsOpen ∧
      c.deliver m now = { d with log := .returned m d.state :: d.log } := by
    have halive : ∀ t, .entered .disconnected t ∉ Event.received m now :: c.log :=
      fun t ht => (mem_cons.1 ht).elim nofun (h.alive hne t)
    have hgreet : Greeted v (.received m now :: c.log) := (h.greeted hopen).cons _
    unfold Conn.deliver
    rcases hopen with hst | hst
    · refine ⟨{ c with timeout := now + probeInterval, log := .received m now :: c.log },
        ⟨h.min, ⟨trivial, h.safe⟩, fun _ => halive, h.state, h.error, ?_, ?_, fun _ => hgreet,
          fun _ => ⟨m, now, rfl, rfl⟩⟩, .inl hst, ?_⟩
      · rw [hst]
        rintro (h | h | h) <;> exact absurd h nofun
      · rw [hst]
        exact nofun
      · simp [hst]
    · refine ⟨({ c with timeout := now + probeInterval, log := .received m now :: c.log }).enter
        .connected now, ?_, .inl rfl, ?_⟩
      · exact inv_enter_open .connected h.min ⟨trivial, h.safe⟩ halive (.inl rfl) hgreet nofun
          (fun _ => ⟨m, now, rfl, rfl⟩)
      · simp [hst, enter]
  obtain ⟨d, hd, hopen, heq⟩ := hconn
  rw [heq]
  exact hd.passed hopen (.inr rfl)

theorem Inv.recvOpenflow (ios : List Io) : (c.recvOpenflow ios).2.Inv v := by
  induction ios generalizing c with
  | nil => exact h
  | cons io ios ih =>
    obtain ⟨hinv, hopen⟩ := h.connect io
    unfold Conn.recvOpenflow
    rcases hc : c.connect io with ⟨_ | e, c'⟩
    · rw [hc] at hinv hopen
      cases hm : io.doRecv with
      | ok m =>
        exact hinv.deliver (hopen rfl) m io.now
      | error e =>
        dsimp only
        split_ifs
        · exact ih hinv
        · exact hinv
    · rw [hc] at hinv
      exact hinv

end

/-- A call of `send_openflow` in `S_CONNECTED` leaves that state and its timeout, and
receives nothing. -/
theorem sendOpenflow_connected (hst : c.state = .connected) (oh : List UInt8) (ios : List Io) :
    (c.sendOpenflow oh ios).2.state = .connected ∧
      (c.sendOpenflow oh ios).2.timeout = c.timeout := by
  induction ios generalizing c with
  | nil => exact ⟨hst, rfl⟩
  | cons io ios ih =>
    have hpass : c.sendPass oh io =
        (io.doSend, { c with log := .handed oh c.state :: c.log }) := by
      have hconn : c.connect io = (none, c) := if_pos (.inl hst)
      rw [Conn.sendPass, hconn]
    rw [Conn.sendOpenflow, hpass]
    split_ifs
    · exact ih hst
    · exact ⟨hst, rfl⟩

/-- **The timer.**  The probe goes out when the timeout set with the last message is
over. -/
theorem Inv.run (h : c.Inv v) (now : Timeval) (ios : List Io) : (c.run now ios).Inv v := by
  unfold Conn.run
  split_ifs with hdue hst
  · obtain ⟨-, hle⟩ := hdue
    have hinv := h.sendOpenflow echoRequest ios
    obtain ⟨hst', htime⟩ := sendOpenflow_connected hst echoRequest ios
    rcases hsend : c.sendOpenflow echoRequest ios with ⟨r, d⟩
    rw [hsend] at hinv hst' htime
    have hst : d.state = .connected := hst'
    have halive := hinv.alive (hst ▸ nofun)
    have hgreet := hinv.greeted (.inl hst)
    obtain ⟨m, t, hhead, hout⟩ := hinv.timeout hst
    rcases r with _ | _ | e
    · exact hinv
    · exact inv_enter_open (c := { d with timeout := now + probeInterval }) .idle hinv.min
        hinv.safe halive (.inr rfl) hgreet (fun _ => ⟨m, t, hhead, hout ▸ htime ▸ hle⟩) nofun
    · cases e with
      | eagain => exact hinv
      | _ => exact inv_disconnect hinv.min hinv.safe halive _ _
  · have hne : c.state ≠ .disconnected := fun h => not_isOpen_disconnected (h ▸ hdue.1)
    exact inv_disconnect h.min h.safe (h.alive hne) _ _
  · exact h

end Conn

/-! ### Runs -/

/-- The calls on a connection. -/
inductive Call where
  | connect (io : Io)
  | send (oh : List UInt8) (ios : List Io)
  | recv (ios : List Io)
  | run (now : Timeval) (ios : List Io)

namespace Conn

/-- The connection after one call. -/
def step (c : Conn) : Call → Conn
  | .connect io => (c.connect io).2
  | .send oh ios => (c.sendOpenflow oh ios).2
  | .recv ios => (c.recvOpenflow ios).2
  | .run now ios => c.run now ios

theorem Inv.step {c : Conn} {v : ℕ} (h : c.Inv v) (a : Call) : (c.step a).Inv v := by
  cases a with
  | connect io => exact (h.connect io).1
  | send oh ios => exact h.sendOpenflow oh ios
  | recv ios => exact h.recvOpenflow ios
  | run now ios => exact h.run now ios

/-- No call changes anything of a connection that is disconnected with an error. -/
theorem step_disconnected {c : Conn} {e : Errno} (hst : c.state = .disconnected)
    (he : c.error = some e) (a : Call) : c.step a = c := by
  have hopen : ¬ c.state.IsOpen := hst ▸ not_isOpen_disconnected
  have hconn : ∀ io, c.connect io = (some e, c) := by
    intro io
    rw [Conn.connect, connectLoop, if_neg hopen, if_pos hst, he]
  cases a with
  | connect io => exact congrArg Prod.snd (hconn io)
  | send oh ios =>
    change (c.sendOpenflow oh ios).2 = c
    have hpass : ∀ io, c.sendPass oh io = (some e, c) := by
      intro io
      rw [Conn.sendPass, hconn io]
    induction ios with
    | nil => rfl
    | cons io ios ih =>
      rw [Conn.sendOpenflow, hpass io]
      split_ifs
      · exact ih
      · rfl
  | recv ios =>
    cases ios with
    | nil => rfl
    | cons io ios =>
      change (c.recvOpenflow (io :: ios)).2 = c
      rw [Conn.recvOpenflow, hconn io]
  | run now ios => exact if_neg fun h => hopen h.1

end Conn

/-- **Handshake safety.**  In every log of a connection, after any calls with any
results of the transport: messages of callers are handed down, and received messages
returned, in `S_CONNECTED` and `S_IDLE` only; these states are entered only when our
HELLO was accepted for sending and the first message received was a HELLO whose version
fits; `S_IDLE` is entered only when the last message is a probe interval old; and no
state is entered after `S_DISCONNECTED`, whose error stays. -/
theorem handshake_safe (minVersion : ℕ) (error : Option Errno) (version : ℕ) (timeout : Timeval)
    (calls : List Call) :
    let c := calls.foldl Conn.step (Conn.init minVersion error version timeout)
    c.state = stateOf c.log ∧
      (∀ oh st, .handed oh st ∈ c.log → st = .connected ∨ st = .idle) ∧
      (∀ m st, .returned m st ∈ c.log → st = .connected ∨ st = .idle) ∧
      (∀ newer older st now, c.log = newer ++ .entered st now :: older →
        (st = .connected ∨ st = .idle → Greeted minVersion older) ∧
        (st = .idle → Silent older now) ∧
        ∀ t, .entered .disconnected t ∉ older) ∧
      (c.state = .disconnected → ∀ a, (c.step a).state = .disconnected ∧
        (c.step a).error = c.error) := by
  intro c
  have hinv : c.Inv minVersion :=
    List.foldlRecOn (motive := fun d : Conn => d.Inv minVersion) calls Conn.step
      (Conn.inv_init minVersion error version timeout) fun _ h a _ => h.step a
  have hjust : ∀ e ∈ c.log, ∃ older, e.Justified minVersion older := by
    intro e he
    obtain ⟨newer, older, hlog⟩ := append_of_mem he
    exact ⟨older, (hlog ▸ hinv.safe).split⟩
  refine ⟨hinv.state, fun oh st h => ?_, fun m st h => ?_, fun newer older st now hlog => ?_,
    fun hst a => ?_⟩
  · obtain ⟨_, hopen⟩ := hjust _ h
    exact hopen
  · obtain ⟨_, hopen⟩ := hjust _ h
    exact hopen
  · have hsafe := hinv.safe
    rw [hlog] at hsafe
    obtain ⟨halive, hgreet, hidle⟩ := hsafe.split
    exact ⟨hgreet, hidle, halive⟩
  · obtain ⟨e, he⟩ := Option.ne_none_iff_exists'.1 (hinv.error hst)
    rw [Conn.step_disconnected hst he a]
    exact ⟨hst, rfl⟩

end NoxClassic.Openflow
