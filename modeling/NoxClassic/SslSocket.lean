/-
# The SSL socket

`Ssl_socket` of `lib/ssl-socket.cc`: every call first advances the connection as far as
it goes without blocking (`state_machine`), reads and writes ask OpenSSL only once the
handshake is done, and `rx_want` and `tx_want` remember what the last `SSL_read` and
`SSL_write` would wait for.  The results of the system and of OpenSSL are arguments.

`safe` is cleared where the code would reach `NOT_REACHED()`, and where OpenSSL is called
on a session that is null or, to read or write, has not finished its handshake.  A want
flag is `none` while the constructor has left it without a value.
-/

import NoxClassic.Lib.Run

namespace NoxClassic.SslSocket

/-- The states of the connection. -/
inductive Phase where
  | notConnected
  | tcpAccepting
  | tcpConnecting
  | tcpConnected
  | sslConnecting
  | connected
deriving DecidableEq

/-- The two directions. -/
inductive Side where
  | rx
  | tx
deriving DecidableEq

/-- `SSL_NOTHING`, `SSL_READING` and `SSL_WRITING`; as a wait, an immediate wake-up and the two
waits for the file descriptor. -/
inductive Want where
  | nothing
  | reading
  | writing
deriving DecidableEq

/-- The error of a call that failed. -/
abbrev Errno : Type := { n : ℕ // n ≠ 0 }

def EBADF : Errno := ⟨9, by decide⟩
def EAGAIN : Errno := ⟨11, by decide⟩
def EPIPE : Errno := ⟨32, by decide⟩
def EPROTO : Errno := ⟨71, by decide⟩
def ENOPROTOOPT : Errno := ⟨92, by decide⟩
def ECONNRESET : Errno := ⟨104, by decide⟩
def ENOTCONN : Errno := ⟨107, by decide⟩

/-- What happened, the newest first: an `SSL_read` or `SSL_write` with what it would wait for and
whether it changed the SSL state, and a wait, of `ssl_wait` for a direction or of another
function. -/
inductive Event where
  | io (side : Side) (report : Want) (changed : Bool)
  | wait (side : Option Side) (want : Want)
deriving DecidableEq

/-- `Ssl_socket`; a session says whether its handshake is done, and `sslWant` is its
`SSL_want`. -/
structure Socket where
  state : Phase
  ssl : Option Bool
  sslWant : Want
  connectError : Option Errno
  want : Side → Option Want
  safe : Bool
  log : List Event

/-- What `SSL_connect` or `SSL_accept` returns. -/
inductive Handshake where
  | done
  | wantRead
  | wantWrite
  | failed

/-- What the system and OpenSSL return to `state_machine`. -/
structure Answers where
  /-- `poll` finds the descriptor writable. -/
  poll : Bool
  /-- `SO_ERROR`, or the error of `getsockopt`. -/
  error : Option Errno
  /-- `new_ssl` and `SSL_set_fd` succeed. -/
  setSsl : Bool
  /-- There is no session to resume, or `SSL_set_session` succeeds. -/
  setSession : Bool
  handshake : Handshake

namespace Socket

/-- `NOT_REACHED`. -/
def notReached (s : Socket) : Socket := { s with safe := false }

/-- `connect_completed`. -/
def connectCompleted (s : Socket) (error : Option Errno) : Socket :=
  { s with state := .connected, connectError := error }

/-- `state_machine` in `STATE_SSL_CONNECTING`. -/
def handshake (s : Socket) (a : Answers) : Socket :=
  let s := { s with safe := s.safe && s.ssl.isSome }
  match a.handshake with
  | .done => { s with ssl := some true, sslWant := .nothing }.connectCompleted none
  | .wantRead => { s with sslWant := .reading }
  | .wantWrite => { s with sslWant := .writing }
  | .failed => { s with sslWant := .nothing }.connectCompleted (some EPROTO)

/-- `state_machine` in `STATE_TCP_CONNECTED`. -/
def startSsl (s : Socket) (a : Answers) : Socket :=
  if a.setSsl = false then { s with ssl := none }.connectCompleted (some ENOPROTOOPT)
  else if a.setSession = false then
    { s with ssl := some false }.connectCompleted (some ENOPROTOOPT)
  else { s with ssl := some false, state := .sslConnecting }.handshake a

/-- `state_machine`. -/
def stateMachine (s : Socket) (a : Answers) : Socket :=
  match s.state with
  | .notConnected | .tcpAccepting | .connected => s
  | .tcpConnecting =>
    if a.poll = false then s
    else match a.error with
      | some error => s.connectCompleted (some error)
      | none => s.startSsl a
  | .tcpConnected => s.startSsl a
  | .sslConnecting => s.handshake a

/-- A wait for the file descriptor, or an immediate wake-up. -/
def block (s : Socket) (side : Option Side) (want : Want) : Socket :=
  { s with log := .wait side want :: s.log }

/-- `wait_to_finish_connecting`. -/
def waitToFinishConnecting (s : Socket) (a : Answers) : Bool × Socket :=
  let s := s.stateMachine a
  match s.state with
  | .notConnected => (true, s.block none .nothing)
  | .tcpAccepting => (true, s.block none .reading)
  | .tcpConnecting => (true, s.block none .writing)
  | .tcpConnected => (true, s.notReached)
  | .sslConnecting =>
    match s.sslWant with
    | .nothing => (true, s.notReached)
    | want => (true, s.block none want)
  | .connected => (false, s)

/-- `ssl_wait`. -/
def sslWait (s : Socket) (side : Side) : Socket :=
  match s.want side with
  | none => s.notReached
  | some want => s.block (some side) want

/-- `read_wait` and `write_wait`. -/
def wait (s : Socket) (side : Side) (a : Answers) : Socket :=
  match s.waitToFinishConnecting a with
  | (true, s) => s
  | (false, s) => s.sslWait side

/-- `connect_wait`. -/
def connectWait (s : Socket) (a : Answers) : Socket :=
  match s.waitToFinishConnecting a with
  | (true, s) => s
  | (false, s) => s.block none .nothing

/-- The client's constructor. -/
def client : Socket := ⟨.notConnected, none, .nothing, none, fun _ => none, true, []⟩

/-- The constructor for a descriptor that was accepted. -/
def accepted (a : Answers) : Socket :=
  stateMachine ⟨.tcpConnected, none, .nothing, none, fun _ => some .nothing, true, []⟩ a

end Socket

/-- What `::connect` returns. -/
inductive Connecting where
  | ok
  | inProgress
  | error (errno : Errno)

/-- What `SSL_read` or `SSL_write` returns. -/
inductive Reply where
  | done (n : ℕ)
  | eof
  | wantRead
  | wantWrite
  | failed

/-- What the call would wait for. -/
def Reply.want : Reply → Want
  | .wantRead => .reading
  | .wantWrite => .writing
  | .done _ | .eof | .failed => .nothing

namespace Socket

/-- `connect` without blocking; to block is to repeat `connectWait` and `getConnectError`. -/
def connect (s : Socket) : Connecting → Socket
  | .ok => { s with state := .tcpConnected }
  | .inProgress => { s with state := .tcpConnecting }
  | .error errno => { s with state := .connected, connectError := some errno }

/-- `get_connect_error`. -/
def getConnectError (s : Socket) (a : Answers) : Option Errno × Socket :=
  let s := s.stateMachine a
  (match s.state with
    | .notConnected => some ENOTCONN
    | .connected => s.connectError
    | _ => some EAGAIN, s)

/-- The call of OpenSSL in `do_read` and `do_write`. -/
def call (s : Socket) (side : Side) (report : Want) (changed : Bool) : Socket :=
  { s with
    safe := s.safe && s.ssl == some true
    want := fun d =>
      if d = side then some report else if changed then some .nothing else s.want d
    log := .io side report changed :: s.log }

/-- `do_read` and `do_write`, for the error without a connection and the result at its end. -/
def transfer (side : Side) (unconnected : Errno) (eof : Except Errno ℕ) (s : Socket) (size : ℕ)
    (a : Answers) (r : Reply) (changed : Bool) : Except Errno ℕ × Socket :=
  let s := s.stateMachine a
  if s.state = .connected then
    match s.connectError with
    | some error => (.error error, s)
    | none =>
      if size = 0 then (.ok 0, s)
      else
        (match r with
          | .done n => .ok n
          | .eof => eof
          | .wantRead | .wantWrite => .error EAGAIN
          | .failed => .error EPROTO, s.call side r.want changed)
  else (.error (if s.state = .notConnected then unconnected else EAGAIN), s)

/-- `do_read`. -/
def doRead : Socket → ℕ → Answers → Reply → Bool → Except Errno ℕ × Socket :=
  transfer .rx ENOTCONN (.ok 0)

/-- `do_write`. -/
def doWrite : Socket → ℕ → Answers → Reply → Bool → Except Errno ℕ × Socket :=
  transfer .tx ECONNRESET (.error EPIPE)

/-- `close`. -/
def close (s : Socket) : Socket :=
  { s with ssl := none, state := .connected, connectError := some EBADF }

end Socket

/-- A call, with the results it gets. -/
inductive Act where
  | connect (c : Connecting) (a : Answers)
  | getConnectError (a : Answers)
  | read (size : ℕ) (a : Answers) (r : Reply) (changed : Bool)
  | write (size : ℕ) (a : Answers) (r : Reply) (changed : Bool)
  | wait (side : Side) (a : Answers)
  | connectWait (a : Answers)
  /-- A `listen` that succeeds. -/
  | listen
  | close

/-- One call. -/
def Socket.step (s : Socket) : Act → Option Socket
  | .connect c a => some ((s.connect c).getConnectError a).2
  | .getConnectError a => some (s.getConnectError a).2
  | .read size a r changed => some (s.doRead size a r changed).2
  | .write size a r changed => some (s.doWrite size a r changed).2
  | .wait side a => some (s.wait side a)
  | .connectWait a => some (s.connectWait a)
  | .listen => some { s with state := .tcpAccepting }
  | .close => some s.close

/-- What a wait for a direction is due to wait for: what the last call in this direction reported,
or nothing when a later call in the other direction changed the SSL state. -/
def due (side : Side) : List Event → Want
  | [] => .nothing
  | .io d report changed :: log =>
    if d = side then report else if changed then .nothing else due side log
  | .wait _ _ :: log => due side log

/-- Every wait was for what was due. -/
def Matched : List Event → Prop
  | [] => True
  | .wait (some side) want :: log => want = due side log ∧ Matched log
  | _ :: log => Matched log

/-- OpenSSL was called in the direction, or in the other with a change of the SSL state. -/
def Called (side : Side) (log : List Event) : Prop :=
  ∃ d report changed, Event.io d report changed ∈ log ∧ (d = side ∨ changed = true)

theorem Called.of_wait {side : Side} {d : Option Side} {want : Want} {log : List Event}
    (h : Called side (.wait d want :: log)) : Called side log := by
  obtain ⟨e, report, changed, hmem, he⟩ := h
  exact ⟨e, report, changed, (List.mem_cons.1 hmem).resolve_left nofun, he⟩

/-- A connected socket waits for a direction only after such a call. -/
def Heeds (s : Socket) : Act → Prop
  | .wait side a => (s.stateMachine a).state = .connected → Called side s.log
  | _ => True

/-! ### The invariant -/

/-- What holds between the calls; `accepted` says that the constructor gave the want flags a value,
which otherwise a call does. -/
structure Inv (accepted : Prop) (s : Socket) : Prop where
  safe : s.safe = true
  /-- The session of a connection without an error. -/
  ready : s.state = .connected → s.connectError = none → s.ssl = some true
  ssl : s.state = .sslConnecting → s.ssl.isSome
  want : ∀ side w, s.want side = some w → w = due side s.log
  isSome : ∀ side, accepted ∨ Called side s.log → (s.want side).isSome
  matched : Matched s.log

/-- What `state_machine` establishes besides. -/
structure Advanced (accepted : Prop) (s : Socket) : Prop extends Inv accepted s where
  left : s.state ≠ .tcpConnected
  wants : s.state = .sslConnecting → s.sslWant ≠ .nothing

variable {accepted : Prop} {s s' : Socket}

section

variable (h : Inv accepted s)
include h

theorem Inv.completed (error : Errno) : Advanced accepted (s.connectCompleted (some error)) :=
  ⟨⟨h.safe, nofun, nofun, h.want, h.isSome, h.matched⟩, nofun, nofun⟩

theorem Inv.handshake (hs : s.state = .sslConnecting) (a : Answers) :
    Advanced accepted (s.handshake a) := by
  have hssl := h.ssl hs
  have hsafe : (s.safe && s.ssl.isSome) = true := by rw [h.safe, hssl, Bool.and_self]
  unfold Socket.handshake
  cases a.handshake with
  | done => exact ⟨⟨hsafe, fun _ _ => rfl, nofun, h.want, h.isSome, h.matched⟩, nofun, nofun⟩
  | wantRead | wantWrite =>
    refine ⟨⟨hsafe, h.ready, fun _ => hssl, h.want, h.isSome, h.matched⟩, ?_, fun _ => nofun⟩
    simp [hs]
  | failed => exact ⟨⟨hsafe, nofun, nofun, h.want, h.isSome, h.matched⟩, nofun, nofun⟩

theorem Inv.startSsl (a : Answers) : Advanced accepted (s.startSsl a) := by
  unfold Socket.startSsl
  split_ifs
  · exact ⟨⟨h.safe, nofun, nofun, h.want, h.isSome, h.matched⟩, nofun, nofun⟩
  · exact ⟨⟨h.safe, nofun, nofun, h.want, h.isSome, h.matched⟩, nofun, nofun⟩
  · have hnew : Inv accepted { s with ssl := some false, state := .sslConnecting } :=
      ⟨h.safe, nofun, fun _ => rfl, h.want, h.isSome, h.matched⟩
    exact hnew.handshake rfl a

theorem Inv.stateMachine (a : Answers) : Advanced accepted (s.stateMachine a) := by
  unfold Socket.stateMachine
  cases hs : s.state with
  | notConnected | tcpAccepting | connected => exact ⟨h, by simp [hs], by simp [hs]⟩
  | tcpConnecting =>
    split_ifs
    · exact ⟨h, by simp [hs], by simp [hs]⟩
    · cases a.error with
      | none => exact h.startSsl a
      | some error => exact h.completed error
  | tcpConnected => exact h.startSsl a
  | sslConnecting => exact h.handshake hs a

/-- A wait that is not for a direction. -/
theorem Inv.block (want : Want) : Inv accepted (s.block none want) :=
  { h with isSome := fun side hc => h.isSome side (hc.imp_right .of_wait) }

/-- A wait while connecting, or none once connected. -/
theorem Inv.waitToFinishConnecting (a : Answers) :
    (∃ t, s.waitToFinishConnecting a = (true, t) ∧ Inv accepted t) ∨
      (s.waitToFinishConnecting a = (false, s.stateMachine a) ∧
        (s.stateMachine a).state = .connected) := by
  have hadv := h.stateMachine a
  unfold Socket.waitToFinishConnecting
  cases hs : (s.stateMachine a).state with
  | notConnected | tcpAccepting | tcpConnecting =>
    simp only [hs]
    exact .inl ⟨_, rfl, hadv.block _⟩
  | tcpConnected => exact absurd hs hadv.left
  | sslConnecting =>
    cases hw : (s.stateMachine a).sslWant with
    | nothing => exact absurd hw (hadv.wants hs)
    | reading | writing =>
      simp only [hs, hw]
      exact .inl ⟨_, rfl, hadv.block _⟩
  | connected =>
    simp only [hs]
    exact .inr ⟨trivial, trivial⟩

/-- What a call in one direction leaves due. -/
theorem Inv.call (hs : s.state = .connected) (hc : s.connectError = none)
    (side : Side) (report : Want) (changed : Bool) : Inv accepted (s.call side report changed) := by
  refine ⟨?_, h.ready, h.ssl, fun d w hw => ?_, fun d hd => ?_, h.matched⟩
  · simp [Socket.call, h.safe, h.ready hs hc]
  · simp only [Socket.call] at hw
    simp only [Socket.call, due]
    by_cases hd : d = side
    · rw [if_pos hd] at hw
      rw [if_pos hd.symm]
      exact (Option.some.inj hw).symm
    · rw [if_neg hd] at hw
      rw [if_neg (Ne.symm hd)]
      cases changed with
      | true => exact (Option.some.inj hw).symm
      | false => exact h.want d w hw
  · simp only [Socket.call]
    split_ifs with hside hchanged
    · rfl
    · rfl
    -- this call gave the flag no value, so an earlier one did
    · refine h.isSome d (hd.imp_right ?_)
      rintro ⟨e, want, c, hmem, he⟩
      rcases List.mem_cons.1 hmem with heq | hmem
      · cases heq
        exact absurd he (not_or.2 ⟨Ne.symm hside, hchanged⟩)
      · exact ⟨e, want, c, hmem, he⟩

theorem Inv.transfer (side : Side) (unconnected : Errno) (eof : Except Errno ℕ)
    (size : ℕ) (a : Answers) (r : Reply) (changed : Bool) :
    Inv accepted (s.transfer side unconnected eof size a r changed).2 := by
  have hadv := (h.stateMachine a).toInv
  unfold Socket.transfer
  dsimp only
  split_ifs with hs hsize
  · cases (s.stateMachine a).connectError <;> exact hadv
  · cases hc : (s.stateMachine a).connectError with
    | some error => exact hadv
    | none => exact hadv.call hs hc side r.want changed
  all_goals exact hadv

theorem Inv.connect (c : Connecting) : Inv accepted (s.connect c) := by
  cases c with
  | ok | inProgress | error => exact ⟨h.safe, nofun, nofun, h.want, h.isSome, h.matched⟩

end

theorem want_stateMachine (a : Answers) : (s.stateMachine a).want = s.want := by
  have hstart : (s.startSsl a).want = s.want := by
    unfold Socket.startSsl Socket.handshake
    split_ifs
    · rfl
    · rfl
    · cases a.handshake <;> rfl
  unfold Socket.stateMachine
  cases s.state with
  | notConnected | tcpAccepting | connected => rfl
  | tcpConnecting =>
    split_ifs
    · rfl
    · cases a.error with
      | none => exact hstart
      | some error => rfl
  | tcpConnected => exact hstart
  | sslConnecting =>
    unfold Socket.handshake
    cases a.handshake <;> rfl

theorem Inv.wait (h : Inv accepted s) {side : Side} {a : Answers}
    (ha : (s.stateMachine a).state = .connected → accepted ∨ Called side s.log) :
    Inv accepted (s.wait side a) := by
  unfold Socket.wait
  rcases h.waitToFinishConnecting a with ⟨t, ht, hinv⟩ | ⟨ht, hs⟩
  · rw [ht]
    exact hinv
  have hadv := (h.stateMachine a).toInv
  obtain ⟨w, hw⟩ := Option.isSome_iff_exists.1 (h.isSome side (ha hs))
  rw [← want_stateMachine a] at hw
  rw [ht]
  simp only [Socket.sslWait, hw]
  exact ⟨hadv.safe, hadv.ready, hadv.ssl, hadv.want,
    fun d hd => hadv.isSome d (hd.imp_right .of_wait), hadv.want side w hw, hadv.matched⟩

theorem Inv.connectWait (h : Inv accepted s) (a : Answers) : Inv accepted (s.connectWait a) := by
  unfold Socket.connectWait
  rcases h.waitToFinishConnecting a with ⟨t, ht, hinv⟩ | ⟨ht, -⟩ <;> rw [ht]
  · exact hinv
  · exact (h.stateMachine a).block _

theorem Inv.step {a : Act} (h : Inv accepted s) (ha : accepted ∨ Heeds s a)
    (hs : s.step a = some s') : Inv accepted s' := by
  cases a <;> cases hs
  case connect c a => exact ((h.connect c).stateMachine a).toInv
  case getConnectError a => exact (h.stateMachine a).toInv
  case read size a r changed => exact h.transfer ..
  case write size a r changed => exact h.transfer ..
  case wait side a => exact h.wait fun hs => ha.imp_right fun ha => ha hs
  case connectWait a => exact h.connectWait a
  case listen => exact ⟨h.safe, nofun, nofun, h.want, h.isSome, h.matched⟩
  case close => exact ⟨h.safe, nofun, nofun, h.want, h.isSome, h.matched⟩

/-- A socket that was just constructed. -/
inductive Constructed : Socket → Prop
  | client : Constructed .client
  | accepted (a : Answers) : Constructed (.accepted a)

theorem inv_client : Inv False .client :=
  ⟨rfl, nofun, nofun, nofun, fun _ h => absurd h (by rintro (h | ⟨_, _, _, h, _⟩) <;> cases h),
    trivial⟩

/-- An accepted socket needs no call for its want flags. -/
theorem inv_accepted (a : Answers) : Inv True (.accepted a) := by
  have hnew : Inv True ⟨.tcpConnected, none, .nothing, none, fun _ => some .nothing, true, []⟩ :=
    ⟨rfl, nofun, nofun, fun _ _ hw => (Option.some.inj hw).symm, fun _ _ => rfl, trivial⟩
  exact (hnew.stateMachine a).toInv

/-- **The socket is safe.**  In every run of an accepted socket, and in every run of a client in
which a connected socket waits for a direction only after a call of OpenSSL in it (or one
that changed the SSL state): `NOT_REACHED()` is not reached; OpenSSL reads and writes only in a
session whose handshake is done; and every `read_wait` and `write_wait` of a connected socket
waits for what its last call reported, or for nothing when a later call in the other direction
changed the SSL state. -/
theorem socket_safe {s₀ : Socket} {acts : List Act} (hnew : Constructed s₀)
    (hwant : s₀ = .client → Lib.Along Socket.step Heeds s₀ acts)
    (hrun : Lib.run Socket.step s₀ acts = some s) : s.safe = true ∧ Matched s.log := by
  cases hnew with
  | client =>
    have h : Inv False s := Lib.run_invariant_of_along (fun _ _ _ h ha hs => h.step (.inr ha) hs)
      inv_client (hwant rfl) hrun
    exact ⟨h.safe, h.matched⟩
  | accepted a =>
    have h : Inv True s := Lib.run_invariant (fun _ _ _ h hs => h.step (.inl trivial) hs)
      (inv_accepted a) hrun
    exact ⟨h.safe, h.matched⟩

/-- All goes well. -/
def fine : Answers := ⟨true, none, true, true, .done⟩

/-- The hypotheses of `socket_safe` are satisfiable: a client that connects, reads and waits. -/
theorem socket_safe_client : ∃ s, Lib.run Socket.step .client
    [.connect .ok fine, .read 1 fine .wantRead false, .wait .rx fine] = some s ∧ Matched s.log := by
  have hrun : Lib.run Socket.step .client
      [.connect .ok fine, .read 1 fine .wantRead false, .wait .rx fine] = some _ := rfl
  refine ⟨_, hrun, (socket_safe .client (fun _ => ?_) hrun).2⟩
  refine ⟨trivial, fun s1 h1 => ⟨trivial, fun s2 h2 => ⟨fun _ => ?_, fun _ _ => trivial⟩⟩⟩
  cases h1
  cases h2
  exact ⟨.rx, _, false, List.mem_cons_self, .inl rfl⟩

/-- **A flag without a value**: a client that waits to read as soon as it is connected. -/
theorem client_waits_unset : (Lib.run Socket.step .client
    [.connect .ok fine, .wait .rx fine]).map Socket.safe = some false := rfl

end NoxClassic.SslSocket
