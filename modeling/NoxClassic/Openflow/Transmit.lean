/-
# Sending OpenFlow messages to a stream

`Openflow_stream_connection::do_send_openflow`, `send_tx_buf` and `tx_run`
(`src/lib/openflow.cc`) over `Async_stream::write_fully` (`src/lib/async_io.cc`).
A message that the transport did not take whole stays in `tx_buf` and is continued
by the next send or by `tx_run`, which the state machine `tx_fsm` activates at any
later time.

For each `write` an `Accept` says what the transport does with the bytes it is
offered.  `write_fully` goes on until the buffer is empty or a write takes nothing;
it is given the list of what the transport will do, and past the end of that list
the transport has no room.
-/

import NoxClassic.Lib.Run
import NoxClassic.Openflow.Receive

namespace NoxClassic.Openflow

open List Lib

/-- What the transport does for one `write`: no room, an error, or up to `n` bytes
taken. -/
inductive Accept where
  | again
  | fail (n : ℕ)
  | upTo (n : ℕ)
  deriving DecidableEq, Repr

/-- `Async_stream::write_fully`: the bytes written and the error.  A write that
returns 0 ends the loop without an error. -/
def writeFully : List UInt8 → List Accept → List UInt8 × Option Errno
  | [], _ => ([], none)
  | _ :: _, [] => ([], some .eagain)
  | _ :: _, .again :: _ => ([], some .eagain)
  | _ :: _, .fail n :: _ => ([], some (.transport n))
  | _ :: _, .upTo 0 :: _ => ([], none)
  | x :: xs, .upTo (n + 1) :: ws =>
    let k := min (n + 1) (xs.length + 1)
    let rest := writeFully ((x :: xs).drop k) ws
    ((x :: xs).take k ++ rest.1, rest.2)

/-- What is written is the front of the buffer. -/
theorem writeFully_append_drop (buf : List UInt8) (ws : List Accept) :
    (writeFully buf ws).1 ++ buf.drop (writeFully buf ws).1.length = buf := by
  fun_induction writeFully buf ws with
  | case6 x xs n ws k rest ih =>
    have hk : ((x :: xs).take k).length = k := length_take_of_le (min_le_right _ _)
    rw [length_append, hk, ← drop_drop, append_assoc, ih, take_append_drop]
  | _ => rfl

/-- The sending half of an `Openflow_stream_connection`, with the bytes that its
transport has taken. -/
structure Sender where
  written : List UInt8
  txBuf : Option (List UInt8)
  deriving DecidableEq, Repr

namespace Sender

/-- What is still to be written. -/
def pending (s : Sender) : List UInt8 := s.txBuf.getD []

/-- `send_tx_buf`, for a `tx_buf` that holds `buf`. -/
def sendTxBuf (s : Sender) (buf : List UInt8) (ws : List Accept) : Option Errno × Sender :=
  let w := writeFully buf ws
  let s' : Sender := ⟨s.written ++ w.1, some (buf.drop w.1.length)⟩
  match w.2 with
  | some e => (some e, s')
  | none => if (buf.drop w.1.length).length = 0 then (none, { s' with txBuf := none })
      else (some .eagain, s')

/-- The second half of `do_send_openflow`: the message is copied to `tx_buf`, and what
the transport does not take at once is left to `tx_fsm`. -/
def sendCopy (s : Sender) (oh : List UInt8) (ws : List Accept) : Option Errno × Sender :=
  match s.sendTxBuf (oh.take (ofpLength oh)) ws with
  | (some .eagain, s') => (none, s')
  | (e, s') => (e, s')

/-- `do_send_openflow` of the message at `oh`; `ws₁` is for the message before it,
`ws₂` for this one. -/
def doSendOpenflow (s : Sender) (oh : List UInt8) (ws₁ ws₂ : List Accept) : Option Errno × Sender :=
  match s.txBuf with
  | none => s.sendCopy oh ws₂
  | some buf =>
    match s.sendTxBuf buf ws₁ with
    | (some e, s') => (some e, s')
    | (none, s') => s'.sendCopy oh ws₂

/-- `tx_run`. -/
def txRun (s : Sender) (ws : List Accept) : Option Errno × Sender :=
  match s.txBuf with
  | none => (none, s)
  | some buf => s.sendTxBuf buf ws

variable {buf oh : List UInt8} {e : Option Errno} {s s' : Sender} {ws : List Accept}

/-- **`send_tx_buf` moves bytes** from the front of the buffer to the transport, and
reports success exactly when none are left. -/
theorem sendTxBuf_spec (h : s.sendTxBuf buf ws = (e, s')) :
    s'.written ++ s'.pending = s.written ++ buf ∧ (e = none → s'.txBuf = none) := by
  have hmove : s.written ++ (writeFully buf ws).1 ++ buf.drop (writeFully buf ws).1.length =
      s.written ++ buf := by
    rw [append_assoc, writeFully_append_drop]
  simp only [sendTxBuf] at h
  split at h
  · obtain ⟨rfl, rfl⟩ := Prod.mk.inj h
    exact ⟨hmove, nofun⟩
  · split_ifs at h with hnil <;> obtain ⟨rfl, rfl⟩ := Prod.mk.inj h
    · rw [length_eq_zero_iff.1 hnil] at hmove
      exact ⟨hmove, fun _ => rfl⟩
    · exact ⟨hmove, nofun⟩

/-- Nothing is pending where `tx_buf` is null. -/
theorem pending_of_none (h : s.txBuf = none) : s.pending = [] := by
  rw [pending, h, Option.getD_none]

theorem pending_of_some (h : s.txBuf = some buf) : s.pending = buf := by
  rw [pending, h, Option.getD_some]

/-- The copy follows what was written, where nothing was pending. -/
theorem sendCopy_spec (hnone : s.txBuf = none) (h : s.sendCopy oh ws = (e, s')) :
    s'.written ++ s'.pending = s.written ++ s.pending ++ oh.take (ofpLength oh) ∧
      e ≠ some .eagain := by
  rw [pending_of_none hnone, append_nil]
  rcases hsend : s.sendTxBuf (oh.take (ofpLength oh)) ws with ⟨e0, s0⟩
  have hmove := (sendTxBuf_spec hsend).1
  unfold sendCopy at h
  rw [hsend] at h
  split at h
  · obtain ⟨rfl, rfl⟩ := Prod.mk.inj h
    rename_i heq
    obtain ⟨-, rfl⟩ := Prod.mk.inj heq
    exact ⟨hmove, nofun⟩
  · rename_i hne heq
    obtain ⟨rfl, rfl⟩ := Prod.mk.inj h
    obtain ⟨rfl, rfl⟩ := Prod.mk.inj heq
    refine ⟨hmove, ?_⟩
    rintro rfl
    exact hne rfl

/-- **One send.**  The bytes written and pending grow by the message, except that a
call which reports `EAGAIN` adds nothing. -/
theorem doSendOpenflow_spec {ws₁ ws₂ : List Accept} (h : s.doSendOpenflow oh ws₁ ws₂ = (e, s')) :
    (e = none → s'.written ++ s'.pending = s.written ++ s.pending ++ oh.take (ofpLength oh)) ∧
      (e = some .eagain → s'.written ++ s'.pending = s.written ++ s.pending) := by
  unfold doSendOpenflow at h
  split at h
  · rename_i hnone
    obtain ⟨hmove, hne⟩ := sendCopy_spec hnone h
    exact ⟨fun _ => hmove, fun he => absurd he hne⟩
  · rename_i buf hbuf
    rcases hsend : s.sendTxBuf buf ws₁ with ⟨e0, s0⟩
    obtain ⟨hmove0, hdone⟩ := sendTxBuf_spec hsend
    rw [← pending_of_some hbuf] at hmove0
    rw [hsend] at h
    cases e0 with
    | some e0 =>
      obtain ⟨rfl, rfl⟩ := Prod.mk.inj h
      exact ⟨nofun, fun _ => hmove0⟩
    | none =>
      obtain ⟨hmove, hne⟩ := sendCopy_spec (hdone rfl) h
      rw [hmove0] at hmove
      exact ⟨fun _ => hmove, fun he => absurd he hne⟩

theorem txRun_spec
    (h : s.txRun ws = (e, s')) : s'.written ++ s'.pending = s.written ++ s.pending := by
  unfold txRun at h
  split at h
  · obtain ⟨-, rfl⟩ := Prod.mk.inj h
    rfl
  · rename_i buf hbuf
    rw [pending_of_some hbuf]
    exact (sendTxBuf_spec h).1

end Sender

/-! ### Runs -/

/-- The ways in which the sending half is entered. -/
inductive TxAction where
  | send (oh : List UInt8) (ws₁ ws₂ : List Accept)
  | txRun (ws : List Accept)
  deriving DecidableEq, Repr

/-- A sender with the messages whose call returned 0, in call order. -/
structure TxState where
  conn : Sender
  accepted : List (List UInt8)
  deriving DecidableEq, Repr

/-- A connection before its first send. -/
def TxState.init : TxState := ⟨⟨[], none⟩, []⟩

/-- The errors after which the stream is closed. -/
def Errno.isFatal : Errno → Bool
  | .eagain => false
  | _ => true

/-- One call.  There is no step after a fatal error of the transport. -/
def TxState.step (s : TxState) : TxAction → Option TxState
  | .send oh ws₁ ws₂ =>
    match s.conn.doSendOpenflow oh ws₁ ws₂ with
    | (none, c) => some ⟨c, s.accepted ++ [oh.take (ofpLength oh)]⟩
    | (some e, c) => if e.isFatal then none else some { s with conn := c }
  | .txRun ws =>
    match s.conn.txRun ws with
    | (none, c) => some { s with conn := c }
    | (some e, c) => if e.isFatal then none else some { s with conn := c }

/-- What is written and what is pending are the accepted messages. -/
def TxState.Lossless (s : TxState) : Prop :=
  s.conn.written ++ s.conn.pending = s.accepted.flatten

/-- One call keeps the accepted messages whole and in order. -/
theorem TxState.Lossless.step {s t : TxState} {a : TxAction} (h : s.Lossless)
    (hstep : s.step a = some t) : t.Lossless := by
  unfold Lossless at h ⊢
  cases a with
  | send oh ws₁ ws₂ =>
    rcases hsend : s.conn.doSendOpenflow oh ws₁ ws₂ with ⟨e, c⟩
    obtain ⟨hnone, hagain⟩ := Sender.doSendOpenflow_spec hsend
    simp only [TxState.step, hsend] at hstep
    cases e with
    | none =>
      cases hstep
      rw [flatten_append, flatten_singleton, ← h]
      exact hnone rfl
    | some e =>
      cases e with
      | eagain =>
        cases hstep
        exact (hagain rfl).trans h
      | _ => exact absurd hstep nofun
  | txRun ws =>
    rcases hrun : s.conn.txRun ws with ⟨e, c⟩
    have hmove := Sender.txRun_spec hrun
    simp only [TxState.step, hrun] at hstep
    cases e with
    | none =>
      cases hstep
      exact hmove.trans h
    | some e =>
      cases e with
      | eagain =>
        cases hstep
        exact hmove.trans h
      | _ => exact absurd hstep nofun

/-- **Transmission is lossless and ordered.**  After every sequence of sends and
activations without a fatal error of the transport, the bytes written lead the
accepted messages in call order, and `tx_buf` is exactly what they lack.  A send that
reports `EAGAIN` leaves the accepted messages as they were. -/
theorem transmit_lossless (as : List TxAction) (t : TxState)
    (h : run TxState.step TxState.init as = some t) :
    t.conn.written <+: t.accepted.flatten ∧
      t.conn.written ++ t.conn.pending = t.accepted.flatten ∧
      ∀ oh ws₁ ws₂ u, (t.conn.doSendOpenflow oh ws₁ ws₂).1 = some .eagain →
        t.step (.send oh ws₁ ws₂) = some u →
        u.accepted = t.accepted ∧ u.conn.written ++ u.conn.pending = t.accepted.flatten := by
  have hloss : t.Lossless :=
    run_invariant (s := TxState.init) (fun _ _ _ hI hs => TxState.Lossless.step hI hs)
      (show _ = _ from rfl) h
  refine ⟨⟨_, hloss⟩, hloss, fun oh ws₁ ws₂ u hagain hstep => ?_⟩
  have hu : u.accepted = t.accepted := by
    rcases hsend : t.conn.doSendOpenflow oh ws₁ ws₂ with ⟨e, c⟩
    rw [hsend] at hagain
    obtain rfl : e = some .eagain := hagain
    simp only [TxState.step, hsend] at hstep
    cases hstep
    rfl
  exact ⟨hu, hu ▸ hloss.step hstep⟩

/-- A run of two messages of 9 bytes: the first is taken in parts, the second is refused
while the first is pending and accepted later. -/
def twoSends : List TxAction :=
  [.send [1, 0, 0, 9, 0, 0, 0, 1, 7] [] [.upTo 4], .send [1, 0, 0, 9, 0, 0, 0, 2, 8] [.upTo 2] [],
    .txRun [.upTo 3], .send [1, 0, 0, 9, 0, 0, 0, 2, 8] [] [.upTo 1]]

/-- Where `twoSends` leads. -/
def afterTwoSends : TxState :=
  ⟨⟨[1, 0, 0, 9, 0, 0, 0, 1, 7, 1], some [0, 0, 9, 0, 0, 0, 2, 8]⟩,
    [[1, 0, 0, 9, 0, 0, 0, 1, 7], [1, 0, 0, 9, 0, 0, 0, 2, 8]]⟩

/-- The hypotheses of `transmit_lossless` are satisfiable. -/
theorem transmit_lossless_two :
    run TxState.step TxState.init twoSends = some afterTwoSends ∧
      afterTwoSends.conn.written <+: afterTwoSends.accepted.flatten :=
  ⟨by decide +kernel, (transmit_lossless twoSends afterTwoSends (by decide +kernel)).1⟩

end NoxClassic.Openflow
