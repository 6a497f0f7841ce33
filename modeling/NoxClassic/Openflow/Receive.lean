/-
# Receiving OpenFlow messages from a stream

`Openflow_stream_connection::do_read` and `do_recv_openflow`
(`src/lib/openflow.cc`).  A message is read in two phases: the 8-byte header
into `rx_header`, then the rest of the bytes it announces into `rx_buf`, whose
first 8 bytes are a copy of the header.  A read that comes up short ends the
call with `EAGAIN`, and the next call goes on where `rx_bytes` says.

The transport delivers the bytes of one stream.  For each read a `Chunk` says
what it does: it has nothing yet, it fails, or it hands over the next bytes, as
many as it likes but at least one unless the stream is at its end.  The bytes a
fresh buffer holds are not specified by the source; here they are zeros, and
those of `rx_header` are arbitrary.
-/

import NoxClassic.Lib.Buffer
import NoxClassic.Lib.Framing
import Mathlib.Data.List.GetD

namespace NoxClassic.Openflow

open Lib Option
open List hiding Vector

/-- The errors that `do_recv_openflow` and `do_send_openflow` report; `transport`
is an errno value of the transport other than `EAGAIN`. -/
inductive Errno where
  | eagain
  | eof
  | eproto
  | transport (n : ℕ)
  deriving DecidableEq, Repr

/-- `sizeof(ofp_header)`. -/
def headerSize : ℕ := 8

/-- `ntohs(oh->length)`: the big-endian field at offset 2. -/
def ofpLength (oh : List UInt8) : ℕ :=
  (oh.getD 2 0).toNat * 256 + (oh.getD 3 0).toNat

theorem ofpLength_append {s : List UInt8} (t : List UInt8) (h : headerSize ≤ s.length) :
    ofpLength (s ++ t) = ofpLength s := by
  have h8 : 8 ≤ s.length := h
  unfold ofpLength
  rw [getD_append _ _ _ _ (by omega), getD_append _ _ _ _ (by omega)]

/-- OpenFlow messages as length-prefixed frames. -/
def ofpFormat : Format UInt8 where
  header := headerSize
  size := ofpLength
  header_pos := by decide
  size_append _ t h := ofpLength_append t h

/-! ### The transport -/

/-- What the transport does for one read: nothing to hand over yet, an error, or
up to `n + 1` bytes. -/
inductive Chunk where
  | again
  | fail (n : ℕ)
  | ready (n : ℕ)
  deriving DecidableEq, Repr

/-- What `stream->read` returns; `got []` is a result of 0. -/
inductive ReadResult where
  | got (b : List UInt8)
  | again
  | error (n : ℕ)
  deriving DecidableEq, Repr

/-- A read of `need` bytes at most from a stream that has `input` left. -/
def Chunk.read (input : List UInt8) (need : ℕ) : Chunk → ReadResult
  | .again => .again
  | .fail n => .error n
  | .ready n => .got (input.take (min (n + 1) need))

/-! ### The receiver -/

/-- The receiving half of an `Openflow_stream_connection`, with the bytes that
its transport has not handed over yet. -/
structure Receiver where
  input : List UInt8
  rxBytes : ℕ
  rxHeader : List UInt8
  rxBuf : Option (List UInt8)
  deriving DecidableEq, Repr

namespace Receiver

/-- A connection that has received nothing; the header buffer is not initialised. -/
def init (stream : List UInt8) (junk : Vector UInt8 headerSize) : Receiver :=
  ⟨stream, 0, junk.toList, none⟩

/-- `do_read`: the bytes read, the error, and the connection with `rx_bytes`
advanced.  The caller stores the bytes where they belong. -/
def doRead (r : Receiver) (need : ℕ) (c : Chunk) : List UInt8 × Option Errno × Receiver :=
  match c.read r.input need with
  | .got [] => ([], some (if r.rxBytes = 0 then .eof else .eproto), r)
  | .got (x :: xs) =>
    let b := x :: xs
    (b, if b.length < need then some .eagain else none,
      { r with input := r.input.drop b.length, rxBytes := r.rxBytes + b.length })
  | .again => ([], some .eagain, r)
  | .error n => ([], some (.transport n), r)

/-- The end of `do_recv_openflow`: `rx_bytes` starts over and `rx_buf` goes to the
caller.  `none` where `rx_buf` is null. -/
def finish (r : Receiver) : Option (Except Errno (List UInt8) × Receiver) :=
  r.rxBuf.map fun buf => (.ok buf, { r with rxBytes := 0, rxBuf := none })

/-- The second phase of `do_recv_openflow`: the rest of the message.  `none` where
the source would follow a null `rx_buf` or where `need_bytes` would wrap. -/
def recvBody (r : Receiver) (c : Chunk) : Option (Except Errno (List UInt8) × Receiver) :=
  if ofpLength r.rxHeader < r.rxBytes then none
  else if ofpLength r.rxHeader = r.rxBytes then r.finish
  else r.rxBuf.bind fun buf =>
    match r.doRead (ofpLength r.rxHeader - r.rxBytes) c with
    | (b, some e, r') => some (.error e, { r' with rxBuf := some (store buf r.rxBytes b) })
    | (b, none, r') => finish { r' with rxBuf := some (store buf r.rxBytes b) }

/-- `do_recv_openflow`: a message, or an error.  `c₁` and `c₂` are what the
transport does for its first and its second read. -/
def doRecvOpenflow (r : Receiver) (c₁ c₂ : Chunk) : Option (Except Errno (List UInt8) × Receiver) :=
  if r.rxBytes < headerSize then
    match r.doRead (headerSize - r.rxBytes) c₁ with
    | (b, some e, r') => some (.error e, { r' with rxHeader := store r.rxHeader r.rxBytes b })
    | (b, none, r') =>
      let header := store r.rxHeader r.rxBytes b
      if ofpLength header < headerSize then
        some (.error .eproto, { r' with rxHeader := header })
      else
        recvBody { r' with
          rxHeader := header
          rxBuf := some (store (List.replicate (ofpLength header) 0) 0 header) } c₂
  else r.recvBody c₁

/-- The part of a message that the connection holds. -/
def held (r : Receiver) : List UInt8 :=
  if r.rxBytes ≤ headerSize then r.rxHeader.take r.rxBytes
  else (r.rxBuf.getD []).take r.rxBytes

/-- **The invariant between calls.**  Once the header is complete, `rx_buf` starts
with it, has the size it announces and is not full. -/
structure Inv (r : Receiver) : Prop where
  header : r.rxHeader.length = headerSize
  body : headerSize ≤ r.rxBytes → ∃ buf, r.rxBuf = some buf ∧
    buf.length = ofpLength r.rxHeader ∧ r.rxBytes < buf.length ∧ buf.take headerSize = r.rxHeader

theorem inv_init (stream : List UInt8) (junk : Vector UInt8 headerSize) : (init stream junk).Inv :=
  ⟨junk.length_toList, fun h => absurd h (Nat.not_succ_le_zero 7)⟩

/-! ### One read -/

/-- **What `do_read` does.**  The bytes come from the front of the stream, they are
counted, and the error says whether they are all that was asked for. -/
structure ReadSpec (r : Receiver) (need : ℕ) (c : Chunk) (b : List UInt8) (e : Option Errno)
    (r' : Receiver) : Prop where
  input : r.input = b ++ r'.input
  bytes : r'.rxBytes = r.rxBytes + b.length
  length_le : b.length ≤ need
  same : r'.rxHeader = r.rxHeader ∧ r'.rxBuf = r.rxBuf
  full : e = none → b.length = need
  again : e = some .eagain → b.length < need ∧ (b = [] → c = .again)
  eof : e = some .eof → b = [] ∧ r.input = [] ∧ r.rxBytes = 0
  eproto : e = some .eproto → b = [] ∧ r.input = [] ∧ r.rxBytes ≠ 0
  transport : ∀ n, e = some (.transport n) → b = [] ∧ c = .fail n

variable {b header : List UInt8} {c : Chunk} {e : Option Errno} {need : ℕ} {r' : Receiver}

theorem doRead_spec {r : Receiver}
    (hneed : 0 < need) (h : r.doRead need c = (b, e, r')) : ReadSpec r need c b e r' := by
  cases c with
  | again =>
    obtain ⟨rfl, rfl, rfl⟩ : [] = b ∧ some Errno.eagain = e ∧ r = r' := by
      simpa [doRead, Chunk.read] using h
    constructor <;> simp [hneed]
  | fail n =>
    obtain ⟨rfl, rfl, rfl⟩ : [] = b ∧ some (Errno.transport n) = e ∧ r = r' := by
      simpa [doRead, Chunk.read] using h
    constructor <;> simp
  | ready n =>
    simp only [doRead, Chunk.read] at h
    generalize hb : r.input.take (min (n + 1) need) = d at h
    have hlen : d.length ≤ need := by
      rw [← hb, length_take]
      exact le_trans (min_le_left _ _) (min_le_right _ _)
    have hinput : r.input = d ++ r.input.drop d.length :=
      (prefix_iff_eq_append.1 (hb ▸ take_prefix _ _)).symm
    cases d with
    | nil =>
      -- at least one byte was asked for, so the stream is at its end
      have hnil : r.input = [] := by
        rcases take_eq_nil_iff.1 hb with hz | hz
        · omega
        · exact hz
      obtain ⟨rfl, rfl, rfl⟩ : [] = b ∧
          some (if r.rxBytes = 0 then Errno.eof else .eproto) = e ∧ r = r' := by simpa using h
      by_cases hz : r.rxBytes = 0 <;> constructor <;> simp [hz, hnil]
    | cons x xs =>
      obtain rfl : x :: xs = b := congrArg Prod.fst h
      obtain rfl : (if (x :: xs).length < need then some Errno.eagain else none) = e :=
        congrArg (fun t => t.2.1) h
      obtain rfl : _ = r' := congrArg (fun t => t.2.2) h
      by_cases hshort : (x :: xs).length < need
      · rw [if_pos hshort]
        refine ⟨hinput, rfl, hlen, ⟨rfl, rfl⟩, ?_, fun _ => ⟨hshort, ?_⟩, ?_, ?_, ?_⟩ <;> simp
      · refine ⟨hinput, rfl, hlen, ⟨rfl, rfl⟩, fun _ => by omega, ?_, ?_, ?_, ?_⟩ <;> simp

/-- A read that found something and did not end the connection took bytes. -/
theorem ReadSpec.progress {r : Receiver} {e : Errno} (h : ReadSpec r need c b (some e) r') :
    c = .again ∨ (∃ e', (.error e : Except Errno (List UInt8)) = .error e' ∧ e' ≠ .eagain) ∨
      r'.input.length < r.input.length := by
  by_cases he : e = .eagain
  · subst he
    by_cases hb : b = []
    · exact .inl ((h.again rfl).2 hb)
    · have hpos := length_pos_of_ne_nil hb
      rw [h.input, length_append]
      exact .inr (.inr (by omega))
  · exact .inr (.inl ⟨e, rfl, he⟩)

/-! ### One call -/

namespace Inv

variable {r : Receiver}

theorem length_held (h : r.Inv) : r.held.length = r.rxBytes := by
  unfold held
  split_ifs with hle
  · rw [length_take, h.header, min_eq_left hle]
  · obtain ⟨buf, hbuf, -, hlt, -⟩ := h.body (by omega)
    rw [hbuf, getD_some, length_take, min_eq_left hlt.le]

/-- What is held is part of a message, and never more than the header announces. -/
theorem isPartial_held (h : r.Inv) : ofpFormat.IsPartial r.held := by
  by_cases hlt : r.rxBytes < headerSize
  · exact .inl (h.length_held ▸ hlt)
  have hge : headerSize ≤ r.rxBytes := by omega
  obtain ⟨buf, hbuf, hlen, hbytes, hhead⟩ := h.body hge
  have hsize : ofpLength r.held = ofpLength r.rxHeader := by
    unfold held
    split_ifs with hle
    · rw [take_of_length_le (by rw [h.header]; exact hge)]
    have htake : (buf.take r.rxBytes).take headerSize = r.rxHeader := by
      rw [take_take, min_eq_left hge, hhead]
    have happ := ofpLength_append ((buf.take r.rxBytes).drop headerSize)
      (s := (buf.take r.rxBytes).take headerSize) (htake ▸ h.header.ge)
    rw [take_append_drop, htake] at happ
    rw [hbuf, getD_some, happ]
  refine .inr (show headerSize ≤ ofpLength r.held ∧ r.held.length < ofpLength r.held from ?_)
  rw [h.length_held, hsize, ← hlen]
  exact ⟨hge.trans hbytes.le, hbytes⟩

end Inv

/-- What a call hands to its caller. -/
def returned : Except Errno (List UInt8) → List UInt8
  | .ok m => m
  | .error _ => []

/-- **What a call of `do_recv_openflow` does** to `whole`, the bytes held and still
to come, of which `n` are still to come: each stays in its place, and the outcome
says what they begin with.  `cs` are the chunks the call may use. -/
structure CallSpec (whole : List UInt8) (n : ℕ) (cs : List Chunk)
    (out : Except Errno (List UInt8)) (r' : Receiver) : Prop where
  bytes : whole = returned out ++ (r'.held ++ r'.input)
  input_le : r'.input.length ≤ n
  ok : ∀ m, out = .ok m → ofpFormat.IsFrame m ∧ r'.Inv
  again : out = .error .eagain → r'.Inv
  eof : out = .error .eof → whole = []
  eproto : out = .error .eproto → whole ≠ [] ∧ ofpFormat.IsStuck whole
  transport : ∀ k, out = .error (.transport k) → .fail k ∈ cs ∧ ofpFormat.IsPartial r'.held

/-- The state in which the second phase starts: a complete header and the bytes so
far in `buf`, which may already be full. -/
structure HasBody (r : Receiver) (buf : List UInt8) : Prop where
  header : r.rxHeader.length = headerSize
  rxBuf : r.rxBuf = some buf
  length : buf.length = ofpLength r.rxHeader
  ge : headerSize ≤ r.rxBytes
  le : r.rxBytes ≤ buf.length
  take : buf.take headerSize = r.rxHeader

namespace HasBody

variable {r : Receiver} {buf : List UInt8}

section

variable (h : HasBody r buf)
include h

theorem inv (hlt : r.rxBytes < buf.length) : r.Inv :=
  ⟨h.header, fun _ => ⟨buf, h.rxBuf, h.length, hlt, h.take⟩⟩

theorem held : r.held = buf.take r.rxBytes := by
  unfold Receiver.held
  split_ifs with hle
  · obtain hge : r.rxBytes = headerSize := le_antisymm hle h.ge
    rw [hge, h.take, take_of_length_le h.header.le]
  · rw [h.rxBuf, getD_some]

/-- A full buffer is a message. -/
theorem isFrame : ofpFormat.IsFrame buf := by
  have hhead : headerSize ≤ buf.length := h.ge.trans h.le
  refine ⟨hhead, ?_⟩
  have happ := ofpLength_append (buf.drop headerSize) (s := buf.take headerSize)
    (length_take_of_le hhead).ge
  rw [take_append_drop, h.take] at happ
  exact happ.trans h.length.symm

/-- The bytes of a read, stored behind those before it. -/
theorem read (hread : ReadSpec r need c b e r') (hneed : r.rxBytes + need = buf.length) :
    HasBody { r' with rxBuf := some (store buf r.rxBytes b) } (store buf r.rxBytes b) := by
  have hfit : r.rxBytes + b.length ≤ buf.length := by
    have := hread.length_le
    omega
  refine ⟨hread.same.1 ▸ h.header, rfl, ?_, ?_, ?_, ?_⟩
  · rw [length_store hfit, h.length, hread.same.1]
  · rw [hread.bytes]
    exact h.ge.trans (Nat.le_add_right _ _)
  · rw [length_store hfit, hread.bytes]
    exact hfit
  · rw [take_store_of_le h.le h.ge, h.take, hread.same.1]

theorem finish (hfull : r.rxBytes = buf.length) (cs : List Chunk) :
    ∃ r', r.finish = some (.ok buf, r') ∧ r'.input = r.input ∧
      CallSpec (r.held ++ r.input) r.input.length cs (.ok buf) r' := by
  refine ⟨{ r with rxBytes := 0, rxBuf := none }, ?_, rfl, ?_⟩
  · unfold Receiver.finish
    rw [h.rxBuf, map_some]
  · refine ⟨?_, le_rfl, ?_, nofun, nofun, nofun, nofun⟩
    · rw [h.held, hfull, take_length]
      rfl
    · rintro m ⟨⟩
      exact ⟨h.isFrame, h.header, fun hge => absurd hge (Nat.not_succ_le_zero 7)⟩

/-- **The second phase.** -/
theorem recvBody (c : Chunk) :
    ∃ out r', r.recvBody c = some (out, r') ∧
      CallSpec (r.held ++ r.input) r.input.length [c] out r' ∧
      (r.rxBytes < buf.length → c = .again ∨ (∃ e, out = .error e ∧ e ≠ .eagain) ∨
        r'.input.length < r.input.length) := by
  unfold Receiver.recvBody
  have hle := h.le
  rw [h.length] at hle
  rw [if_neg (by omega)]
  split_ifs with hfull
  · obtain ⟨r', hr', -, hspec⟩ := h.finish (by rw [h.length, hfull]) [c]
    refine ⟨_, r', hr', hspec, fun hlt => ?_⟩
    rw [h.length] at hlt
    omega
  · rw [h.rxBuf, bind_some]
    rcases hread : r.doRead (ofpLength r.rxHeader - r.rxBytes) c with ⟨b, e, r'⟩
    have hspec := doRead_spec (by omega) hread
    have hbody := h.read hspec (by rw [h.length]; omega)
    have hheld : r.held ++ r.input =
        ({ r' with rxBuf := some (store buf r.rxBytes b) } : Receiver).held ++ r'.input := by
      rw [hbody.held, h.held]
      rw [hspec.bytes, take_store h.le, hspec.input, append_assoc]
    have hlen : r.input.length = b.length + r'.input.length := by
      rw [hspec.input, length_append]
    cases e with
    | none =>
      have hb := hspec.full rfl
      obtain ⟨r'', hr'', hin, hfin⟩ := hbody.finish
        (by rw [length_store (by rw [h.length]; omega), h.length]
            rw [hspec.bytes]; omega) [c]
      refine ⟨_, r'', hr'', ?_, fun _ => .inr (.inr ?_)⟩
      · rw [hheld]
        exact { hfin with input_le := hfin.input_le.trans (by show r'.input.length ≤ _; omega) }
      · rw [hin]
        show r'.input.length < _
        omega
    | some e =>
      refine ⟨_, _, rfl, ⟨hheld, ?_, nofun, ?_, ?_, ?_, ?_⟩, fun hlt => ?_⟩
      · show r'.input.length ≤ _
        omega
      · rintro ⟨⟩
        refine hbody.inv ?_
        have := (hspec.again rfl).1
        rw [length_store (by rw [h.length]; omega), h.length]
        rw [hspec.bytes]; omega
      · rintro ⟨⟩
        have := (hspec.eof rfl).2.2
        have := h.ge
        simp only [headerSize] at this
        omega
      · rintro ⟨⟩
        -- the stream ended inside the message
        obtain ⟨-, hnil, -⟩ := hspec.eproto rfl
        have hinv : r.Inv := h.inv (by rw [h.length]; omega)
        rw [hnil, append_nil]
        refine ⟨fun hz => ?_, hinv.isPartial_held.isStuck⟩
        have := hinv.length_held
        rw [hz] at this
        have hge := h.ge
        simp only [headerSize, length_nil] at this hge
        omega
      · rintro k ⟨⟩
        obtain ⟨rfl, rfl⟩ := hspec.transport k rfl
        refine ⟨mem_singleton_self _, (hbody.inv ?_).isPartial_held⟩
        rw [length_store (by rw [h.length]; simpa using hle), h.length]
        rw [hspec.bytes]
        simp only [length_nil]
        omega
      · exact hspec.progress

end

end HasBody

variable {r : Receiver}

theorem held_of_le (h : r.rxBytes ≤ headerSize) : r.held = r.rxHeader.take r.rxBytes :=
  if_pos h

theorem held_mk {input : List UInt8} {n : ℕ} {buf : Option (List UInt8)}
    (h : n ≤ headerSize) : (Receiver.mk input n header buf).held = header.take n :=
  if_pos h

/-- What the first phase holds after a read. -/
theorem held_header
    (h : r.Inv) (hread : ReadSpec r need c b e r') (hneed : r.rxBytes + need = headerSize) :
    r.held ++ r.input = (store r.rxHeader r.rxBytes b).take r'.rxBytes ++ r'.input := by
  rw [held_of_le (by omega), hread.bytes, take_store (by rw [h.header]; omega), hread.input,
    append_assoc]

/-- A complete header, copied to the front of a new buffer. -/
theorem hasBody_new (hlen : header.length = headerSize)
    (hbytes : r.rxBytes = headerSize) (hsize : headerSize ≤ ofpLength header) :
    HasBody { r with
      rxHeader := header
      rxBuf := some (store (List.replicate (ofpLength header) 0) 0 header) }
      (store (List.replicate (ofpLength header) 0) 0 header) := by
  have hfit : 0 + header.length ≤ (replicate (ofpLength header) (0 : UInt8)).length := by
    rw [length_replicate, hlen]
    omega
  have hstore := (length_store hfit).trans length_replicate
  refine ⟨hlen, rfl, hstore, hbytes.ge, ?_, ?_⟩
  · rw [hstore]
    exact hbytes.le.trans hsize
  · have htake : (store (replicate (ofpLength header) 0) 0 header).take (0 + header.length) =
        (replicate (ofpLength header) 0).take 0 ++ header := take_store (Nat.zero_le _)
    rw [Nat.zero_add, take_zero, nil_append, hlen] at htake
    exact htake

/-- **A call of `do_recv_openflow`.**  Unless its first read finds nothing or it ends
the connection, it takes bytes from the stream. -/
theorem Inv.doRecvOpenflow (h : r.Inv) (c₁ c₂ : Chunk) :
    ∃ out r', r.doRecvOpenflow c₁ c₂ = some (out, r') ∧
      CallSpec (r.held ++ r.input) r.input.length [c₁, c₂] out r' ∧
      (c₁ = .again ∨ (∃ e, out = .error e ∧ e ≠ .eagain) ∨ r'.input.length < r.input.length) := by
  unfold Receiver.doRecvOpenflow
  split_ifs with hphase
  · rcases hread : r.doRead (headerSize - r.rxBytes) c₁ with ⟨b, e, r'⟩
    have hspec := doRead_spec (by omega) hread
    have hheld := held_header h hspec (by omega)
    have hfit : r.rxBytes + b.length ≤ r.rxHeader.length := by
      rw [h.header]
      have := hspec.length_le
      omega
    have hheader := (length_store hfit).trans h.header
    have hlen : r.input.length = b.length + r'.input.length := by
      rw [hspec.input, length_append]
    have hbytes : r'.rxBytes = r.rxBytes + b.length := hspec.bytes
    have hle8 : r'.rxBytes ≤ headerSize := by
      rw [hbytes, ← h.header]
      exact hfit
    cases e with
    | none =>
      have hb := hspec.full rfl
      have hall : (store r.rxHeader r.rxBytes b).take r'.rxBytes = store r.rxHeader r.rxBytes b :=
        take_of_length_le (by omega)
      by_cases hsmall : ofpLength (store r.rxHeader r.rxBytes b) < headerSize
      · simp only [if_pos hsmall]
        refine ⟨_, _, rfl, ⟨?_, ?_, nofun, nofun, nofun, fun _ => ?_, nofun⟩,
          .inr (.inl ⟨_, rfl, nofun⟩)⟩
        · rw [held_mk hle8]
          exact hheld
        · show r'.input.length ≤ _
          omega
        rw [hheld, hall]
        refine ⟨fun hz => ?_, .inr (.inl ?_)⟩
        · have hnil := congrArg length (append_eq_nil_iff.1 hz).1
          rw [hheader] at hnil
          exact absurd hnil (by decide)
        · show ofpLength _ < headerSize
          rw [ofpLength_append _ hheader.ge]
          exact hsmall
      · simp only [if_neg hsmall]
        have hbody := hasBody_new (r := r') hheader (by omega) (Nat.le_of_not_lt hsmall)
        obtain ⟨out, r'', hr'', hcall, -⟩ := hbody.recvBody c₂
        rw [held_mk hle8] at hcall
        have hin : r''.input.length ≤ r'.input.length := hcall.input_le
        refine ⟨out, r'', hr'', ?_, .inr (.inr (by omega))⟩
        rw [hheld]
        exact { hcall with
          input_le := by omega
          transport := fun k hk =>
            ⟨mem_cons_of_mem _ (hcall.transport k hk).1, (hcall.transport k hk).2⟩ }
    | some e =>
      have hlt8 : (e = .eagain ∨ ∃ k, e = .transport k) → r'.rxBytes < headerSize := by
        rintro (rfl | ⟨k, rfl⟩)
        · have := (hspec.again rfl).1
          omega
        · have := congrArg length (hspec.transport k rfl).1
          rw [length_nil] at this
          omega
      have hinv : r'.rxBytes < headerSize →
          ({ r' with rxHeader := store r.rxHeader r.rxBytes b } : Receiver).Inv :=
        fun hlt => ⟨hheader, fun hge => absurd hge (Nat.not_le_of_lt hlt)⟩
      refine ⟨_, _, rfl, ⟨?_, ?_, nofun, ?_, ?_, ?_, ?_⟩, ?_⟩
      · rw [held_mk hle8]
        exact hheld
      · show r'.input.length ≤ _
        omega
      · rintro ⟨⟩
        exact hinv (hlt8 (.inl rfl))
      · rintro ⟨⟩
        obtain ⟨-, hnil, hzero⟩ := hspec.eof rfl
        rw [held_of_le (by omega), hnil, hzero]
        rfl
      · rintro ⟨⟩
        -- the stream ended inside the header
        obtain ⟨-, hnil, hpos⟩ := hspec.eproto rfl
        rw [hnil, append_nil]
        refine ⟨fun hz => hpos ?_, h.isPartial_held.isStuck⟩
        rw [← h.length_held, hz, length_nil]
      · rintro k ⟨⟩
        obtain ⟨-, rfl⟩ := hspec.transport k rfl
        exact ⟨mem_cons_self, (hinv (hlt8 (.inr ⟨k, rfl⟩))).isPartial_held⟩
      · exact hspec.progress
  · obtain ⟨buf, hbuf, hlen, hlt, htake⟩ := h.body (by omega)
    have hbody : HasBody r buf := ⟨h.header, hbuf, hlen, by omega, hlt.le, htake⟩
    obtain ⟨out, r', hr', hcall, hprog⟩ := hbody.recvBody c₁
    refine ⟨out, r', hr', ?_, hprog hlt⟩
    exact { hcall with
      transport := fun k hk =>
        ⟨mem_cons.2 (.inl (mem_singleton.1 (hcall.transport k hk).1)), (hcall.transport k hk).2⟩ }

/-! ### Repeated calls -/

/-- What repeated calls give: the messages in order, the error that ended them if
one did, and the connection they leave. -/
structure Received where
  msgs : List (List UInt8)
  ended : Option Errno
  conn : Receiver
  deriving Repr

/-- `do_recv_openflow` called again and again, once for each pair of chunks, until
it reports an error other than `EAGAIN`. -/
def recvAll : Receiver → List (Chunk × Chunk) → Option Received
  | r, [] => some ⟨[], none, r⟩
  | r, c :: cs =>
    match r.doRecvOpenflow c.1 c.2 with
    | none => none
    | some (.ok m, r') => (recvAll r' cs).map fun x => { x with msgs := m :: x.msgs }
    | some (.error .eagain, r') => recvAll r' cs
    | some (.error e, r') => some ⟨[], some e, r'⟩

/-- The calls for which the transport has something. -/
def productive (cs : List (Chunk × Chunk)) : ℕ :=
  cs.countP fun c => c.1 ≠ .again

/-- **What repeated calls do** to the bytes held and still to come. -/
structure RunSpec (r : Receiver) (cs : List (Chunk × Chunk)) (x : Received) : Prop where
  bytes : r.held ++ r.input = x.msgs.flatten ++ (x.conn.held ++ x.conn.input)
  frames : ∀ m ∈ x.msgs, ofpFormat.IsFrame m
  running : x.ended = none → ofpFormat.IsPartial x.conn.held ∧ productive cs ≤ r.input.length
  eof : x.ended = some .eof → x.conn.held ++ x.conn.input = []
  eproto : x.ended = some .eproto → x.conn.held ++ x.conn.input ≠ [] ∧
    ofpFormat.IsStuck (x.conn.held ++ x.conn.input)
  transport : ∀ k, x.ended = some (.transport k) →
    ofpFormat.IsPartial x.conn.held ∧ ∃ c ∈ cs, c.1 = .fail k ∨ c.2 = .fail k
  not_again : x.ended ≠ some .eagain

/-- **Every list of calls meets `RunSpec`**, by induction on it: one call is the rule
of `doRecvOpenflow`. -/
theorem Inv.recvAll (h : r.Inv) (cs : List (Chunk × Chunk)) :
    ∃ x, r.recvAll cs = some x ∧ RunSpec r cs x := by
  induction cs generalizing r with
  | nil => exact ⟨_, rfl, rfl, nofun, fun _ => ⟨h.isPartial_held, Nat.zero_le _⟩, nofun, nofun,
      nofun, nofun⟩
  | cons c cs ih =>
    obtain ⟨out, r', hr', hcall, hprog⟩ := h.doRecvOpenflow c.1 c.2
    have hbytes := hcall.bytes
    -- where the run goes on, the call was productive only if it took bytes
    have hcount : (∃ m, out = .ok m) ∨ out = .error .eagain → productive cs ≤ r'.input.length →
        productive (c :: cs) ≤ r.input.length := by
      intro hout hle
      have hin := hcall.input_le
      have hcons : productive (c :: cs) = productive cs + if c.1 ≠ .again then 1 else 0 := by
        simp [productive, countP_cons]
      rw [hcons]
      rcases hprog with hc | ⟨e, rfl, he⟩ | hlt
      · rw [if_neg (not_not_intro hc)]
        omega
      · rcases hout with ⟨m, hm⟩ | hm
        · exact absurd hm nofun
        · exact absurd (Except.error.inj hm) he
      · split_ifs <;> omega
    have hmem : ∀ {k}, (∃ d ∈ cs, d.1 = .fail k ∨ d.2 = .fail k) →
        ∃ d ∈ c :: cs, d.1 = .fail k ∨ d.2 = .fail k :=
      fun ⟨d, hd, hk⟩ => ⟨d, mem_cons_of_mem _ hd, hk⟩
    unfold Receiver.recvAll
    rw [hr']
    rcases out with e | m
    · cases e with
      | eagain =>
        obtain ⟨x, hx, hrun⟩ := ih (hcall.again rfl)
        refine ⟨x, hx, { hrun with bytes := ?_, running := ?_, transport := ?_ }⟩
        · exact hbytes.trans hrun.bytes
        · exact fun he => ⟨(hrun.running he).1, hcount (.inr rfl) (hrun.running he).2⟩
        · exact fun k hk => ⟨(hrun.transport k hk).1, hmem (hrun.transport k hk).2⟩
      | eof => exact ⟨_, rfl, hbytes, nofun, nofun, fun _ => hbytes ▸ hcall.eof rfl, nofun, nofun,
          nofun⟩
      | eproto => exact ⟨_, rfl, hbytes, nofun, nofun, nofun, fun _ => hbytes ▸ hcall.eproto rfl,
          nofun, nofun⟩
      | transport k =>
        refine ⟨_, rfl, hbytes, nofun, nofun, nofun, nofun, fun j hj => ?_, nofun⟩
        obtain rfl : k = j := by simpa using hj
        obtain ⟨hfail, hpart⟩ := hcall.transport k rfl
        refine ⟨hpart, c, mem_cons_self, ?_⟩
        simpa [eq_comm] using hfail
    · obtain ⟨hm, hinv⟩ := hcall.ok m rfl
      obtain ⟨x, hx, hrun⟩ := ih hinv
      refine ⟨{ x with msgs := m :: x.msgs }, map_eq_some_iff.2 ⟨x, hx, rfl⟩,
        { hrun with bytes := ?_, frames := ?_, running := ?_, transport := ?_ }⟩
      · rw [hbytes, hrun.bytes, flatten_cons, append_assoc]
        rfl
      · exact fun k hk => (mem_cons.1 hk).elim (fun hk => hk ▸ hm) (hrun.frames k)
      · exact fun he => ⟨(hrun.running he).1, hcount (.inl ⟨m, rfl⟩) (hrun.running he).2⟩
      · exact fun k hk => ⟨(hrun.transport k hk).1, hmem (hrun.transport k hk).2⟩

end Receiver

open Receiver

/-- **Reception does not depend on the chunks.**  Every stream has one segmentation
by the length fields.  Whatever the transport does, the messages that repeated calls
return lead its frames, and with the bytes held and the bytes to come they are the
stream; no more is held than a part of the next message.  An error that is not the
transport's own is reported when all frames have been returned: `EOF` where nothing
is left and `EPROTO` where a part of a message or a header that announces less than
itself is.  The calls get there once the transport has had something for more calls
than the stream has bytes. -/
theorem recv_is_segmentation (stream : List UInt8) (junk : Vector UInt8 headerSize)
    (calls : List (Chunk × Chunk)) :
    ∃ x ms rest, (init stream junk).recvAll calls = some x ∧
      ofpFormat.Segmentation stream ms rest ∧
      (∀ ms' rest', ofpFormat.Segmentation stream ms' rest' → ms' = ms ∧ rest' = rest) ∧
      x.msgs <+: ms ∧
      stream = x.msgs.flatten ++ x.conn.held ++ x.conn.input ∧
      (x.ended = none → ofpFormat.IsPartial x.conn.held) ∧
      (∀ e, x.ended = some e →
        (∃ k, e = .transport k ∧ ∃ c ∈ calls, c.1 = .fail k ∨ c.2 = .fail k) ∨
        (x.msgs = ms ∧ e = if rest = [] then .eof else .eproto)) ∧
      (stream.length < productive calls → x.ended ≠ none) := by
  obtain ⟨x, hx, hrun⟩ := (inv_init stream junk).recvAll calls
  obtain ⟨ms, rest, hseg⟩ := Format.exists_segmentation ofpFormat stream
  have hbytes : stream = x.msgs.flatten ++ (x.conn.held ++ x.conn.input) := hrun.bytes
  -- what is left when the connection ends is stuck, so the messages are all the frames
  have hend : ofpFormat.IsStuck (x.conn.held ++ x.conn.input) →
      x.msgs = ms ∧ x.conn.held ++ x.conn.input = rest :=
    fun hstuck => Format.Segmentation.unique ⟨hbytes, hrun.frames, hstuck⟩ hseg
  refine ⟨x, ms, rest, hx, hseg, fun ms' rest' h => h.unique hseg,
    hseg.isPrefix hbytes hrun.frames, ?_, fun he => (hrun.running he).1, fun e he => ?_, ?_⟩
  · rw [append_assoc]
    exact hbytes
  · cases e with
    | eagain => exact absurd he hrun.not_again
    | eof =>
      have hnil := hrun.eof he
      obtain ⟨hms, hrest⟩ := hend (hnil ▸ Format.isPartial_nil.isStuck)
      exact .inr ⟨hms, by rw [← hrest, if_pos hnil]⟩
    | eproto =>
      obtain ⟨hne, hstuck⟩ := hrun.eproto he
      obtain ⟨hms, hrest⟩ := hend hstuck
      exact .inr ⟨hms, by rw [← hrest, if_neg hne]⟩
    | transport k => exact .inl ⟨k, rfl, (hrun.transport k he).2⟩
  · intro hlt he
    exact absurd (hrun.running he).2 (Nat.not_le_of_lt hlt)

end NoxClassic.Openflow
