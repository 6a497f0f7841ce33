/-
# Messenger connections

`messenger_connection::processBlock` (`src/nox/coreapps/messenger/messenger_core.cc`).
A connection collects a message in `internalrecvbuf`, of which `currSize` bytes are
in use and to whose end `endpointer` points.  For each block that is read from the
socket it asks its `message_processor` again and again how many bytes of the block
to copy, copies them, and passes the buffer on when the processor finds the message
complete.

The source copies whatever number it is told.  In this model a copy that would leave
the block or the buffer ends the run: nothing is known of the process afterwards.
Every iteration of the loop is recorded, the last one of such a run included.  The
messages of a connection are those passed to `process` for received data; the
notices for a new and a closed connection, echoes and the idle check are left out.
-/

import NoxClassic.Lib.Buffer

namespace NoxClassic.Messenger

open Lib

/-- `MESSENGER_BUFFER_SIZE`, the size of the blocks. -/
def bufferSize : ℕ := 512

/-- `MESSENGER_MAX_MSG_SIZE`, the size of `internalrecvbuf`. -/
def maxMsgSize : ℕ := 3072

/-- A `message_processor` whose state for a connection is of type `κ`.  `processBlock`
gets the block that is left, the receive buffer and the size of the message so far;
`msgComplete` gets the buffer and the size. -/
structure Processor (κ : Type) where
  processBlock : κ → List UInt8 → List UInt8 → ℕ → ℤ × κ
  msgComplete : κ → List UInt8 → ℕ → Bool

/-- A `messenger_connection`, with its processor's state for it. -/
structure Connection (κ : Type) where
  recvbuf : List UInt8
  currSize : ℕ
  state : κ
  deriving DecidableEq, Repr

/-- One iteration of the loop in `processBlock`: the bytes there were, the number to
copy, and the size of the message afterwards. -/
structure Iteration where
  dataSize : ℕ
  cpSize : ℤ
  currSize : ℤ
  deriving DecidableEq, Repr

/-- The copy stays within the block and within `internalrecvbuf`. -/
def Iteration.InBounds (it : Iteration) : Prop :=
  0 ≤ it.cpSize ∧ it.cpSize ≤ it.dataSize ∧ it.currSize ≤ maxMsgSize

instance (it : Iteration) : Decidable it.InBounds := inferInstanceAs (Decidable (_ ∧ _))

/-- What a run leaves: the connection, the messages passed on, the iterations, and
whether all data were consumed. -/
structure Outcome (κ : Type) where
  conn : Connection κ
  msgs : List (List UInt8)
  trace : List Iteration
  finished : Bool
  deriving DecidableEq, Repr

/-- What happened before, put in front. -/
def Outcome.after {κ : Type} (ms : List (List UInt8)) (trace : List Iteration) (o : Outcome κ) :
    Outcome κ :=
  { o with msgs := ms ++ o.msgs, trace := trace ++ o.trace }

namespace Connection

variable {κ : Type} (P : Processor κ)

/-- A connection that has received nothing; the buffer is not initialised. -/
def init (junk : Vector UInt8 maxMsgSize) (k : κ) : Connection κ :=
  ⟨junk.toList, 0, k⟩

/-- The bytes of the message so far. -/
def held (c : Connection κ) : List UInt8 := c.recvbuf.take c.currSize

/-- The loop of `processBlock` over the bytes `rest`, for at most `fuel` iterations. -/
def blockLoop : ℕ → Connection κ → List UInt8 → Outcome κ
  | _, c, [] => ⟨c, [], [], true⟩
  | 0, c, _ :: _ => ⟨c, [], [], false⟩
  | fuel + 1, c, x :: xs =>
    let cp := P.processBlock c.state (x :: xs) c.recvbuf c.currSize
    let it : Iteration := ⟨(x :: xs).length, cp.1, c.currSize + cp.1⟩
    if it.InBounds then
      let n := cp.1.toNat
      let buf := store c.recvbuf c.currSize ((x :: xs).take n)
      if 0 < c.currSize + n ∧ P.msgComplete cp.2 buf (c.currSize + n) then
        (blockLoop fuel ⟨buf, 0, cp.2⟩ ((x :: xs).drop n)).after
          [buf.take (c.currSize + n)] [it]
      else (blockLoop fuel ⟨buf, c.currSize + n, cp.2⟩ ((x :: xs).drop n)).after [] [it]
    else ⟨c, [], [it], false⟩

/-- `processBlock`.  An iteration that copies something leaves less of the block, so
the loop that has not ended after as many iterations as the block has bytes has copied
nothing in one of them. -/
def processBlock (c : Connection κ) (block : List UInt8) : Outcome κ :=
  blockLoop P block.length c block

/-- The blocks that the thread of a connection reads, one after the other. -/
def receive : Connection κ → List (List UInt8) → Outcome κ
  | c, [] => ⟨c, [], [], true⟩
  | c, block :: blocks =>
    let o := processBlock P c block
    if o.finished then (receive o.conn blocks).after o.msgs o.trace else o

variable {P}

theorem receive_append {c : Connection κ} {pre : List (List UInt8)} (post : List (List UInt8))
    (h : (receive P c pre).finished = true) : receive P c (pre ++ post) =
      (receive P (receive P c pre).conn post).after (receive P c pre).msgs
        (receive P c pre).trace := by
  induction pre generalizing c with
  | nil => rfl
  | cons block pre ih =>
    simp only [List.cons_append, receive] at h ⊢
    split_ifs at h ⊢ with hfin
    · rw [ih h]
      simp [Outcome.after]
    · exact absurd h hfin

/-- The first iteration is recorded. -/
theorem mem_trace_receive {c : Connection κ} {x : UInt8} {block : List UInt8}
    {blocks : List (List UInt8)} {n : ℤ}
    (hn : (P.processBlock c.state (x :: block) c.recvbuf c.currSize).1 = n) :
    ⟨(x :: block).length, n, c.currSize + n⟩ ∈ (receive P c ((x :: block) :: blocks)).trace := by
  have hloop : ⟨(x :: block).length, n, c.currSize + n⟩ ∈
      (processBlock P c (x :: block)).trace := by
    simp only [processBlock, List.length_cons, blockLoop, hn]
    split_ifs <;> exact List.mem_cons_self
  rw [receive]
  split_ifs
  · exact List.mem_append_left _ hloop
  · exact hloop

/-! ### Rules for the loops -/

/-- An iteration that copies something and stays in bounds. -/
def Good (it : Iteration) : Prop :=
  1 ≤ it.cpSize ∧ it.cpSize ≤ it.dataSize ∧ it.currSize ≤ maxMsgSize

/-- **The rule for one iteration.**  `Spec` relates the state, the bytes held and the
bytes of the block that are left to what the rest of the block will give: messages, a
state and bytes held.  In each situation that it describes the processor has to
ask for a part of the block that fits, and the situation after it is described too. -/
structure Follows (P : Processor κ)
    (Spec : κ → List UInt8 → List UInt8 → List (List UInt8) → κ → List UInt8 → Prop) : Prop where
  done : ∀ {k h ms k' h'}, Spec k h [] ms k' h' → ms = [] ∧ k' = k ∧ h' = h
  copy : ∀ {k h rest ms k' h'}, Spec k h rest ms k' h' → rest ≠ [] → ∀ data : List UInt8,
    data.take h.length = h →
    ∃ (n : ℕ) (k₁ : κ), P.processBlock k rest data h.length = ((n : ℤ), k₁) ∧ 1 ≤ n ∧
      n ≤ rest.length ∧ h.length + n ≤ maxMsgSize ∧
      ∀ data' : List UInt8, data'.take (h.length + n) = h ++ rest.take n →
        if P.msgComplete k₁ data' (h.length + n) then
          ∃ ms', ms = (h ++ rest.take n) :: ms' ∧ Spec k₁ [] (rest.drop n) ms' k' h'
        else Spec k₁ (h ++ rest.take n) (rest.drop n) ms k' h'

/-- The buffer has its size, and the message so far is within it. -/
def Sized (c : Connection κ) : Prop :=
  c.recvbuf.length = maxMsgSize ∧ c.currSize ≤ maxMsgSize

theorem sized_init (junk : Vector UInt8 maxMsgSize) (k : κ) : (init junk k).Sized :=
  ⟨junk.length_toList, Nat.zero_le _⟩

variable {c : Connection κ}

theorem Sized.length_held (h : c.Sized) : c.held.length = c.currSize :=
  List.length_take_of_le (h.1 ▸ h.2)

theorem Sized.store (hs : c.Sized) {b : List UInt8} (k : κ)
    (hfit : c.currSize + b.length ≤ maxMsgSize) :
    Sized ⟨Lib.store c.recvbuf c.currSize b, c.currSize + b.length, k⟩ :=
  ⟨(length_store (hs.1 ▸ hfit)).trans hs.1, hfit⟩

end Connection

open Connection

variable {κ : Type} {P : Processor κ}

/-- What a run is to do: pass `ms` on, end in state `k` with the bytes `h` held, and
copy something within bounds in every iteration. -/
structure Outcome.Gives (o : Outcome κ) (ms : List (List UInt8)) (k : κ) (h : List UInt8) :
    Prop where
  finished : o.finished = true
  msgs : o.msgs = ms
  state : o.conn.state = k
  held : o.conn.held = h
  sized : o.conn.Sized
  trace : ∀ it ∈ o.trace, Good it

variable {ms : List (List UInt8)} {k : κ} {h : List UInt8}

theorem Outcome.Gives.after {o : Outcome κ}
    (hg : o.Gives ms k h) (ms0 : List (List UInt8)) {trace : List Iteration}
    (htrace : ∀ it ∈ trace, Good it) : (o.after ms0 trace).Gives (ms0 ++ ms) k h :=
  ⟨hg.finished, congrArg _ hg.msgs, hg.state, hg.held, hg.sized,
    fun it hit => (List.mem_append.1 hit).elim (htrace it) (hg.trace it)⟩

variable {Spec : κ → List UInt8 → List UInt8 → List (List UInt8) → κ → List UInt8 → Prop}

/-- **The rule for a block**, by induction on the iterations that are left. -/
theorem Connection.Follows.blockLoop (F : Follows P Spec) {fuel : ℕ} {c : Connection κ}
    {rest : List UInt8} (hs : c.Sized) (hfuel : rest.length ≤ fuel)
    (hspec : Spec c.state c.held rest ms k h) : (blockLoop P fuel c rest).Gives ms k h := by
  induction fuel generalizing c rest ms with
  | zero =>
    obtain rfl := List.length_eq_zero_iff.1 (Nat.le_zero.1 hfuel)
    obtain ⟨rfl, rfl, rfl⟩ := F.done hspec
    exact ⟨rfl, rfl, rfl, rfl, hs, nofun⟩
  | succ fuel ih =>
    cases rest with
    | nil =>
      obtain ⟨rfl, rfl, rfl⟩ := F.done hspec
      exact ⟨rfl, rfl, rfl, rfl, hs, nofun⟩
    | cons x xs =>
      have hlen := hs.length_held
      obtain ⟨n, k₁, hcp, hpos, hle, hfit, hnext⟩ := F.copy hspec (List.cons_ne_nil x xs)
        c.recvbuf (by rw [hlen]; rfl)
      rw [hlen] at hcp hfit
      have htake : ((x :: xs).take n).length = n := List.length_take_of_le hle
      have hdrop : ((x :: xs).drop n).length ≤ fuel := by
        rw [List.length_drop]
        omega
      have hit : Good ⟨(x :: xs).length, n, c.currSize + n⟩ :=
        ⟨Int.ofNat_le.2 hpos, Int.ofNat_le.2 hle, Int.ofNat_le.2 hfit⟩
      have hheld := take_store (b := (x :: xs).take n) (hs.1 ▸ hs.2)
      have hsized := hs.store (b := (x :: xs).take n) k₁ (by rw [htake]; exact hfit)
      rw [htake] at hheld hsized
      have hone : ∀ it ∈ [(⟨(x :: xs).length, n, c.currSize + n⟩ : Iteration)], Good it := by
        simpa using hit
      have hbounds : (⟨(x :: xs).length, n, c.currSize + n⟩ : Iteration).InBounds :=
        ⟨Int.natCast_nonneg n, hit.2⟩
      have hnext := hnext (Lib.store c.recvbuf c.currSize ((x :: xs).take n))
        (by rw [hlen]; exact hheld)
      rw [hlen] at hnext
      rw [Connection.blockLoop, hcp]
      simp only [Int.toNat_natCast, if_pos hbounds]
      by_cases hcomp : P.msgComplete k₁
          (Lib.store c.recvbuf c.currSize ((x :: xs).take n)) (c.currSize + n) = true
      · rw [if_pos hcomp] at hnext
        obtain ⟨ms', rfl, hspec'⟩ := hnext
        rw [if_pos ⟨by omega, hcomp⟩, hheld]
        exact (ih (c := ⟨_, 0, k₁⟩) ⟨hsized.1, Nat.zero_le _⟩ hdrop hspec').after [_] hone
      · rw [if_neg hcomp] at hnext
        rw [if_neg fun h => hcomp h.2]
        exact (ih hsized hdrop (by unfold held; rwa [hheld])).after [] hone

/-- **The rule for a stream in blocks.**  Where `Spec` can be cut anywhere, what the blocks
give is what it says of the stream, whatever the blocks are. -/
theorem Connection.Follows.receive (F : Follows P Spec)
    (hcut : ∀ {k h b t ms k' h'}, Spec k h (b ++ t) ms k' h' →
      ∃ ms1 k₁ h1 ms2, Spec k h b ms1 k₁ h1 ∧ Spec k₁ h1 t ms2 k' h' ∧ ms = ms1 ++ ms2)
    {c : Connection κ} {blocks : List (List UInt8)}
    (hs : c.Sized) (hspec : Spec c.state c.held blocks.flatten ms k h) :
    (receive P c blocks).Gives ms k h := by
  induction blocks generalizing c ms with
  | nil =>
    obtain ⟨rfl, rfl, rfl⟩ := F.done hspec
    exact ⟨rfl, rfl, rfl, rfl, hs, nofun⟩
  | cons block blocks ih =>
    obtain ⟨ms1, k₁, h1, ms2, hblock, hrest, rfl⟩ := hcut hspec
    have hgives : (processBlock P c block).Gives ms1 k₁ h1 := F.blockLoop hs le_rfl hblock
    rw [Connection.receive]
    simp only [if_pos hgives.finished, hgives.msgs]
    refine (ih hgives.sized ?_).after ms1 hgives.trace
    rw [hgives.state, hgives.held]
    exact hrest

end NoxClassic.Messenger
