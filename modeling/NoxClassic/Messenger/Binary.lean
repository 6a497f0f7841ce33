/-
# The binary messenger

`messenger::processBlock` and `msg_complete`
(`src/nox/coreapps/messenger/messenger.cc`).  A message starts with its total size
in two big-endian bytes.  While fewer than two bytes are held, `processBlock` asks
for two, however many of the two are held already; after that it asks for what the
announced size lacks.

Nothing checks the announced size.  A size below 3 makes the number of bytes to copy
zero or negative once a third byte is there, and a size above `MESSENGER_MAX_MSG_SIZE`
leads past the end of `internalrecvbuf` once that is full:
`messenger_connection::processBlock` logs a warning then, and copies.  With sizes in
between, the messages do not depend on the blocks.
-/

import NoxClassic.Lib.Framing
import NoxClassic.Messenger.Connection
import Mathlib.Data.List.GetD

namespace NoxClassic.Messenger.Binary

open Lib Connection
open List hiding Vector

/-- `ntohs(*((uint16_t*) data))`. -/
def announced (data : List UInt8) : ℕ :=
  (data.getD 0 0).toNat * 256 + (data.getD 1 0).toNat

variable {s data t : List UInt8}

theorem announced_append (t : List UInt8) (h : 2 ≤ s.length) :
    announced (s ++ t) = announced s := by
  unfold announced
  rw [getD_append _ _ _ _ (by omega), getD_append _ _ _ _ (by omega)]

/-- The size is read from the bytes held. -/
theorem announced_of_take (h : data.take s.length = s) (hs : 2 ≤ s.length) :
    announced data = announced s := by
  rw [← take_append_drop s.length data, h]
  exact announced_append _ hs

/-- Messages as length-prefixed frames; a message of two bytes is never complete. -/
def format : Format UInt8 where
  header := 2
  size data := if 2 < announced data then announced data else 0
  header_pos := by decide
  size_append _ t h := by rw [announced_append t h]

/-- `messenger::processBlock`. -/
def processBlock (block data : List UInt8) (currSize : ℕ) : ℤ :=
  if currSize < 2 then
    if block.length < 2 then block.length else 2
  else if (announced data : ℤ) - currSize - block.length ≥ 0 then block.length
  else (announced data : ℤ) - currSize

/-- `messenger::msg_complete`. -/
def msgComplete (data : List UInt8) (currSize : ℕ) : Bool :=
  announced data = currSize ∧ 2 < currSize

/-- `messenger` as a `message_processor`; it keeps nothing for a connection. -/
def processor : Processor Unit where
  processBlock _ block data currSize := (processBlock block data currSize, ())
  msgComplete _ data currSize := msgComplete data currSize

/-- The sizes that the buffer and the loop can do. -/
def SizeOk (n : ℕ) : Prop := 3 ≤ n ∧ n ≤ maxMsgSize

instance (n : ℕ) : Decidable (SizeOk n) := inferInstanceAs (Decidable (_ ∧ _))

/-- A message whose length field is its total size, between 3 and
`MESSENGER_MAX_MSG_SIZE`. -/
def IsMsg (m : List UInt8) : Prop := announced m = m.length ∧ SizeOk m.length

instance (m : List UInt8) : Decidable (IsMsg m) := inferInstanceAs (Decidable (_ ∧ _))

/-- What `msg_complete` takes for a message. -/
def IsWhole (m : List UInt8) : Prop := announced m = m.length ∧ 2 < m.length

/-- At the start of a message, with the bytes `rest` to come: if there are more than two then the
size that they announce is more, and if there are more than the buffer has then that is not. -/
def StartOk (rest : List UInt8) : Prop :=
  (2 < rest.length → 2 < announced rest) ∧
    (maxMsgSize < rest.length → announced rest ≤ maxMsgSize)

/-- A part of a message that the buffer can hold: two bytes at most, or fewer than it announces. -/
def IsPart (h : List UInt8) : Prop :=
  (h.length ≤ 2 ∨ h.length < announced h) ∧ h.length ≤ maxMsgSize

theorem isFrame_iff {m : List UInt8} : format.IsFrame m ↔ IsWhole m := by
  unfold Format.IsFrame format IsWhole
  constructor
  · rintro ⟨htwo, hsize⟩
    dsimp only at htwo hsize
    split_ifs at hsize <;> omega
  · rintro ⟨hsize, htwo⟩
    dsimp only
    rw [if_pos (hsize ▸ htwo)]
    exact ⟨htwo.le, hsize⟩

theorem IsMsg.isFrame {m : List UInt8} (h : IsMsg m) : format.IsFrame m :=
  isFrame_iff.2 ⟨h.1, h.2.1⟩

theorem IsPart.isStuck {h : List UInt8} (hp : IsPart h) : format.IsStuck h := by
  have hsize : format.size h = if 2 < announced h then announced h else 0 := rfl
  by_cases htwo : 2 < announced h
  · rw [if_pos htwo] at hsize
    exact .inr (.inr (hsize ▸ hp.1.elim (·.trans_lt htwo) id))
  · rw [if_neg htwo] at hsize
    exact .inr (.inl (hsize ▸ Nat.zero_lt_two))

theorem isPart_nil : IsPart [] := ⟨.inl (by decide), by decide⟩

/-- What no message can be cut from is a part of one. -/
theorem isPart_of_isStuck {r : List UInt8} (h : format.IsStuck r) (hok : StartOk r) :
    IsPart r := by
  have hshort : r.length ≤ 2 ∨ r.length < announced r := by
    by_contra hlong
    obtain ⟨htwo, hsize⟩ := not_or.1 hlong
    have hann := hok.1 (not_le.1 htwo)
    have hstuck : r.length < 2 ∨ announced r < 2 ∨ r.length < announced r := by
      simpa only [Format.IsStuck, format, if_pos hann] using h
    omega
  refine ⟨hshort, not_lt.1 fun hlong => ?_⟩
  have hann := hok.2 hlong
  have hmax : 2 < maxMsgSize := by decide
  omega

/-- What the bytes held and the rest of the stream are made of: messages and a part of
one.  The bytes held are a part of a message too. -/
structure Stream (h rest : List UInt8) (ms : List (List UInt8)) (tail : List UInt8) : Prop where
  bytes : h ++ rest = ms.flatten ++ tail
  msgs : ∀ m ∈ ms, IsMsg m
  held : IsPart h
  tail : IsPart tail

namespace Stream

variable {h rest tail : List UInt8} {ms : List (List UInt8)}

section

variable (hs : Stream h rest ms tail)
include hs

theorem segmentation : format.Segmentation (h ++ rest) ms tail :=
  ⟨hs.bytes, fun m hm => (hs.msgs m hm).isFrame, hs.tail.isStuck⟩

/-- The size that the stream announces next. -/
theorem startOk : StartOk (h ++ rest) := by
  rw [hs.bytes]
  cases ms with
  | nil =>
    obtain ⟨hshort, hfit⟩ := hs.tail
    exact ⟨fun htwo => htwo.trans (hshort.resolve_left (not_le.2 htwo)),
      fun hlong => absurd hfit (not_le.2 hlong)⟩
  | cons m ms =>
    obtain ⟨hsize, hmin, hmax⟩ := hs.msgs m mem_cons_self
    have hann : announced ((m :: ms).flatten ++ tail) = m.length := by
      rw [flatten_cons, append_assoc, announced_append _ (Nat.le_of_succ_le hmin), hsize]
    exact ⟨fun _ => hann ▸ hmin, fun _ => hann ▸ hmax⟩

/-- Frames that the stream starts with are its first messages. -/
theorem drop_frames {ms1 : List (List UInt8)} (hsplit : h ++ rest = ms1.flatten ++ t)
    (hframes : ∀ m ∈ ms1, format.IsFrame m) : ∃ ms2, ms = ms1 ++ ms2 ∧ Stream [] t ms2 tail := by
  obtain ⟨ms2, rfl⟩ := hs.segmentation.isPrefix hsplit hframes
  refine ⟨ms2, rfl, ?_, fun m hm => hs.msgs m (mem_append_right _ hm), isPart_nil, hs.tail⟩
  have heq := hsplit.symm.trans hs.bytes
  rw [flatten_append, append_assoc] at heq
  exact append_cancel_left heq

/-- **How much `processBlock` asks for**: something of the block, no more than the message
announces, and no more than the buffer can hold. -/
theorem processBlock (hne : rest ≠ []) (hdata : data.take h.length = h) :
    ∃ n : ℕ, Binary.processBlock rest data h.length = n ∧ 1 ≤ n ∧ n ≤ rest.length ∧
      (h.length + n ≤ 2 ∨ h.length + n ≤ announced (h ++ rest)) ∧ h.length + n ≤ maxMsgSize := by
  have hpos := length_pos_of_ne_nil hne
  obtain ⟨hmin, hmax⟩ := hs.startOk
  rw [length_append] at hmin hmax
  suffices hask : ∃ n : ℕ, Binary.processBlock rest data h.length = n ∧ 1 ≤ n ∧
      n ≤ rest.length ∧ (h.length + n ≤ 2 ∨ h.length + n ≤ announced (h ++ rest)) by
    obtain ⟨n, hn, hn1, hle, hsize⟩ := hask
    have htwo : 2 ≤ maxMsgSize := by decide
    exact ⟨n, hn, hn1, hle, hsize, by omega⟩
  unfold Binary.processBlock
  by_cases hh : h.length < 2
  · rw [if_pos hh]
    by_cases hr : rest.length < 2
    · exact ⟨rest.length, by rw [if_pos hr], hpos, le_rfl, .inl (by omega)⟩
    · exact ⟨2, by rw [if_neg hr]; rfl, by omega, by omega, by omega⟩
  · have hann : announced data = announced h := announced_of_take hdata (Nat.le_of_not_lt hh)
    have hwhole : announced (h ++ rest) = announced h := announced_append _ (Nat.le_of_not_lt hh)
    have hshort := hs.held.1
    split_ifs with hfit
    · exact ⟨rest.length, rfl, hpos, le_rfl, .inr (by omega)⟩
    · exact ⟨announced h - h.length, by omega, by omega, by omega, .inr (by omega)⟩

end

end Stream

/-- **The loop follows the stream.** -/
theorem follows : Follows processor fun _ h rest ms _ tail => Stream h rest ms tail where
  done := by
    rintro _ h ms _ tail hs
    have hseg := hs.segmentation
    rw [append_nil] at hseg
    obtain ⟨rfl, rfl⟩ := hseg.unique (Format.Segmentation.nil hs.held.isStuck)
    exact ⟨rfl, rfl, rfl⟩
  copy := by
    rintro _ h rest ms _ tail hs hne data hdata
    obtain ⟨n, hcp, hpos, hle, hsize, hfit⟩ := hs.processBlock hne hdata
    have hlen : (h ++ rest.take n).length = h.length + n := by
      rw [length_append, length_take_of_le hle]
    have hsplit : h ++ rest = (h ++ rest.take n) ++ rest.drop n := by
      rw [append_assoc, take_append_drop]
    have hann : 2 ≤ h.length + n → announced (h ++ rest.take n) = announced (h ++ rest) := by
      intro htwo
      have happ := announced_append (rest.drop n) (s := h ++ rest.take n) (by omega)
      rwa [← hsplit, eq_comm] at happ
    refine ⟨n, (), congrArg (·, ()) hcp, hpos, hle, hfit, fun data' hdata' => ?_⟩
    have hann' : 2 ≤ h.length + n → announced data' = announced (h ++ rest) := by
      intro htwo
      rw [← hann htwo]
      exact announced_of_take (hlen ▸ hdata') (hlen ▸ htwo)
    change if msgComplete data' (h.length + n) = true then _ else _
    split_ifs with hcomp
    · obtain ⟨heq, htwo⟩ := of_decide_eq_true hcomp
      have hframe : format.IsFrame (h ++ rest.take n) := by
        rw [isFrame_iff, IsWhole, hlen]
        exact ⟨(hann htwo.le).trans ((hann' htwo.le).symm.trans heq), htwo⟩
      have hfirst : h ++ rest = [h ++ rest.take n].flatten ++ rest.drop n := by
        rw [flatten_singleton, ← hsplit]
      exact hs.drop_frames hfirst (by simpa using hframe)
    · refine ⟨hsplit.symm.trans hs.bytes, hs.msgs, ?_, hs.tail⟩
      rw [IsPart, hlen]
      refine ⟨?_, hfit⟩
      by_cases htwo : h.length + n ≤ 2
      · exact .inl htwo
      · have hlarge : 2 < h.length + n := not_le.1 htwo
        have hle' := hsize.resolve_left htwo
        rw [hann hlarge.le]
        refine .inr (lt_of_le_of_ne hle' fun heq => hcomp (decide_eq_true ⟨?_, hlarge⟩))
        exact (hann' hlarge.le).trans heq.symm

/-- A stream can be cut anywhere. -/
theorem Stream.cut {h b tail : List UInt8} {ms : List (List UInt8)}
    (hs : Stream h (b ++ t) ms tail) :
    ∃ ms1 h1 ms2, Stream h b ms1 h1 ∧ Stream h1 t ms2 tail ∧ ms = ms1 ++ ms2 := by
  obtain ⟨ms1, r, hseg⟩ := Format.exists_segmentation format (h ++ b)
  have hbytes : h ++ (b ++ t) = ms1.flatten ++ (r ++ t) := by
    rw [← append_assoc, hseg.stream, append_assoc]
  obtain ⟨ms2, rfl, hsub⟩ := hs.drop_frames hbytes hseg.frames
  -- the size of the rest is announced by the stream, so the rest is a part of a message
  have hpart : IsPart r := by
    obtain ⟨hmin, hmax⟩ := hsub.startOk
    rw [nil_append, length_append] at hmin hmax
    refine isPart_of_isStuck hseg.rest ⟨fun htwo => ?_, fun hlong => ?_⟩
    · rw [← announced_append t htwo.le]
      exact hmin (Nat.lt_add_right _ htwo)
    · rw [← announced_append t (le_trans (by decide) hlong.le)]
      exact hmax (Nat.lt_add_right _ hlong)
  exact ⟨ms1, r, ms2, ⟨hseg.stream, fun m hm => hs.msgs m (mem_append_left _ hm), hs.held,
    hpart⟩, { hsub with held := hpart }, rfl⟩

/-- **What a binary connection does with a stream of messages**, in blocks of any sizes. -/
theorem receive_gives (junk : Vector UInt8 maxMsgSize) {blocks ms : List (List UInt8)}
    {tail : List UInt8} (hs : Stream [] blocks.flatten ms tail) :
    (receive processor (init junk ()) blocks).Gives ms () tail := by
  refine follows.receive (fun hs => ?_) (sized_init junk ()) hs
  obtain ⟨ms1, h1, ms2, hblock, hrest, heq⟩ := hs.cut
  exact ⟨ms1, (), h1, ms2, hblock, hrest, heq⟩

/-! ### Well-formed streams -/

/-- The beginning of a message that has not arrived whole. -/
def IsIncomplete (tail : List UInt8) : Prop := ∃ more, more ≠ [] ∧ IsMsg (tail ++ more)

theorem IsIncomplete.isPart {tail : List UInt8} (h : IsIncomplete tail) : IsPart tail := by
  obtain ⟨more, hmore, hsize, hok⟩ := h
  by_cases htwo : tail.length < 2
  · exact ⟨.inl htwo.le, htwo.le.trans (by decide)⟩
  · have hlen : (tail ++ more).length = tail.length + more.length := length_append
    have hpos := length_pos_of_ne_nil hmore
    rw [announced_append _ (Nat.le_of_not_lt htwo)] at hsize
    have hmax := hok.2
    exact ⟨.inr (by omega), by omega⟩

/-- **The messages do not depend on the blocks.**  Messages whose length field is their
total size, between 3 and `MESSENGER_MAX_MSG_SIZE`, and the beginning of another are
received, in blocks of any sizes: exactly the messages are passed on, in order, and the
beginning is what the connection holds. -/
theorem messages_of_blocks (junk : Vector UInt8 maxMsgSize) (ms : List (List UInt8))
    (tail : List UInt8) (blocks : List (List UInt8)) (hms : ∀ m ∈ ms, IsMsg m)
    (htail : IsIncomplete tail) (hblocks : blocks.flatten = ms.flatten ++ tail) :
    (receive processor (init junk ()) blocks).finished = true ∧
      (receive processor (init junk ()) blocks).msgs = ms ∧
      (receive processor (init junk ()) blocks).conn.currSize = tail.length ∧
      (receive processor (init junk ()) blocks).conn.held = tail := by
  have hgives := receive_gives junk ⟨hblocks, hms, isPart_nil, htail.isPart⟩
  refine ⟨hgives.finished, hgives.msgs, ?_, hgives.held⟩
  rw [← hgives.sized.length_held, hgives.held]

/-- The hypotheses of `messages_of_blocks` are satisfiable: two messages and the first
byte of a third, in blocks that cut the length field of the second. -/
theorem messages_of_blocks_two :
    (receive processor (init (Vector.replicate maxMsgSize 0) ())
      [[0, 3, 7, 0], [4, 8], [9, 0]]).msgs = [[0, 3, 7], [0, 4, 8, 9]] :=
  (messages_of_blocks (Vector.replicate maxMsgSize 0) [[0, 3, 7], [0, 4, 8, 9]] [0]
    [[0, 3, 7, 0], [4, 8], [9, 0]] (by decide) ⟨[3, 5], nofun, by decide⟩ rfl).2.1

/-! ### Any stream -/

/-- Wherever whole messages end, the size that is announced next suits the bytes that follow. -/
def LengthsOk (stream : List UInt8) : Prop :=
  ∀ (ms : List (List UInt8)) (rest : List UInt8), stream = ms.flatten ++ rest →
    (∀ m ∈ ms, IsWhole m) → StartOk rest

/-- A whole message that suits can be received. -/
theorem IsWhole.isMsg {m : List UInt8} (h : IsWhole m) (hok : StartOk (m ++ t)) : IsMsg m := by
  obtain ⟨hsize, htwo⟩ := h
  refine ⟨hsize, htwo, not_lt.1 fun hlong => ?_⟩
  have hmax := hok.2 (by rw [length_append]; exact Nat.lt_add_right _ hlong)
  rw [announced_append _ htwo.le, hsize] at hmax
  exact absurd hmax (not_le.2 hlong)

/-- A stream with such sizes is made of messages and a part of one. -/
theorem LengthsOk.stream (h : LengthsOk s) : ∃ ms tail, Stream [] s ms tail := by
  obtain ⟨ms, r, hseg⟩ := Format.exists_segmentation format s
  have hwhole (m : List UInt8) (hm : m ∈ ms) : IsWhole m := isFrame_iff.1 (hseg.frames m hm)
  refine ⟨ms, r, hseg.stream, fun m hm => ?_, isPart_nil,
    isPart_of_isStuck hseg.rest (h ms r hseg.stream hwhole)⟩
  obtain ⟨pre, post, rfl⟩ := append_of_mem hm
  exact (hwhole m hm).isMsg (h pre (m ++ (post.flatten ++ r))
    (by rw [hseg.stream]; simp only [flatten_append, flatten_cons, append_assoc])
    fun k hk => hwhole k (mem_append_left _ hk))

/-- Reception copies something of the block within bounds in every iteration, and ends. -/
def Receives (junk : Vector UInt8 maxMsgSize) (blocks : List (List UInt8)) : Prop :=
  (∀ it ∈ (receive processor (init junk ()) blocks).trace,
    1 ≤ it.cpSize ∧ it.cpSize ≤ it.dataSize ∧ it.currSize ≤ maxMsgSize) ∧
  (receive processor (init junk ()) blocks).finished = true

/-- **The byte behind a part of a message** is copied alone, if it is a block of its own. -/
theorem Receives.copy {junk : Vector UInt8 maxMsgSize} {pre post ms : List (List UInt8)}
    {tail : List UInt8} {x : UInt8} (hr : Receives junk (pre ++ [x] :: post))
    (hs : Stream [] pre.flatten ms tail) (htwo : 2 ≤ tail.length) :
    tail.length < announced tail ∧ tail.length < maxMsgSize := by
  have hgives := receive_gives junk hs
  have hheld := hgives.held
  have hlen : tail.length = _ := hheld ▸ hgives.sized.length_held
  have hann : announced (receive processor (init junk ()) pre).conn.recvbuf = announced tail :=
    announced_of_take (by rw [hlen]; exact hheld) htwo
  have hit := hr.1 ⟨1, Binary.processBlock [x] _ _, _⟩ (by
    rw [receive_append _ hgives.finished]
    exact mem_append_right _ (mem_trace_receive rfl))
  rw [← hlen, Binary.processBlock, if_neg (not_lt.2 htwo), hann] at hit
  simp only [length_singleton] at hit
  split_ifs at hit <;> omega

/-- **Reception is memory-safe and makes progress**, in every split of a stream into blocks of at
most `MESSENGER_BUFFER_SIZE` bytes, exactly when the sizes announced suit the bytes that follow:
each iteration copies at least one byte and no more than there are, the message stays within
`internalrecvbuf`, and the loop ends. -/
theorem receive_safe (junk : Vector UInt8 maxMsgSize) (stream : List UInt8) :
    (∀ blocks : List (List UInt8), blocks.flatten = stream →
      (∀ block ∈ blocks, block.length ≤ bufferSize) → Receives junk blocks) ↔
    LengthsOk stream := by
  refine ⟨fun h => ?_, fun h blocks hblocks _ => ?_⟩
  swap
  · obtain ⟨ms, tail, hs⟩ := h.stream
    have hgives := receive_gives junk (hblocks ▸ hs)
    exact ⟨hgives.trace, hgives.finished⟩
  -- by induction on the messages before: these can be received, and then what follows them in
  -- blocks of one byte up to the byte that does not suit
  have hbytes (l : List UInt8) : (l.map ([·])).flatten = l := by
    rw [← flatMap_def, flatMap_singleton']
  intro ms
  induction hn : ms.length using Nat.strongRecOn generalizing ms with
  | _ n ih =>
    intro rest hstream hms
    have hmsgs (m : List UInt8) (hm : m ∈ ms) : IsMsg m := by
      obtain ⟨pre, post, rfl⟩ := append_of_mem hm
      refine (hms m hm).isMsg (ih pre.length ?_ pre rfl (m ++ (post.flatten ++ rest)) ?_
        fun k hk => hms k (mem_append_left _ hk))
      · rw [← hn, length_append, length_cons]
        omega
      · rw [hstream]
        simp only [flatten_append, flatten_cons, append_assoc]
    have hnext (k : ℕ) (hk : k < rest.length) (htwo : 2 ≤ k) (hpart : IsPart (rest.take k)) :
        k < announced rest ∧ k < maxMsgSize := by
      have htake : (rest.take k).length = k := length_take_of_le hk.le
      have hcopy := @Receives.copy junk ((ms.flatten ++ rest.take k).map ([·]))
        ((rest.drop (k + 1)).map ([·])) ms (rest.take k) (rest.get ⟨k, hk⟩) (h _ ?_ ?_)
        ⟨hbytes _, hmsgs, isPart_nil, hpart⟩ (htake.symm ▸ htwo)
      · rw [htake, ← announced_append (rest.drop k) (htake.symm ▸ htwo),
          take_append_drop] at hcopy
        exact hcopy
      · rw [flatten_append, flatten_cons, hbytes, hbytes, append_assoc, hstream, get_eq_getElem,
          singleton_append, getElem_cons_drop, take_append_drop]
      · intro block hblock
        have hone : block.length = 1 := by
          rcases mem_append.1 hblock with hb | hb
          · obtain ⟨y, -, rfl⟩ := mem_map.1 hb
            rfl
          · rcases mem_cons.1 hb with rfl | hb
            · rfl
            · obtain ⟨y, -, rfl⟩ := mem_map.1 hb
              rfl
        exact hone.trans_le (by decide)
    refine ⟨fun htwo => (hnext 2 htwo le_rfl ⟨.inl (length_take_le _ _), ?_⟩).1, fun hlong => ?_⟩
    · exact (length_take_le _ _).trans (by decide)
    · by_contra hann
      have htake : (rest.take maxMsgSize).length = maxMsgSize := length_take_of_le hlong.le
      have hpart : IsPart (rest.take maxMsgSize) := by
        have happ := announced_append (rest.drop maxMsgSize) (s := rest.take maxMsgSize)
          (by rw [htake]; decide)
        rw [take_append_drop] at happ
        exact ⟨.inr (by rw [htake, ← happ]; exact not_le.1 hann), htake.le⟩
      exact absurd (hnext maxMsgSize hlong (by decide) hpart).2 (lt_irrefl _)

/-- Messages and a part of one announce only such sizes. -/
theorem Stream.lengthsOk (ms : List (List UInt8)) (tail : List UInt8)
    (hs : Stream [] s ms tail) : LengthsOk s := by
  intro ms1 rest hsplit hwhole
  obtain ⟨ms2, -, hsub⟩ := hs.drop_frames hsplit fun m hm => isFrame_iff.2 (hwhole m hm)
  exact hsub.startOk

/-- Two messages, and two bytes that announce a third message of two bytes. -/
theorem receive_safe_two : Receives (Vector.replicate maxMsgSize 0)
    [[0, 3, 7, 0], [4, 8], [9, 0], [2]] :=
  (receive_safe (Vector.replicate maxMsgSize 0) [0, 3, 7, 0, 4, 8, 9, 0, 2]).2
    (Stream.lengthsOk [[0, 3, 7], [0, 4, 8, 9]] [0, 2]
      ⟨rfl, by decide, isPart_nil, .inl (by decide), by decide⟩) _ rfl (by decide)

/-- Blocks of `MESSENGER_BUFFER_SIZE` bytes that start a message of 3073 bytes. -/
def oversizedBlocks : List (List UInt8) :=
  (0x0c :: 0x01 :: List.replicate 510 0) :: List.replicate 6 (List.replicate 512 0)

/-- **Sizes that are not checked.**  A message that announces 0 bytes makes the loop copy
-2 bytes, one that announces 2 makes it copy none and go round for ever, and one that
announces 3073 makes it write behind `internalrecvbuf`. -/
theorem unchecked_size_breaks_receive :
    (∃ it ∈ (receive processor (init (Vector.replicate maxMsgSize 0) ()) [[0, 0, 7]]).trace,
      it.cpSize = -2) ∧
    (∃ it ∈ (receive processor (init (Vector.replicate maxMsgSize 0) ()) [[0, 2, 7]]).trace,
      it.cpSize = 0) ∧
    (receive processor (init (Vector.replicate maxMsgSize 0) ()) [[0, 2, 7]]).finished = false ∧
    (∀ block ∈ oversizedBlocks, block.length = bufferSize) ∧
    ∃ it ∈ (receive processor (init (Vector.replicate maxMsgSize 0) ()) oversizedBlocks).trace,
      (maxMsgSize : ℤ) < it.currSize := by
  decide +kernel

end NoxClassic.Messenger.Binary
