/-
# Decoding stays inside the message

What `openflow_packet_to_event` does with a message of a switch, whatever its bytes
are.  `Fits` says that a message is as long as the fixed part of its type and that
the records, TLVs and arrays inside it end where it ends.

The source checks this for some messages and not for others: those that only
`handle_packet` looks at before they are read, the flow and queue statistics, and the
management messages with TLVs.  A message of these that does not fit is read beyond its
end (`error_reply_reads_outside`), or for ever, when an action announces a length of
zero, or becomes an event all the same.  Texts, moreover, are read up to a zero,
wherever that is, and a fragment that completes another fragment finds the connection
without its buffer.

`Decodable` says that none of this occurs.  A message is decoded within it, and becomes
no event when it does not fit, exactly when it is `Decodable` (`decoded_inside`).  Flow
and queue replies list their records (`replies_listed`), but the properties of queues
are lost.
-/

import NoxClassic.Openflow.Message

namespace NoxClassic.Openflow.Message

open List Lib

/-! ### Messages that fit -/

/-- The type of a message. -/
def typeOf (msg : List UInt8) : ℕ := field msg 1 1

/-- The type of a statistics reply. -/
def statsType (msg : List UInt8) : ℕ := field msg 8 2

/-- The type of a management message. -/
def ofmpType (msg : List UInt8) : ℕ := field msg 16 2

/-- A management message, with its header. -/
def IsOfmp (msg : List UInt8) : Prop :=
  20 ≤ msg.length ∧ field msg 8 4 = 0x2320 ∧ field msg 12 4 = 8

/-- The size of the fixed part of a message, by its type. -/
def fixedPart : ℕ → ℕ
  | 1 => 12
  | 4 => 12
  | 6 => 32
  | 10 => 18
  | 11 => 88
  | 12 => 64
  | 17 => 12
  | 21 => 16
  | _ => 8

/-- A record of at least `fixed` bytes, with its length at `lenOff`. -/
def IsRecord (fixed lenOff : ℕ) (P : List UInt8 → Prop) (r : List UInt8) : Prop :=
  fixed ≤ r.length ∧ field r lenOff 2 = r.length ∧ P r

/-- Flow records with their actions. -/
def FlowsFit : List UInt8 → Prop :=
  Records 88 0 fun r => Records 8 2 (fun _ => True) (r.drop 88)

/-- Queues with their properties. -/
def QueuesFit : List UInt8 → Prop :=
  Records 8 4 fun q => Records 8 2 (fun _ => True) (q.drop 8)

/-- The body of a statistics reply. -/
def StatsFit (msg : List UInt8) : Prop :=
  match statsType msg with
  | 0 => msg.length = 12 + 1056
  | 1 => FlowsFit (msg.drop 12)
  | 2 => msg.length = 12 + 24
  | 3 => 64 ∣ msg.length - 12
  | 4 => 104 ∣ msg.length - 12
  | 5 => 32 ∣ msg.length - 12
  | _ => True

/-- The body of a management message. -/
def OfmpFit (msg : List UInt8) : Prop :=
  match ofmpType msg with
  | 3 => Records 4 2 (fun _ => True) (msg.drop 20)
  | 5 => 44 ≤ msg.length
  | 6 => 48 ≤ msg.length
  | 7 => 24 ≤ msg.length
  | 8 => 24 ≤ msg.length
  | _ => True

/-- The message that a fragment completes. -/
def completed (c : Connection) (msg : List UInt8) : Option (List UInt8) :=
  match resetExtData c ((msg.drop 4).take 4) >>= fun c => reassemble c msg with
  | .ok (whole?, _) => whole?
  | .error _ => none

/-- The body of a vendor message, and of the one it completes. -/
def VendorFit (c : Connection) (msg : List UInt8) : Prop :=
  field msg 8 4 = 0x2320 → 16 ≤ msg.length ∧ (field msg 12 4 = 8 → 20 ≤ msg.length ∧
    OfmpFit msg ∧ (ofmpType msg = 8 → ∀ whole, completed c msg = some whole → OfmpFit whole))

/-- The message is as long as the fixed part of its type, and what is inside it fits. -/
structure Fits (c : Connection) (msg : List UInt8) : Prop where
  fixed : fixedPart (typeOf msg) ≤ msg.length
  stats : typeOf msg = 17 → StatsFit msg
  queues : typeOf msg = 21 → QueuesFit (msg.drop 16)
  vendor : typeOf msg = 4 → VendorFit c msg

/-- A statistics reply has a type; a flow or queue reply with a body fits; and zeros follow the
texts of a description and of tables that are read. -/
def StatsDecodable (msg : List UInt8) : Prop :=
  10 ≤ msg.length ∧ match statsType msg with
    | 0 => msg.length = 12 + 1056 → 0 ∈ msg.drop 812
    | 1 => 12 ≤ msg.length → FlowsFit (msg.drop 12)
    | 3 => 64 ∣ msg.length - 12 → ∀ i < (msg.length - 12) / 64, 0 ∈ msg.drop (12 + i * 64 + 4)
    | 5 => 12 ≤ msg.length ∧ 32 ∣ msg.length - 12
    | _ => True

/-- The constructor of a resources update goes on behind the TLV. -/
def Passes (r : List UInt8) : Prop :=
  field r 0 2 ≠ 0 ∧ (field r 0 2 = 1 → r.length = 32) ∧
    (field r 0 2 = 2 → 16 ≤ r.length ∧ (r.length - 16) % 36 = 0) ∧
    (field r 0 2 = 3 → r.length = 56) ∧ (field r 0 2 = 4 → r.length = 136)

/-- The number of bytes that are left, as an `int`, is less than a TLV. -/
def Ends (l : List UInt8) : Prop := 0 ≤ asInt l.length ∧ asInt l.length < 4

/-- A zero follows the name in each TLV that the constructor reads. -/
def NamesEnd : List (List UInt8) → Prop
  | [] => True
  | r :: rs => ¬ Ends (r ++ rs.flatten) → Passes r →
    (field r 0 2 = 4 → 0 ∈ (r ++ rs.flatten).drop 4) ∧ NamesEnd rs

/-- The TLVs of a resources update fit, and the names that are read end. -/
def TlvsDecodable (l : List UInt8) : Prop :=
  ∃ rs : List (List UInt8), rs.flatten = l ∧ (∀ r ∈ rs, IsRecord 4 2 (fun _ => True) r) ∧
    (0 < asInt l.length → NamesEnd rs)

/-- Resources updates and errors fit. -/
def OfmpDecodable (msg : List UInt8) : Prop :=
  (ofmpType msg = 3 → TlvsDecodable (msg.drop 20)) ∧ (ofmpType msg = 7 → 24 ≤ msg.length)

/-- A vendor message names the vendor; a management message, or the one that a fragment
completes, can be decoded; and what is completed is not a fragment itself. -/
def VendorDecodable (c : Connection) (msg : List UInt8) : Prop :=
  12 ≤ msg.length ∧ (IsOfmp msg → if ofmpType msg = 8 then
    ∀ whole, completed c msg = some whole → ofmpType whole ≠ 8 ∧ OfmpDecodable whole
    else OfmpDecodable msg)

/-- What the source relies on, by the type of the message. -/
@[mk_iff relied_iff]
structure Relied (c : Connection) (msg : List UInt8) : Prop where
  fits : typeOf msg ∈ [1, 10, 11, 12, 21] → Fits c msg
  port : typeOf msg = 12 → 0 ∈ msg.drop 24
  stats : typeOf msg = 17 → StatsDecodable msg
  vendor : typeOf msg = 4 → VendorDecodable c msg

/-- A message of the version of the source has what the source relies on. -/
def Decodable (c : Connection) (msg : List UInt8) : Prop := field msg 0 1 = 1 → Relied c msg

/-! ### Structures -/

variable {l : List UInt8} {rounds n k : ℕ}

section Structures

variable {p : List UInt8}

theorem safe_port_iff : Safe (Port.read p) ↔ 48 ≤ p.length ∧ 0 ∈ p.drop 8 := by
  unfold Port.read
  simp only [yields_bind_iff, yields_cstr_iff, yields_u16_iff, yields_u32_iff, yields_bytes_iff,
    pure, Except.pure, yields_ok_iff]
  grind

theorem safe_tableStats_iff : Safe (TableStats.read p) ↔ 64 ≤ p.length ∧ 0 ∈ p.drop 4 := by
  unfold TableStats.read
  simp only [yields_bind_iff, yields_cstr_iff, yields_u8_iff, yields_u32_iff, yields_u64_iff,
    pure, Except.pure, yields_ok_iff]
  grind

theorem safe_portStats (h : 104 ≤ p.length) : Safe (PortStats.read p) := by
  unfold PortStats.read
  rw [u16_of_le (by omega), ok_bind]
  refine (safe_array_iff.2 fun i hi => ?_).bind fun counters _ => .safe
  rw [u64_of_le (by simp only [length_drop]; omega)]
  exact .safe

theorem safe_queueStats_iff : Safe (QueueStats.read p) ↔ 32 ≤ p.length := by
  unfold QueueStats.read
  simp only [yields_bind_iff, yields_u16_iff, yields_u32_iff, yields_u64_iff, pure, Except.pure,
    yields_ok_iff]
  grind

theorem exists_records {fixed lenOff : ℕ} {P : List UInt8 → Prop} (h : Records fixed lenOff P l) :
    ∃ rs : List (List UInt8), rs.flatten = l ∧ ∀ r ∈ rs, IsRecord fixed lenOff P r := by
  induction h with
  | nil => exact ⟨[], rfl, nofun⟩
  | @cons r rest hfixed hlen hP _ ih =>
    obtain ⟨rs, rfl, hrs⟩ := ih
    exact ⟨r :: rs, rfl, forall_mem_cons.2 ⟨⟨hfixed, hlen, hP⟩, hrs⟩⟩

theorem records_flatten {fixed lenOff : ℕ} {P : List UInt8 → Prop} {rs : List (List UInt8)}
    (h : ∀ r ∈ rs, IsRecord fixed lenOff P r) : Records fixed lenOff P rs.flatten := by
  induction rs with
  | nil => exact .nil
  | cons r rs ih =>
    obtain ⟨⟨hfixed, hlen, hP⟩, hrs⟩ := forall_mem_cons.1 h
    exact .cons hfixed hlen hP (ih hrs)

/-- The actions that the pointers point to, each of its own length, are the bytes. -/
def Points (vActions : List (List UInt8)) (l : List UInt8) : Prop :=
  (vActions.map fun p => p.take (field p 2 2)).flatten = l ∧
    ∀ p ∈ vActions, 8 ≤ field p 2 2 ∧ field p 2 2 ≤ p.length

/-- The loop over actions ends where the actions do. -/
theorem yields_actionLoop (h : Records 8 2 (fun _ => True) l) (q : List UInt8)
    (hr : l.length < rounds) : Yields (actionLoop rounds (l ++ q) l.length) (Points · l) := by
  induction h generalizing rounds with
      obtain ⟨rounds, rfl⟩ := Nat.exists_eq_succ_of_ne_zero (Nat.ne_zero_of_lt hr)
  | nil => exact .ok ⟨rfl, nofun⟩
  | @cons r rest hfixed hlen _ _ ih =>
    have hlen' : field (r ++ (rest ++ q)) 2 2 = r.length := by rw [field_append (by omega), hlen]
    rw [length_append] at hr ⊢
    unfold actionLoop
    rw [if_neg (by omega), append_assoc, u16_of_le (by rw [length_append]; omega),
      ok_bind, hlen', drop_left, Nat.add_sub_cancel_left]
    refine (ih (by omega)).bind fun v hv => .ok ⟨?_, forall_mem_cons.2 ⟨?_, hv.2⟩⟩
    · rw [map_cons, flatten_cons, hlen', take_left, hv.1]
    · rw [hlen', length_append]
      omega

/-- The record of a flow is read: its fixed part, its actions, and pointers to these. -/
structure FlowStats.Lists (r : List UInt8) (f : FlowStats) : Prop where
  raw : f.raw = r.take 88
  actionData : f.actionData = r.drop 88
  vActions : Points f.vActions (r.drop 88)

/-- A record of a flow. -/
def IsFlow : List UInt8 → Prop := IsRecord 88 0 fun r => Records 8 2 (fun _ => True) (r.drop 88)

theorem yields_flow {r : List UInt8} (h : IsFlow r) (rest : List UInt8) (hr : r.length ≤ rounds) :
    Yields (FlowStats.read rounds (r ++ rest)) (FlowStats.Lists r) := by
  obtain ⟨hfixed, hlen, hacts⟩ := h
  have hle : 88 + (r.length - 88) ≤ (r ++ rest).length := by
    rw [length_append]
    omega
  unfold FlowStats.read
  rw [u16_of_le (by omega), ok_bind, field_append (by omega), hlen, if_neg (by omega),
    bytes_of_le (by omega), ok_bind, bytes_of_le hle, ok_bind, drop_append_of_le_length hfixed,
    ← length_drop, take_left]
  refine (yields_actionLoop hacts rest ?_).bind fun v hv => .ok ⟨?_, rfl, hv⟩
  · rw [length_drop]
    omega
  · exact take_append_of_le_length hfixed

/-- The loop over flows ends where the records do. -/
theorem yields_flowLoop {rs : List (List UInt8)} (h : ∀ r ∈ rs, IsFlow r)
    (hr : rs.flatten.length < rounds) :
    Yields (flowLoop rounds rs.flatten rs.flatten.length) (Forall₂ FlowStats.Lists rs) := by
  induction rs generalizing rounds with
      obtain ⟨rounds, rfl⟩ := Nat.exists_eq_succ_of_ne_zero (Nat.ne_zero_of_lt hr)
  | nil => exact .ok .nil
  | cons r rs ih =>
    obtain ⟨hrec, hrs⟩ := forall_mem_cons.1 h
    obtain ⟨hfixed, hlen, -⟩ := id hrec
    rw [flatten_cons, length_append] at hr ⊢
    unfold flowLoop
    rw [if_neg (by omega), u16_of_le (by rw [length_append]; omega), ok_bind,
      field_append (by omega), hlen, if_neg (by omega), drop_left, Nat.add_sub_cancel_left]
    exact (yields_flow hrec rs.flatten (by omega)).bind fun _ hf =>
      (ih hrs (by omega)).bind fun _ hfs => .ok (.cons hf hfs)

variable {P : List UInt8 → Prop}

/-- `ntohll` of a number of 32 bits leaves nothing in the lower half. -/
theorem htonll_mod (h : n < 2 ^ 32) : htonll n % 2 ^ 32 = 0 := by
  have hhigh : n / 256 / 256 / 256 / 256 = 0 := by omega
  simp only [htonll, leBytes, be, foldl_cons, foldl_nil, UInt8.toNat_ofNat', hhigh, Nat.zero_div]
  omega

/-- A queue is read without its id and its properties: the loop over these does not begin. -/
theorem packetQueue_read {r : List UInt8} (h : IsRecord 8 4 P r) (rest : List UInt8)
    (hr : 0 < rounds) : PacketQueue.read rounds (r ++ rest) = .ok ⟨0, r.length, []⟩ := by
  obtain ⟨hfixed, hlen, -⟩ := h
  have hlt := field_lt r 4 2
  have hid : le (r.take 4) < 2 ^ 32 := by
    have hbe := be_lt (r.take 4).reverse
    rwa [length_reverse, length_take_of_le (by omega)] at hbe
  obtain ⟨rounds, rfl⟩ := Nat.exists_eq_succ_of_ne_zero hr.ne'
  unfold PacketQueue.read propertyLoop
  rw [bytes_of_le (by rw [length_append]; omega), ok_bind,
    u16_of_le (by rw [length_append]; omega), ok_bind, field_append (by omega), hlen,
    subSize_of_le hfixed (by omega), if_pos (by omega), ok_bind, drop_zero,
    take_append_of_le_length (by omega), htonll_mod hid]
  rfl

/-- The loop over queues ends where the queues do. -/
theorem queueLoop_eq {rs : List (List UInt8)} (h : ∀ r ∈ rs, IsRecord 8 4 P r)
    (hr : rs.flatten.length < rounds) : queueLoop rounds rs.flatten rs.flatten.length =
      .ok (rs.map fun r => ⟨0, r.length, []⟩) := by
  induction rs generalizing rounds with
      obtain ⟨rounds, rfl⟩ := Nat.exists_eq_succ_of_ne_zero (Nat.ne_zero_of_lt hr)
  | nil => rfl
  | cons r rs ih =>
    obtain ⟨hrec, hrs⟩ := forall_mem_cons.1 h
    obtain ⟨hfixed, hlen, -⟩ := id hrec
    rw [flatten_cons, length_append] at hr ⊢
    unfold queueLoop
    rw [if_neg (by omega), u16_of_le (by rw [length_append]; omega), ok_bind,
      field_append (by omega), hlen, if_neg (by omega), drop_left, Nat.add_sub_cancel_left,
      packetQueue_read hrec _ (by omega), ok_bind, ih hrs (by omega)]
    rfl

end Structures

/-! ### Replies that list records -/

/-- A record of a queue. -/
def IsQueue : List UInt8 → Prop := IsRecord 8 4 fun r => Records 8 2 (fun _ => True) (r.drop 8)

/-- The record of a queue is read: its id, its length, and its `OFPQT_MIN_RATE` properties, of which
the vector keeps the number. -/
structure PacketQueue.Lists (r : List UInt8) (q : PacketQueue) : Prop where
  queueId : q.queueId = field r 0 4
  len : q.len = r.length
  properties : ∃ ps : List (List UInt8), ps.flatten = r.drop 8 ∧
    (∀ p ∈ ps, IsRecord 8 2 (fun _ => True) p) ∧
    q.properties.length = ps.countP (field · 0 2 = 1)

/-- The queue has the id 0 and no `OFPQT_MIN_RATE` property. -/
def IsBareQueue (r : List UInt8) : Prop :=
  field r 0 4 = 0 ∧ Records 8 2 (fun p => field p 0 2 ≠ 1) (r.drop 8)

theorem lists_iff_isBareQueue {r : List UInt8} :
    PacketQueue.Lists r ⟨0, r.length, []⟩ ↔ IsBareQueue r := by
  constructor
  · rintro ⟨hid, -, ps, hps, hrec, hcount⟩
    have hno := countP_eq_zero.1 hcount.symm
    refine ⟨hid.symm, hps ▸ records_flatten fun p hp => ?_⟩
    obtain ⟨hfixed, hlen, -⟩ := hrec p hp
    exact ⟨hfixed, hlen, by simpa using hno p hp⟩
  · rintro ⟨hid, hprops⟩
    obtain ⟨ps, hps, hrec⟩ := exists_records hprops
    refine ⟨hid.symm, rfl, ps, hps, fun p hp => ⟨(hrec p hp).1, (hrec p hp).2.1, trivial⟩, ?_⟩
    exact (countP_eq_zero.2 fun p hp => by simpa using (hrec p hp).2.2).symm

/-- **Flow and queue replies list their records.**  A flow statistics reply lists its flows, each
read within its record; a queue configuration reply reads each queue within its record, and lists
them exactly when all are bare. -/
theorem replies_listed (head : List UInt8) (rs : List (List UInt8)) (rounds : ℕ)
    (hlen : field head 2 2 = (head ++ rs.flatten).length)
    (hr : (head ++ rs.flatten).length ≤ rounds) :
    (head.length = 12 → (∀ r ∈ rs, IsFlow r) →
      (∃ flows, handleStatsFlowReply rounds (head ++ rs.flatten) (head ++ rs.flatten).length =
        .ok (some (.flowStatsIn (field head 10 2 % 2 = 1) flows)) ∧
        Forall₂ FlowStats.Lists rs flows) ∧
      ∀ r ∈ rs, Yields (FlowStats.read rounds r) (FlowStats.Lists r)) ∧
    (head.length = 16 → (∀ r ∈ rs, IsQueue r) →
      ((∃ queues, handleQueueConfigReply rounds (head ++ rs.flatten) =
        .ok (some (.queueConfigIn (field head 8 2) queues)) ∧
        Forall₂ PacketQueue.Lists rs queues) ↔ ∀ r ∈ rs, IsBareQueue r) ∧
      ∀ r ∈ rs, PacketQueue.read rounds r = .ok ⟨0, r.length, []⟩) := by
  have hlt := field_lt head 2 2
  rw [length_append] at hlen hr ⊢
  refine ⟨fun hhead hrs => ⟨?_, fun r hmem => ?_⟩, fun hhead hrs => ⟨?_, fun r hmem => ?_⟩⟩
  · have hloop : rs.flatten.length < rounds := by omega
    obtain ⟨flows, hflows, hlists⟩ := yields_flowLoop hrs hloop
    refine ⟨flows, ?_, hlists⟩
    unfold handleStatsFlowReply
    rw [if_neg (by omega), u16_of_le (by rw [length_append]; omega), ok_bind,
      field_append (by omega), subSize_of_le (by omega) (by omega), ← hhead, drop_left,
      Nat.add_sub_cancel_left, hflows]
    rfl
  · have hle : r.length ≤ rounds := (sublist_flatten_of_mem hmem).length_le.trans (by omega)
    have := yields_flow (hrs r hmem) [] hle
    rwa [append_nil] at this
  · have hread : handleQueueConfigReply rounds (head ++ rs.flatten) =
        .ok (some (.queueConfigIn (field head 8 2) (rs.map fun r => ⟨0, r.length, []⟩))) := by
      unfold handleQueueConfigReply
      rw [u16_of_le (by rw [length_append]; omega), ok_bind, field_append (by omega),
        u16_of_le (by rw [length_append]; omega), ok_bind, field_append (by omega), hlen,
        subSize_of_le (by omega) (by omega), ← hhead, drop_left, Nat.add_sub_cancel_left,
        queueLoop_eq hrs (by omega)]
      rfl
    have hlists : Forall₂ PacketQueue.Lists rs (rs.map fun r => ⟨0, r.length, []⟩) ↔
        ∀ r ∈ rs, IsBareQueue r := by
      rw [forall₂_map_right_iff, forall₂_same]
      exact forall₂_congr fun _ _ => lists_iff_isBareQueue
    rw [← hlists, hread]
    constructor
    · rintro ⟨queues, hq, h⟩
      cases hq
      exact h
    · exact fun h => ⟨_, rfl, h⟩
  · have := packetQueue_read (hrs r hmem) [] (show 0 < rounds by omega)
    rwa [append_nil] at this

/-- A flow with an action and one without. -/
def twoFlows : List (List UInt8) :=
  [[0, 96, 3, 0] ++ replicate 84 7 ++ [0, 0, 0, 8, 0, 1, 0, 64], [0, 88] ++ replicate 86 0]

/-- A queue with a property that is not known and one without properties. -/
def twoQueues : List (List UInt8) :=
  [[0, 0, 0, 0, 0, 16, 0, 0, 0, 0, 0, 8, 0, 0, 0, 0], [0, 0, 0, 0, 0, 8, 0, 0]]

set_option maxRecDepth 2000 in
theorem replies_listed_two :
    (∃ flows, handleStatsFlowReply 196 ([1, 17, 0, 196, 0, 0, 0, 0, 0, 1, 0, 0] ++
      twoFlows.flatten) 196 = .ok (some (.flowStatsIn false flows)) ∧
      Forall₂ FlowStats.Lists twoFlows flows) ∧
    ∃ queues, handleQueueConfigReply 40 ([1, 21, 0, 40, 0, 0, 0, 0, 0, 2] ++ replicate 6 0 ++
      twoQueues.flatten) = .ok (some (.queueConfigIn 2 queues)) ∧
      Forall₂ PacketQueue.Lists twoQueues queues := by
  have hnil (n : ℕ) (P : List UInt8 → Prop) : Records n 2 P [] := .nil
  have hflows : ∀ r ∈ twoFlows, IsFlow r := forall_mem_cons.2 ⟨⟨by decide, by decide,
    .cons (r := [0, 0, 0, 8, 0, 1, 0, 64]) (by decide) (by decide) trivial (hnil ..)⟩,
    forall_mem_singleton.2 ⟨by decide, by decide, hnil ..⟩⟩
  have hprop (P : List UInt8 → Prop) (h : P [0, 0, 0, 8, 0, 0, 0, 0]) :
      Records 8 2 P ([0, 0, 0, 8, 0, 0, 0, 0] ++ []) :=
    .cons (by decide) (by decide) h (hnil ..)
  have hqueues : ∀ r ∈ twoQueues, IsQueue r := forall_mem_cons.2 ⟨⟨by decide, by decide,
    hprop _ trivial⟩, forall_mem_singleton.2 ⟨by decide, by decide, hnil ..⟩⟩
  have hbare : ∀ r ∈ twoQueues, IsBareQueue r := forall_mem_cons.2 ⟨⟨by decide,
    hprop _ (by decide)⟩, forall_mem_singleton.2 ⟨by decide, hnil ..⟩⟩
  exact ⟨((replies_listed [1, 17, 0, 196, 0, 0, 0, 0, 0, 1, 0, 0] twoFlows 196 (by decide)
      (by decide)).1 rfl hflows).1,
    ((replies_listed ([1, 21, 0, 40, 0, 0, 0, 0, 0, 2] ++ replicate 6 0) twoQueues 40 (by decide)
      (by decide)).2 rfl hqueues).1.2 hbare⟩

/-- The queue 1 has a minimum rate, 500. -/
theorem property_lost : (match handleQueueConfigReply 40 ([1, 21, 0, 40] ++ replicate 12 0 ++
    [0, 0, 0, 1, 0, 24, 0, 0, 0, 1, 0, 16, 0, 0, 0, 0, 1, 244] ++ replicate 6 0) with
      | .ok (some (.queueConfigIn port queues)) => some (port, queues)
      | _ => none) = some (0, [⟨0, 24, []⟩]) := by
  decide +kernel

/-! ### Management messages -/

/-- Bytes that were read are taken from an `int`. -/
theorem asInt_sub (h : k ≤ n) : asInt (asInt n - k) = asInt (n - k : ℕ) := by
  unfold asInt
  rw [Int.sub_eq_add_neg, Int.bmod_add_bmod, ← Int.sub_eq_add_neg, Int.ofNat_sub h]

/-- An event for every result of a computation. -/
theorem yields_event_iff {α : Type} {x : Except Fault α} {g : α → Event} {P : Prop} :
    Yields (x >>= fun a => pure (some (g a))) (fun event => ¬ P → event = none) ↔ Safe x ∧ P := by
  rw [yields_bind_iff, ← yields_const_iff]
  simp only [pure, Except.pure, yields_ok_iff, reduceCtorEq, imp_false, not_not]

section Tlv

variable {r : List UInt8}

theorem resourceTlv_of_not_passes (h : ¬ Passes r) (res : Resources) (ptr : List UInt8) :
    resourceTlv res ptr (field r 0 2) r.length = .ok none := by
  unfold resourceTlv
  unfold Passes at h
  split_ifs <;> first | rfl | exact absurd h (by grind)

/-- One TLV is read within it, and the pointer stays on the list. -/
theorem resourceTlv_of_passes (h : Passes r) {rest : List UInt8}
    (hname : field r 0 2 = 4 → 0 ∈ (r ++ rest).drop 4) (res : Resources) :
    Yields (resourceTlv res (r ++ rest) (field r 0 2) r.length)
      fun o => ∃ res' ptr, o = some (res', ptr) ∧ ptr.drop r.length = rest := by
  obtain ⟨hend, hdp, huuid, hmgmt, hvif⟩ := h
  have hle : r.length ≤ (r ++ rest).length := by
    rw [length_append]
    omega
  have hrest : ∀ res' : Resources, ∃ res'' ptr,
      some (res', r ++ rest) = some (res'', ptr) ∧ ptr.drop r.length = rest :=
    fun res' => ⟨res', r ++ rest, rfl, drop_left⟩
  unfold resourceTlv
  rw [if_neg hend]
  split_ifs with h1 h32 h2 h16 h3 h56 h4 h136
  · exact absurd (hdp h1) h32
  · -- the zero is written inside the TLV
    have hnul : 0 ∈ ((r ++ rest).set 31 0).drop 16 := by
      refine mem_of_getElem? (i := 15) ?_
      rw [List.getElem?_drop, List.getElem?_set_self (by omega)]
    unfold Resources.addDp
    rw [yields_map_iff, setByte_of_lt (by omega), ok_bind, u64_of_le (by rw [length_set]; omega),
      ok_bind, yields_bind_iff, yields_cstr_iff]
    refine ⟨hnul, .ok ⟨_, _, rfl, ?_⟩⟩
    rw [drop_set_of_lt (by omega), drop_left]
  · omega
  · have harr : Safe (array (fun p => bytes p 0 36) 36 ((r.length - 16) / 36)
        ((r ++ rest).drop 16)) := by
      refine safe_array_iff.2 fun i hi => ?_
      rw [bytes_of_le (by simp only [length_drop]; omega)]
      exact .safe
    obtain ⟨networks, hnetworks, -⟩ := harr
    unfold Resources.addDpUuid
    rw [hnetworks, ok_bind, u64_of_le (by omega), ok_bind]
    exact .ok (hrest _)
  · exact absurd (hmgmt h3) h56
  · unfold Resources.addMgmtUuid
    rw [u64_of_le (by omega), ok_bind, bytes_of_le (by omega), ok_bind]
    exact .ok (hrest _)
  · exact absurd (hvif h4) h136
  · unfold Resources.addVif
    simp (disch := omega) only [bytes_of_le, u64_of_le, ok_bind]
    rw [yields_map_iff, yields_bind_iff, yields_cstr_iff]
    exact ⟨hname h4, .ok (hrest _)⟩
  · exact .ok (hrest _)

/-- The name of an interface is read up to a zero. -/
theorem nul_of_resourceTlv (h : Passes r) {res : Resources} {ptr : List UInt8}
    (hsafe : Safe (resourceTlv res ptr (field r 0 2) r.length)) (h4 : field r 0 2 = 4) :
    0 ∈ ptr.drop 4 := by
  unfold resourceTlv Resources.addVif at hsafe
  rw [h4, h.2.2.2.2 h4, if_neg (by decide), if_neg (by decide), if_neg (by decide),
    if_neg (by decide), if_pos rfl, if_neg (by decide)] at hsafe
  simp only [yields_map_iff, yields_bind_iff, yields_bytes_iff, yields_u64_iff,
    yields_cstr_iff] at hsafe
  exact hsafe.2.2.2.2.1

/-- The loop over TLVs ends where the list does, unless a name goes on. -/
theorem safe_tlvLoop_iff {rs : List (List UInt8)} (h : ∀ r ∈ rs, IsRecord 4 2 (fun _ => True) r)
    (hr : rs.flatten.length < rounds) (res : Resources) :
    Safe (tlvLoop rounds rs.flatten (asInt rs.flatten.length) res) ↔ NamesEnd rs := by
  induction rs generalizing rounds res with
      obtain ⟨rounds, rfl⟩ := Nat.exists_eq_succ_of_ne_zero (Nat.ne_zero_of_lt hr)
  | nil => exact iff_of_true .safe trivial
  | cons r rs ih =>
    obtain ⟨⟨hfixed, hlen, -⟩, hrs⟩ := forall_mem_cons.1 h
    rw [flatten_cons] at hr ⊢
    have hlength := @length_append _ r rs.flatten
    have hih := fun res' => ih hrs (show rs.flatten.length < rounds by omega) res'
    have hsub : asInt (asInt (r ++ rs.flatten).length - r.length) = asInt rs.flatten.length := by
      rw [asInt_sub (by omega), hlength, Nat.add_sub_cancel_left]
    unfold tlvLoop NamesEnd
    split_ifs with hends
    · exact iff_of_true .safe fun h => absurd hends h
    rw [u16_of_le (by omega), ok_bind, u16_of_le (by omega), ok_bind,
      field_append (by omega), field_append (by omega), hlen]
    by_cases hp : Passes r
    swap
    · rw [resourceTlv_of_not_passes hp, ok_bind]
      exact iff_of_true .safe fun _ h => absurd h hp
    refine yields_bind_iff.trans ⟨fun hsafe _ _ => ?_, fun hnames => ?_⟩
    · have hname := nul_of_resourceTlv hp (hsafe.mono fun _ _ => trivial)
      obtain ⟨_, ho, res', ptr, rfl, hptr⟩ := resourceTlv_of_passes hp hname res
      rw [ho, yields_ok_iff] at hsafe
      change Safe (tlvLoop rounds (ptr.drop r.length) _ res') at hsafe
      rw [hptr, hsub] at hsafe
      exact ⟨hname, (hih res').1 hsafe⟩
    · obtain ⟨hname, hnames⟩ := hnames hends hp
      obtain ⟨_, ho, res', ptr, rfl, hptr⟩ := resourceTlv_of_passes hp hname res
      rw [ho, yields_ok_iff]
      show Safe (tlvLoop rounds (ptr.drop r.length) _ res')
      rw [hptr, hsub]
      exact (hih res').2 hnames

end Tlv

theorem safe_readResources_iff {msg : List UInt8} (h20 : 20 ≤ msg.length)
    {rs : List (List UInt8)} (hrs : rs.flatten = msg.drop 20)
    (h : ∀ r ∈ rs, IsRecord 4 2 (fun _ => True) r) (hr : msg.length ≤ rounds) :
    Safe (readResources rounds msg msg.length) ↔
      (0 < asInt (msg.drop 20).length → NamesEnd rs) := by
  unfold readResources
  rw [show (20 : ℤ) = (20 : ℕ) from rfl, asInt_sub h20, ← length_drop, ← hrs]
  dsimp only
  split_ifs with hle
  · exact iff_of_true .safe fun hpos => absurd hle (by omega)
  · rw [safe_tlvLoop_iff h (by rw [hrs, length_drop]; omega), imp_iff_right (by omega)]

/-- A management message that is not a fragment. -/
theorem yields_handleOfmp_iff {msg : List UInt8} (h20 : 20 ≤ msg.length)
    (hr : msg.length ≤ rounds) :
    Yields (handleOfmp rounds msg (ofmpType msg)) (fun event => ¬ OfmpFit msg → event = none) ↔
      OfmpDecodable msg := by
  have hplain (h3 : ofmpType msg ≠ 3) (h7 : ofmpType msg ≠ 7) : OfmpDecodable msg :=
    ⟨fun h => absurd h h3, fun h => absurd h h7⟩
  unfold handleOfmp OfmpFit
  split_ifs with h5 h6 h3 h7
  · refine iff_of_true ?_ (hplain (by rw [h5]; decide) (by rw [h5]; decide))
    rw [h5]
    unfold handleOfmpConfigUpdate
    split_ifs with h44
    · exact .ok fun _ => rfl
    · rw [u32_of_le (by omega), ok_bind]
      split_ifs
      · exact .ok fun hfit => absurd (show 44 ≤ msg.length by omega) hfit
      · rw [bytes_of_le (by omega), ok_bind, bytes_of_le (by omega), ok_bind]
        exact .ok fun hfit => absurd (show 44 ≤ msg.length by omega) hfit
  · refine iff_of_true ?_ (hplain (by rw [h6]; decide) (by rw [h6]; decide))
    rw [h6]
    unfold handleOfmpConfigUpdateAck
    split_ifs with h48
    · exact .ok fun _ => rfl
    · simp (disch := omega) only [u32_of_le, bytes_of_le, ok_bind]
      exact .ok fun hfit => absurd (show 48 ≤ msg.length by omega) hfit
  · unfold handleOfmpResourcesUpdate OfmpDecodable TlvsDecodable
    rw [h3, if_neg (by omega)]
    refine yields_event_iff.trans ⟨fun ⟨hsafe, hfit⟩ => ⟨fun _ => ?_, nofun⟩, ?_⟩
    · obtain ⟨rs, hrs, hrec⟩ := exists_records hfit
      exact ⟨rs, hrs, hrec, (safe_readResources_iff h20 hrs hrec hr).1 hsafe⟩
    · rintro ⟨h, -⟩
      obtain ⟨rs, hrs, hrec, hnames⟩ := h rfl
      exact ⟨(safe_readResources_iff h20 hrs hrec hr).2 hnames, hrs ▸ records_flatten hrec⟩
  · unfold handleOfmpError tryAt OfmpDecodable
    rw [h7]
    split_ifs with h24
    · simp (disch := omega) only [u16_of_le, ok_bind]
      exact iff_of_true (.ok fun _ => rfl) ⟨nofun, fun _ => h24⟩
    · exact iff_of_false not_yields_error fun h => h24 (h.2 rfl)
  · exact iff_of_true (.ok fun _ => rfl) (hplain h3 h7)

/-! ### Extended messages -/

variable {c : Connection} {msg buf : List UInt8}

theorem resetExtData_ok (hbuf : c.extDataBuffer = some buf) (xid : List UInt8) :
    Yields (resetExtData c xid) fun c' =>
      ∃ buf', c'.extDataBuffer = some buf' ∧ buf'.length ≤ buf.length := by
  unfold resetExtData
  rw [hbuf]
  split_ifs
  · exact .ok ⟨[], rfl, Nat.zero_le _⟩
  · exact .ok ⟨buf, hbuf, le_refl _⟩

/-- What `reassemble` hands on: a management message of at least 65536 bytes with the transaction
id of the fragments. -/
structure Handed (c' : Connection) (whole : List UInt8) (n : ℕ) : Prop where
  large : 65536 ≤ whole.length
  small : whole.length ≤ n
  subtype : field whole 12 4 = 8
  xid : (whole.drop 4).take 4 = c'.extDataXid

theorem yields_reassemble (msg : List UInt8) (hbuf : c.extDataBuffer = some buf) :
    Yields (reassemble c msg) fun r => (r.1 = none → r.2.extDataBuffer.isSome) ∧
      ∀ whole, r.1 = some whole →
        Handed r.2 whole (buf.length + msg.length) ∧ r.2.extDataBuffer = none := by
  unfold reassemble
  split_ifs with h24
  · exact .ok ⟨fun _ => by rw [hbuf]; rfl, nofun⟩
  rw [bytes_of_le (by omega), ok_bind, hbuf]
  dsimp only
  rw [bytes_of_le (by omega), ok_bind, u8_of_le (by omega), ok_bind]
  set xid := (msg.drop 4).take 4 with hxid
  set whole := buf ++ (msg.drop 24).take (msg.length - 24) with hwhole
  have hxidlen : xid.length = 4 := by
    rw [hxid, length_take, length_drop]
    omega
  have hlen : whole.length = buf.length + (msg.length - 24) := by
    rw [hwhole, length_append, length_take, length_drop]
    omega
  split_ifs with hmore hshort
  · exact .ok ⟨fun _ => rfl, nofun⟩
  · exact .ok ⟨fun _ => rfl, nofun⟩
  rw [u32_of_le (by omega), ok_bind, u32_of_le (by omega), ok_bind, bytes_of_le (by omega), ok_bind]
  split_ifs with hbad
  · exact .ok ⟨fun _ => rfl, nofun⟩
  have hstored : (store whole 4 xid).length = whole.length := length_store (by omega)
  refine .ok ⟨nofun, fun w hw => ⟨?_, rfl⟩⟩
  cases hw
  have hlen' : (store (store whole 4 xid) 2 [0, 0]).length = whole.length := by
    rw [length_store (by show 2 + 2 ≤ _; omega), hstored]
  refine ⟨by omega, by omega, ?_, ?_⟩
  · unfold field
    rw [drop_store (by omega) (by decide), drop_store (by omega) (by omega)]
    exact not_not.1 (not_or.1 (not_or.1 hbad).2).1
  · rw [drop_store (by omega) (by decide)]
    have := take_drop_store (b := xid) (show 4 ≤ whole.length by omega)
    rwa [hxidlen] at this

/-- A message that was completed is handled while the connection has no buffer. -/
theorem yields_whole_iff {whole : List UInt8} (h : Handed c whole n)
    (hnone : c.extDataBuffer = none) (hr : n < rounds) :
    Yields (handleNxVendor rounds c whole) (fun r => ¬ OfmpFit whole → r.1 = none) ↔
      ofmpType whole ≠ 8 ∧ OfmpDecodable whole := by
  obtain ⟨rounds, rfl⟩ := Nat.exists_eq_succ_of_ne_zero (show rounds ≠ 0 by omega)
  have hlarge := h.large
  have hsmall := h.small
  unfold handleNxVendor
  rw [if_neg (by omega), u32_of_le (by omega), ok_bind, h.subtype, if_neg (not_not.2 rfl),
    if_neg (by omega), bytes_of_le (by omega), ok_bind, h.xid]
  unfold resetExtData
  rw [if_neg (not_not.2 rfl), ok_bind, u16_of_le (by omega), ok_bind,
    show field whole 16 2 = ofmpType whole from rfl]
  split_ifs with h8
  · unfold reassemble
    rw [if_neg (by omega), bytes_of_le (by omega), ok_bind, hnone]
    exact iff_of_false not_yields_error fun hd => hd.1 h8
  · rw [and_iff_right h8, ← @yields_handleOfmp_iff rounds _ (by omega) (by omega),
      yields_bind_iff]
    simp only [pure, Except.pure, yields_ok_iff]

/-- A vendor message. -/
theorem yields_handleNxVendor_iff (hbuf : c.extDataBuffer = some buf) (h12 : 12 ≤ msg.length)
    (hvendor : field msg 8 4 = 0x2320) (hr : msg.length + buf.length + 2 ≤ rounds) :
    Yields (handleNxVendor rounds c msg) (fun r => ¬ VendorFit c msg → r.1 = none) ↔
      VendorDecodable c msg := by
  obtain ⟨rounds, rfl⟩ := Nat.exists_eq_succ_of_ne_zero (show rounds ≠ 0 by omega)
  unfold VendorDecodable
  rw [and_iff_right h12]
  have hother : ¬ IsOfmp msg → Yields (handleNxVendor (rounds + 1) c msg) fun r => r.1 = none := by
    intro hn
    unfold handleNxVendor
    split_ifs with h16 h20
    · exact .ok rfl
    · rw [u32_of_le (by omega), ok_bind]
      split_ifs <;> exact .ok rfl
    · rw [u32_of_le (by omega), ok_bind, if_pos fun hsub => hn ⟨by omega, hvendor, hsub⟩]
      exact .ok rfl
  by_cases hofmp : IsOfmp msg
  swap
  · exact iff_of_true ((hother hofmp).mono fun _ h _ => h) fun h => absurd h hofmp
  obtain ⟨h20, -, hsub⟩ := id hofmp
  rw [imp_iff_right hofmp]
  unfold handleNxVendor
  rw [if_neg (by omega), u32_of_le (by omega), ok_bind, if_neg (not_not.2 hsub),
    if_neg (by omega), bytes_of_le (by omega), ok_bind]
  obtain ⟨c1, hc1, buf1, hbuf1, hle1⟩ := resetExtData_ok hbuf ((msg.drop 4).take 4)
  rw [hc1, ok_bind, u16_of_le (by omega), ok_bind, show field msg 16 2 = ofmpType msg from rfl]
  split_ifs with h8
  · obtain ⟨⟨whole?, c2⟩, hre, -, hhanded⟩ := yields_reassemble msg hbuf1
    have hcompleted : completed c msg = whole? := by
      unfold completed
      rw [hc1, ok_bind, hre]
    rw [hre, ok_bind, hcompleted]
    rcases whole? with _ | whole
    · exact iff_of_true (.ok fun _ => rfl) nofun
    obtain ⟨hhanded, hnone⟩ := hhanded whole rfl
    have h24 : 24 ≤ msg.length := by
      by_contra hshort
      unfold reassemble at hre
      rw [if_pos (by omega)] at hre
      cases hre
    have hfit : VendorFit c msg ↔ OfmpFit whole := by
      unfold VendorFit
      rw [hcompleted, imp_iff_right hvendor, imp_iff_right hsub, imp_iff_right h8]
      have hmsg : OfmpFit msg := by
        unfold OfmpFit
        rw [h8]
        exact h24
      exact ⟨fun h => h.2.2.2 whole rfl,
        fun h => ⟨by omega, h20, hmsg, fun w hw => Option.some.inj hw ▸ h⟩⟩
    rw [hfit, yields_bind_iff]
    simp only [pure, Except.pure, yields_ok_iff, Option.some.injEq, forall_eq']
    exact yields_whole_iff hhanded hnone (by omega)
  · have hfit : VendorFit c msg ↔ OfmpFit msg :=
      ⟨fun h => ((h hvendor).2 hsub).2.1,
        fun h _ => ⟨by omega, fun _ => ⟨h20, h, fun h8' => absurd h8' h8⟩⟩⟩
    rw [hfit, yields_bind_iff, ← yields_handleOfmp_iff h20 (show msg.length ≤ rounds by omega)]
    simp only [pure, Except.pure, yields_ok_iff]

/-! ### Statistics replies -/

/-- A statistics reply. -/
theorem yields_handleStatsReply_iff (hlen : field msg 2 2 = msg.length)
    (hr : msg.length ≤ rounds) :
    Yields (handleStatsReply rounds msg)
      (fun event => ¬ (12 ≤ msg.length ∧ StatsFit msg) → event = none) ↔ StatsDecodable msg := by
  have hlt := field_lt msg 2 2
  have hbody : (msg.drop 12).length = msg.length - 12 := length_drop
  have hsub : 12 ≤ msg.length → subSize msg.length 12 = msg.length - 12 :=
    fun h => subSize_of_le h (by omega)
  have hwrap : msg.length < 12 → subSize msg.length 12 = 2 ^ 64 + msg.length - 12 := by
    unfold subSize
    omega
  unfold handleStatsReply StatsFit StatsDecodable
  rw [yields_bind_iff, yields_u16_iff]
  refine and_congr_right fun h10 => ?_
  rw [u16_of_le (by omega), ok_bind, hlen, show field msg 8 2 = statsType msg from rfl]
  split_ifs with h0 h3 h4 h2 h1 h5
  · rw [h0]
    unfold handleStatsDescReply
    split_ifs with hne
    · exact iff_of_true (.ok fun _ => rfl) fun hl => absurd (hsub (by omega)) (by omega)
    have hl : msg.length = 12 + 1056 := by omega
    have hle {i : ℕ} (hi : i ≤ 812) (h : 0 ∈ msg.drop 812) : 0 ∈ msg.drop i :=
      (drop_sublist_drop_left msg hi).subset h
    simp only [yields_bind_iff, yields_cstr_iff, pure, Except.pure, yields_ok_iff]
    exact ⟨fun h _ => h.2.2.2.1, fun h => ⟨hle (by decide) (h hl), hle (by decide) (h hl),
      hle (by decide) (h hl), h hl, hle (by decide) (h hl), absurd ⟨by omega, hl⟩⟩⟩
  · rw [h3]
    unfold handleStatsTableReply
    split_ifs with hne
    · exact iff_of_true (.ok fun _ => rfl) fun hdvd i hi => absurd (hsub (by omega)) (by omega)
    have h12 : 12 ≤ msg.length := by omega
    have hdvd : 64 ∣ msg.length - 12 := by omega
    rw [yields_event_iff, hsub h12, safe_array_iff]
    simp only [safe_tableStats_iff, drop_drop, length_drop]
    exact ⟨fun h _ i hi => (h.1 i hi).2, fun h => ⟨fun i hi => ⟨by omega, h hdvd i hi⟩, h12, hdvd⟩⟩
  · rw [h4]
    refine iff_of_true (.ite (fun _ => .ok fun _ => rfl) fun hne => ?_) trivial
    have h12 : 12 ≤ msg.length := by omega
    rw [yields_event_iff, hsub h12, safe_array_iff]
    exact ⟨fun i hi => safe_portStats (by simp only [length_drop]; omega), h12,
      show 104 ∣ msg.length - 12 by omega⟩
  · rw [h2]
    refine iff_of_true (.ite (fun _ => .ok fun _ => rfl) fun hne => ?_) trivial
    simp (disch := omega) only [u32_of_le, u64_of_le, ok_bind]
    exact .ok (absurd ⟨by omega, show msg.length = 12 + 24 by omega⟩)
  · rw [h1]
    show _ ↔ (12 ≤ msg.length → FlowsFit (msg.drop 12))
    unfold handleStatsFlowReply
    split_ifs with h12
    · exact iff_of_true (.ok fun _ => rfl) fun h => absurd h12 (by omega)
    rw [imp_iff_right (by omega), u16_of_le (by omega), ok_bind, hsub (by omega), ← hbody,
      yields_event_iff]
    refine ⟨fun h => h.2.2, fun hflows => ⟨?_, by omega, hflows⟩⟩
    obtain ⟨rs, hrs, hrecs⟩ := exists_records hflows
    rw [← hrs]
    exact (yields_flowLoop hrecs (by rw [hrs]; omega)).mono fun _ _ => trivial
  · rw [h5]
    refine yields_event_iff.trans ⟨fun h => h.2, fun h => ⟨?_, h⟩⟩
    rw [hsub h.1, safe_array_iff]
    exact fun i hi => safe_queueStats_iff.2 (by simp only [length_drop]; omega)
  · refine iff_of_true (.ok fun _ => rfl) ?_
    split <;> trivial

/-! ### All messages -/

section Packet

variable {P : Prop}

theorem yields_handlePacketIn_iff :
    Yields (handlePacketIn msg) (fun event => ¬ P → event = none) ↔ 18 ≤ msg.length ∧ P := by
  unfold handlePacketIn pull
  split_ifs with h18
  · simp (disch := omega) only [u8_of_le, u16_of_le, u32_of_le, ok_bind]
    rw [yields_event_iff, and_iff_right (Flow.yields_ofPacket _ _ _), and_iff_right h18]
  · exact iff_of_false not_yields_error fun h => h18 h.1

theorem yields_handleFlowRemoved_iff :
    Yields (handleFlowRemoved msg) (fun event => ¬ P → event = none) ↔ 88 ≤ msg.length ∧ P := by
  unfold handleFlowRemoved
  simp only [yields_bind_iff, yields_u8_iff, yields_u16_iff, yields_u32_iff, yields_u64_iff, pure,
    Except.pure, yields_ok_iff, reduceCtorEq, imp_false, not_not]
  grind

theorem yields_handleError_iff :
    Yields (handleError msg) (fun event => ¬ P → event = none) ↔ 12 ≤ msg.length ∧ P := by
  unfold handleError
  simp only [yields_bind_iff, yields_u16_iff, pure, Except.pure, yields_ok_iff, reduceCtorEq,
    imp_false, not_not]
  grind

theorem yields_handlePortStatus_iff :
    Yields (handlePortStatus msg) (fun event => ¬ P → event = none) ↔
      (64 ≤ msg.length ∧ 0 ∈ msg.drop 24) ∧ P := by
  unfold handlePortStatus
  rw [yields_bind_iff, yields_u8_iff, yields_event_iff, safe_port_iff, length_drop, drop_drop]
  grind

/-- A queue configuration reply. -/
theorem yields_handleQueueConfigReply_iff (hlen : field msg 2 2 = msg.length)
    (hP : P → 16 ≤ msg.length ∧ QueuesFit (msg.drop 16)) (hr : msg.length ≤ rounds) :
    Yields (handleQueueConfigReply rounds msg) (fun event => ¬ P → event = none) ↔ P := by
  have hlt := field_lt msg 2 2
  unfold handleQueueConfigReply
  constructor
  · intro h
    rw [yields_bind_iff, yields_u16_iff, yields_bind_iff, yields_u16_iff, yields_event_iff] at h
    exact h.2.2.2
  · intro h
    obtain ⟨h16, hqueues⟩ := hP h
    obtain ⟨rs, hrs, hrecs⟩ := exists_records hqueues
    have hsub : subSize msg.length 16 = rs.flatten.length := by
      rw [subSize_of_le h16 (by omega), hrs, length_drop]
    rw [u16_of_le (by omega), ok_bind, u16_of_le (by omega), ok_bind, hlen, hsub, ← hrs,
      queueLoop_eq hrecs (by rw [hrs, length_drop]; omega), ok_bind]
    exact .ok (absurd h)

end Packet

/-- A message of a type with nothing inside it fits. -/
theorem fits_of_plain (h8 : 8 ≤ msg.length) (hfixed : fixedPart (typeOf msg) = 8) : Fits c msg := by
  refine ⟨by rw [hfixed]; exact h8, fun ht => ?_, fun ht => ?_, fun ht => ?_⟩ <;>
    exact absurd (ht ▸ hfixed) (by decide)

theorem yields_handleVendor_iff (hbuf : c.extDataBuffer = some buf) (htype : typeOf msg = 4)
    (hr : msg.length + buf.length + 2 ≤ rounds) :
    Yields (handleVendor rounds c msg) (fun r => ¬ Fits c msg → r.1 = none) ↔
      VendorDecodable c msg := by
  unfold handleVendor
  rw [yields_bind_iff, yields_u32_iff]
  by_cases hge : 12 ≤ msg.length
  swap
  · exact iff_of_false (fun h => hge h.1) fun h => hge h.1
  have hfits : Fits c msg ↔ VendorFit c msg := by
    refine ⟨fun h => h.vendor htype, fun h => ⟨?_, ?_, ?_, fun _ => h⟩⟩
    · rw [htype]
      exact hge
    all_goals exact fun ht => absurd (htype.symm.trans ht) (by decide)
  rw [and_iff_right hge, hfits]
  split_ifs with hvendor
  · exact yields_handleNxVendor_iff hbuf hge hvendor hr
  · exact iff_of_true (.ok fun _ => rfl) ⟨hge, fun hofmp => absurd hofmp.2.1 hvendor⟩

/-- Where the computation returns, the connection has a buffer. -/
def Keeps (x : Except Fault (Option Event × Connection)) : Prop :=
  ∀ event c', x = .ok (event, c') → c'.extDataBuffer.isSome

theorem Keeps.ok (h : c.extDataBuffer.isSome) {event : Option Event} :
    Keeps (.ok (event, c)) := by
  rintro _ _ ⟨⟩
  exact h

theorem Keeps.map (h : c.extDataBuffer.isSome) {x : Except Fault (Option Event)} :
    Keeps (x.map (·, c)) := by
  cases x with
  | ok event => exact .ok h
  | error e => exact nofun

theorem Keeps.ite {p : Prop} [Decidable p] {x y : Except Fault (Option Event × Connection)}
    (hx : Keeps x) (hy : Keeps y) : Keeps (if p then x else y) := by
  split_ifs
  · exact hx
  · exact hy

/-- A vendor message leaves the connection with a buffer. -/
theorem keeps_handleNxVendor (hbuf : c.extDataBuffer = some buf) :
    Keeps (handleNxVendor rounds c msg) := by
  have hsome : c.extDataBuffer.isSome := by rw [hbuf]; rfl
  obtain _ | rounds := rounds
  · exact nofun
  unfold handleNxVendor
  split_ifs with h16 h20
  · exact .ok hsome
  · rw [u32_of_le (by omega), ok_bind]
    exact .ite (.ok hsome) (.ok hsome)
  obtain ⟨c1, hc1, buf1, hbuf1, -⟩ := resetExtData_ok hbuf ((msg.drop 4).take 4)
  rw [u32_of_le (by omega), ok_bind, bytes_of_le (by omega), ok_bind, hc1, ok_bind,
    u16_of_le (by omega), ok_bind]
  obtain ⟨⟨whole?, c2⟩, hre, hnone, -⟩ := yields_reassemble msg hbuf1
  rw [hre, ok_bind]
  refine .ite (.ok hsome) (.ite ?_ ?_)
  · rcases whole? with _ | whole
    · exact .ok (hnone rfl)
    · intro event c' h
      obtain ⟨_, -, hout⟩ := yields_bind_iff.1 ⟨_, h, rfl⟩
      cases yields_ok_iff.1 hout
      rfl
  · intro event c' h
    obtain ⟨_, -, hout⟩ := yields_bind_iff.1 ⟨_, h, rfl⟩
    cases yields_ok_iff.1 hout
    rw [hbuf1]
    rfl

/-- **Decoding stays inside the message.**  A message of at least 8 bytes with its length in its
header is decoded within a number of rounds that its length bounds, with no byte outside it read,
no null pointer followed and no assertion failed, and becomes no event when it does not fit,
exactly when it is `Decodable`.  The connection is left with a buffer for the next. -/
theorem decoded_inside (hbuf : c.extDataBuffer = some buf) (h8 : 8 ≤ msg.length)
    (hlen : field msg 2 2 = msg.length) {rounds : ℕ}
    (hr : msg.length + buf.length + 2 ≤ rounds) :
    ((∃ event c', openflowPacketToEvent rounds c msg = .ok (event, c') ∧
      (¬ Fits c msg → event = none)) ↔ Decodable c msg) ∧
    ∀ event c', openflowPacketToEvent rounds c msg = .ok (event, c') →
      c'.extDataBuffer.isSome := by
  have hsome : c.extDataBuffer.isSome := by rw [hbuf]; rfl
  constructor
  · have hyields : (∃ event c', openflowPacketToEvent rounds c msg = .ok (event, c') ∧
        (¬ Fits c msg → event = none)) ↔
        Yields (openflowPacketToEvent rounds c msg) fun r => ¬ Fits c msg → r.1 = none :=
      ⟨fun ⟨event, c', h⟩ => ⟨(event, c'), h⟩, fun ⟨⟨event, c'⟩, h⟩ => ⟨event, c', h⟩⟩
    rw [hyields]
    unfold openflowPacketToEvent Decodable
    rw [if_neg (by omega), u8_of_le (by omega), ok_bind]
    by_cases hversion : field msg 0 1 = 1
    swap
    · rw [if_pos hversion]
      exact iff_of_true (.ok fun _ => rfl) fun h => absurd h hversion
    rw [if_neg (not_not.2 hversion), imp_iff_right hversion, u8_of_le (by omega), ok_bind,
      show field msg 1 1 = typeOf msg from rfl]
    have hfixed {t : ℕ} (ht : typeOf msg = t) (hfits : Fits c msg) : fixedPart t ≤ msg.length :=
      ht ▸ hfits.fixed
    have hplain {event : Option Event} (hevent : ¬ Fits c msg → event = none)
        (hne : typeOf msg ∉ [1, 10, 11, 12, 21, 17, 4]) :
        Yields (.ok (event, c)) (fun r => ¬ Fits c msg → r.1 = none) ↔ Relied c msg := by
      simp only [mem_cons, not_mem_nil, or_false, not_or] at hne
      exact iff_of_true (.ok hevent) (by simp [relied_iff, hne])
    refine yields_ite_iff (fun h10 => ?_) fun _ => yields_ite_iff (fun h11 => ?_) fun _ =>
      yields_ite_iff (fun h21 => ?_) fun _ => yields_ite_iff (fun h12 => ?_) fun _ =>
      yields_ite_iff (fun h6 => hplain (fun _ => rfl) (by rw [h6]; decide)) fun _ =>
      yields_ite_iff (fun h17 => ?_) fun _ => yields_ite_iff (fun h19 => ?_) fun _ =>
      yields_ite_iff (fun h2 => ?_) fun _ => yields_ite_iff (fun h4 => ?_) fun _ =>
      yields_ite_iff (fun h3 => hplain (fun _ => rfl) (by rw [h3]; decide)) fun _ =>
      yields_ite_iff (fun h1 => ?_) fun _ => hplain (fun _ => rfl) (by grind)
    · rw [yields_map_iff, yields_handlePacketIn_iff]
      exact (and_iff_right_of_imp (hfixed h10)).trans (by simp [relied_iff, h10])
    · rw [yields_map_iff, yields_handleFlowRemoved_iff]
      exact (and_iff_right_of_imp (hfixed h11)).trans (by simp [relied_iff, h11])
    · rw [yields_map_iff, yields_handleQueueConfigReply_iff hlen
        (fun hfits => ⟨hfixed h21 hfits, hfits.queues h21⟩) (by omega)]
      simp [relied_iff, h21]
    · have h64 : Fits c msg → 64 ≤ msg.length := hfixed h12
      rw [yields_map_iff, yields_handlePortStatus_iff, and_right_comm, and_iff_right_of_imp h64]
      simp [relied_iff, h12]
    · have hfits : Fits c msg ↔ 12 ≤ msg.length ∧ StatsFit msg := by
        refine ⟨fun h => ⟨hfixed h17 h, h.stats h17⟩, fun h => ⟨?_, fun _ => h.2, ?_, ?_⟩⟩
        · rw [h17]
          exact h.1
        all_goals exact fun ht => absurd (h17.symm.trans ht) (by decide)
      rw [yields_map_iff, hfits, yields_handleStatsReply_iff hlen (by omega)]
      simp [relied_iff, h17]
    · exact hplain (absurd (fits_of_plain h8 (by rw [h19]; rfl))) (by rw [h19]; decide)
    · rw [pull_of_le h8, ok_bind]
      exact hplain (absurd (fits_of_plain h8 (by rw [h2]; rfl))) (by rw [h2]; decide)
    · rw [yields_handleVendor_iff hbuf h4 hr]
      simp [relied_iff, h4]
    · rw [yields_map_iff, yields_handleError_iff]
      exact (and_iff_right_of_imp (hfixed h1)).trans (by simp [relied_iff, h1])
  · show Keeps (openflowPacketToEvent rounds c msg)
    have hkeep {event : Option Event} : Keeps (.ok (event, c)) := .ok hsome
    unfold openflowPacketToEvent
    rw [if_neg (by omega), u8_of_le (by omega), ok_bind, u8_of_le (by omega), ok_bind,
      pull_of_le h8, ok_bind]
    refine .ite hkeep (.ite (.map hsome) (.ite (.map hsome) (.ite (.map hsome) (.ite (.map hsome)
      (.ite hkeep (.ite (.map hsome) (.ite hkeep (.ite hkeep (.ite ?_ (.ite hkeep
      (.ite (.map hsome) hkeep)))))))))))
    intro event c' h
    obtain ⟨vendor, -, _, hnx, rfl⟩ := yields_bind_iff.1 ⟨_, h, rfl⟩
    revert hnx
    exact Keeps.ite (keeps_handleNxVendor hbuf) hkeep event c'

/-- A flow record with one action, which announces `len` bytes. -/
def flowRecord (len : UInt8) : List UInt8 :=
  [0, 96] ++ List.replicate 86 0 ++ [0, 0, 0, len, 0, 0, 0, 0]

/-- A flow statistics reply with that record. -/
def flowReply (len : UInt8) : List UInt8 :=
  [1, 17, 0, 108, 0, 0, 0, 7, 0, 1, 0, 0] ++ flowRecord len

/-- A flow statistics reply with one flow that has one action is decoded within it, and so is a
short message of another version. -/
theorem decoded_inside_flow :
    (∃ event c', openflowPacketToEvent 110 Connection.init (flowReply 8) = .ok (event, c') ∧
      (¬ Fits Connection.init (flowReply 8) → event = none)) ∧
    ∃ event c', openflowPacketToEvent 110 Connection.init [2, 1, 0, 8, 0, 0, 0, 0] =
      .ok (event, c') ∧ (¬ Fits Connection.init [2, 1, 0, 8, 0, 0, 0, 0] → event = none) := by
  have hflows : FlowsFit (flowRecord 8) :=
    @Records.cons 88 0 _ (flowRecord 8) [] (by decide) (by decide)
      (@Records.cons 8 2 _ [0, 0, 0, 8, 0, 0, 0, 0] [] (by decide) (by decide) True.intro .nil) .nil
  have hdec : Decodable Connection.init (flowReply 8) := by
    have hstats : statsType (flowReply 8) = 1 := by decide
    refine fun _ => ⟨?_, ?_, fun _ => ?_, ?_⟩
    rotate_left 2
    · unfold StatsDecodable
      rw [hstats]
      exact ⟨by decide, fun _ => hflows⟩
    all_goals
      exact fun h => absurd h (by decide)
  have hbuf : Connection.init.extDataBuffer = some [] := rfl
  exact ⟨(decoded_inside hbuf (by decide) (by decide) (by decide)).1.2 hdec,
    (decoded_inside hbuf (by decide) (by decide) (by decide)).1.2 fun h => absurd h (by decide)⟩

/-- An action that announces no length is visited again and again. -/
theorem actionLoop_zero {p : List UInt8} (h : u16 p 2 = .ok 0) (hn : n ≠ 0) :
    ∀ rounds, actionLoop rounds p n = .error .spin := by
  intro rounds
  induction rounds with
  | zero => rfl
  | succ rounds ih =>
    unfold actionLoop
    rw [if_neg hn, h, ok_bind, drop_zero, Nat.sub_zero, ih, error_bind]

set_option maxRecDepth 2000 in
/-- **Decoding may leave the message.**  Each of these messages has its own length in its header.
An error message without a body is read beyond its end; a flow statistics reply with an action of
length zero is read for ever; and a queue statistics reply with one byte that belongs to no
queue becomes an event. -/
theorem error_reply_reads_outside :
    (field [1, 1, 0, 8, 0, 0, 0, 0] 2 2 = 8 ∧ ∀ rounds,
      openflowPacketToEvent rounds Connection.init [1, 1, 0, 8, 0, 0, 0, 0] = .error .outside) ∧
    (field (flowReply 0) 2 2 = (flowReply 0).length ∧ ∀ rounds,
      openflowPacketToEvent rounds Connection.init (flowReply 0) = .error .spin) ∧
    (field [1, 17, 0, 13, 0, 0, 0, 0, 0, 5, 0, 0, 9] 2 2 = 13 ∧
      ¬ Fits Connection.init [1, 17, 0, 13, 0, 0, 0, 0, 0, 5, 0, 0, 9] ∧ ∀ rounds,
      openflowPacketToEvent rounds Connection.init [1, 17, 0, 13, 0, 0, 0, 0, 0, 5, 0, 0, 9] =
        .ok (some (.queueStatsIn []), Connection.init)) := by
  refine ⟨⟨by decide, fun _ => rfl⟩, ⟨by decide, fun rounds => ?_⟩, by decide, fun hfits => ?_,
    fun _ => rfl⟩
  · have hloop : flowLoop rounds (flowRecord 0) 96 = .error .spin := by
      cases rounds with
      | zero => rfl
      | succ rounds =>
        show (FlowStats.read rounds (flowRecord 0) >>= _) = _
        have hread : FlowStats.read rounds (flowRecord 0) = .error .spin := by
          show (actionLoop rounds [0, 0, 0, 0, 0, 0, 0, 0] 8 >>= _) = _
          rw [actionLoop_zero rfl (by decide), error_bind]
        rw [hread, error_bind]
    show Except.map (·, Connection.init) (flowLoop rounds (flowRecord 0) 96 >>= _) = _
    rw [hloop, error_bind]
    rfl
  · have hdvd : 32 ∣ 13 - 12 := hfits.stats (by decide)
    exact absurd hdvd (by decide)

end NoxClassic.Openflow.Message
