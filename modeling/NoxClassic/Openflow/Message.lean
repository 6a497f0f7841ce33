/-
# From OpenFlow messages to events

`openflow_packet_to_event` and the handlers it calls (`src/lib/openflow-event.cc`),
with the constructors of the events they build (`src/lib/flow-stats-in.cc`,
`queue-config-in.cc`, `queue-stats-in.cc`, `src/include/ofmp-resources-update.hh` and
the other headers of `src/include`).  A message goes by its type to a handler, a
statistics reply and a management message go on by the type inside them:

| message | handler | what is inside |
| --- | --- | --- |
| `OFPT_PACKET_IN` | `handlePacketIn` | a frame |
| `OFPT_STATS_REPLY` | `handleStatsReply` | a structure, an array, or flow records with actions |
| `OFPT_QUEUE_GET_CONFIG_REPLY` | `handleQueueConfigReply` | queues with properties |
| `OFPT_VENDOR` | `handleNxVendor` | TLVs, or a fragment of a larger message |

`handle_packet` compares the size of the message with the fixed part of its type,
and writes to the log that it is too short, but calls the handler all the same.

Fragments are collected in a buffer of the connection, and the message that the last
one completes is handled as if it had been received.  The buffer is handed on when
this happens, so the connection has none meanwhile.

Multi-byte fields are compared in network order by the source.  Left out are the log,
the copy of the message that an event keeps, the connection's `datapathid` in the
events, and the parse of the configuration text, which is kept as bytes.
-/

import NoxClassic.Lib.Buffer
import NoxClassic.Openflow.Flow
import Mathlib.Data.List.AList
import Mathlib.Data.Int.Init
import Mathlib.Algebra.Group.Int.Defs

namespace NoxClassic.Openflow.Message

open Lib

/-! ### The events -/

/-- `Port`. -/
structure Port where
  portNo : ℕ
  name : List UInt8
  speed : ℕ
  config : ℕ
  state : ℕ
  curr : ℕ
  advertised : ℕ
  supported : ℕ
  peer : ℕ
  hwAddr : List UInt8
  deriving DecidableEq

/-- `Flow_stats`: the structure as it was received, the bytes of the actions, and a pointer to
each action. -/
structure FlowStats where
  raw : List UInt8
  actionData : List UInt8
  vActions : List (List UInt8)
  deriving DecidableEq

/-- `Table_stats`. -/
structure TableStats where
  tableId : ℕ
  name : List UInt8
  maxEntries : ℕ
  activeCount : ℕ
  lookupCount : ℕ
  matchedCount : ℕ
  deriving DecidableEq

/-- `Port_stats`; the counters from `rx_packets` to `collisions` in the order of the structure. -/
structure PortStats where
  portNo : ℕ
  counters : List ℕ
  deriving DecidableEq

/-- `Queue_stats`. -/
structure QueueStats where
  portNo : ℕ
  queueId : ℕ
  txBytes : ℕ
  txPackets : ℕ
  txErrors : ℕ
  deriving DecidableEq

/-- `Packet_queue_property`: a `Packet_queue_min_rate_property` in a vector of these is cut down
to nothing. -/
structure PacketQueueProperty where
  deriving DecidableEq

/-- `Packet_queue`. -/
structure PacketQueue where
  queueId : ℕ
  len : ℕ
  properties : List PacketQueueProperty
  deriving DecidableEq

/-- `Vif_details`. -/
structure VifDetails where
  vifUuid : List UInt8
  vifMac : ℕ
  vmUuid : List UInt8
  netUuid : List UInt8
  deriving DecidableEq

/-- The maps of an `Ofmp_resources_update_event`. -/
structure Resources where
  portNameMap : AList fun _ : ℕ => List UInt8
  mgmtUuidMap : AList fun _ : ℕ => List UInt8
  netUuidMap : AList fun _ : ℕ => List (List UInt8)
  vifDetailsMap : AList fun _ : List UInt8 => VifDetails

/-- The events that messages become. -/
inductive Event where
  | packetIn (inPort totalLen bufferId reason : ℕ) (flow : Flow) (buf : List UInt8)
  | flowRemoved (priority reason cookie durationSec durationNsec idleTimeout packetCount
      byteCount : ℕ)
  | queueConfigIn (port : ℕ) (queues : List PacketQueue)
  | portStatus (reason : ℕ) (port : Port)
  | queueStatsIn (queues : List QueueStats)
  | aggregateStatsIn (packetCount byteCount flowCount : ℕ)
  | tableStatsIn (tables : List TableStats)
  | portStatsIn (ports : List PortStats)
  | descStatsIn (mfrDesc hwDesc swDesc dpDesc serialNum : List UInt8)
  | flowStatsIn (more : Bool) (flows : List FlowStats)
  /-- The cookie and the text are there when the format is known. -/
  | ofmpConfigUpdate (format : ℕ) (config : Option (List UInt8 × List UInt8))
  | ofmpConfigUpdateAck (format flags xid : ℕ) (success : Bool) (cookie : List UInt8)
  | ofmpResourcesUpdate (resources : Resources)
  | barrierReply
  | echoRequest (buf : List UInt8)
  | error (type code : ℕ)

/-- What the connection keeps of an extended message: the transaction id, as it was received, and
the buffer. -/
structure Connection where
  extDataXid : List UInt8
  extDataBuffer : Option (List UInt8)

/-- A connection before any message. -/
def Connection.init : Connection := ⟨List.replicate 4 0xff, some []⟩

/-! ### Structures -/

/-- `Port::Port(const ofp_phy_port*)`. -/
def Port.read (opp : List UInt8) : Except Fault Port := do
  let name ← cstr opp 8
  let portNo ← u16 opp 0
  let config ← u32 opp 24
  let state ← u32 opp 28
  let curr ← u32 opp 32
  let advertised ← u32 opp 36
  let supported ← u32 opp 40
  let peer ← u32 opp 44
  let hwAddr ← bytes opp 2 6
  let speed :=
    if curr % 4 ≠ 0 then 10
    else if curr / 4 % 4 ≠ 0 then 100
    else if curr / 16 % 4 ≠ 0 then 1000
    else if curr / 64 % 2 ≠ 0 then 10000
    else 0
  return ⟨portNo, name, speed, config, state, curr, advertised, supported, peer, hwAddr⟩

/-- The arguments of `add_table`. -/
def TableStats.read (ots : List UInt8) : Except Fault TableStats := do
  let tableId ← u8 ots 0
  let name ← cstr ots 4
  let maxEntries ← u32 ots 40
  let activeCount ← u32 ots 44
  let lookupCount ← u64 ots 48
  let matchedCount ← u64 ots 56
  return ⟨tableId, name, maxEntries, activeCount, lookupCount, matchedCount⟩

/-- `Port_stats::Port_stats(ofp_port_stats*)`. -/
def PortStats.read (ops : List UInt8) : Except Fault PortStats := do
  let portNo ← u16 ops 0
  let counters ← array (fun p => u64 p 0) 8 12 (ops.drop 8)
  return ⟨portNo, counters⟩

/-- `Queue_stats::Queue_stats`. -/
def QueueStats.read (oqs : List UInt8) : Except Fault QueueStats := do
  let portNo ← u16 oqs 0
  let queueId ← u32 oqs 4
  let txBytes ← u64 oqs 8
  let txPackets ← u64 oqs 16
  let txErrors ← u64 oqs 24
  return ⟨portNo, queueId, txBytes, txPackets, txErrors⟩

/-- The loop over the actions of a flow, `n` bytes before their end. -/
def actionLoop : ℕ → List UInt8 → ℕ → Except Fault (List (List UInt8))
  | 0, _, _ => .error .spin
  | rounds + 1, p, n =>
    if n = 0 then .ok []
    else do
      let len ← u16 p 2
      let vActions ← actionLoop rounds (p.drop len) (n - len)
      return p :: vActions

/-- `Flow_stats::Flow_stats`. -/
def FlowStats.read (rounds : ℕ) (ofs : List UInt8) : Except Fault FlowStats := do
  let length ← u16 ofs 0
  -- a shorter record makes `new uint8_t[ntohs(ofs->length) - sizeof *ofs]` ask for almost `2 ^ 64`
  if length < 88 then .error .allocation
  else do
    let raw ← bytes ofs 0 88
    let actionData ← bytes ofs 88 (length - 88)
    let vActions ← actionLoop rounds (ofs.drop 88) (length - 88)
    return ⟨raw, actionData, vActions⟩

/-- The loop over the records of a flow statistics reply. -/
def flowLoop : ℕ → List UInt8 → ℕ → Except Fault (List FlowStats)
  | 0, _, _ => .error .spin
  | rounds + 1, ofs, flowLen =>
    if flowLen < 88 then .ok []
    else do
      let length ← u16 ofs 0
      if flowLen < length then .ok []
      else do
        let flow ← FlowStats.read rounds ofs
        let flows ← flowLoop rounds (ofs.drop length) (flowLen - length)
        return flow :: flows

/-- The property that is added for one in the message. -/
def readProperty (oqph : List UInt8) (property : ℕ) : Except Fault (List PacketQueueProperty) :=
  if property = 1 then (u16 oqph 8).map fun _rate => [⟨⟩] else .ok []

/-- The loop over the properties of a queue, which goes on while `len >- sizeof *oqph`. -/
def propertyLoop : ℕ → List UInt8 → ℕ → Except Fault (List PacketQueueProperty)
  | 0, _, _ => .error .spin
  | rounds + 1, oqph, len =>
    if len ≤ 2 ^ 64 - 8 then .ok []
    else do
      let length ← u16 oqph 2
      if len < length then .ok []
      else do
        let property ← u16 oqph 0
        let added ← readProperty oqph property
        let properties ← propertyLoop rounds (oqph.drop length) (subSize len length)
        return added ++ properties

/-- `Packet_queue::Packet_queue`; the queue's id, of 32 bits, goes through `ntohll`. -/
def PacketQueue.read (rounds : ℕ) (opq : List UInt8) : Except Fault PacketQueue := do
  let queueId ← bytes opq 0 4
  let len ← u16 opq 4
  let properties ← propertyLoop rounds (opq.drop 8) (subSize len 8)
  return ⟨htonll (le queueId) % 2 ^ 32, len, properties⟩

/-- The loop over the queues of a queue configuration reply. -/
def queueLoop : ℕ → List UInt8 → ℕ → Except Fault (List PacketQueue)
  | 0, _, _ => .error .spin
  | rounds + 1, opq, len =>
    if len < 8 then .ok []
    else do
      let length ← u16 opq 4
      if len < length then .ok []
      else do
        let queue ← PacketQueue.read rounds opq
        let queues ← queueLoop rounds (opq.drop length) (len - length)
        return queue :: queues

/-! ### Management messages -/

/-- A value as an `int`. -/
def asInt (n : ℤ) : ℤ := Int.bmod n (2 ^ 32)

/-- `std::map::insert`: a key that is there keeps its value. -/
def insertNew {α : Type} [DecidableEq α] {β : Type} (m : AList fun _ : α => β) (k : α) (v : β) :
    AList fun _ : α => β :=
  if k ∈ m then m else m.insert k v

/-- An `OFMPTSR_DP` TLV; the terminating zero is written to the message. -/
def Resources.addDp (r : Resources) (ptr : List UInt8) : Except Fault (Resources × List UInt8) := do
  let ptr ← setByte ptr 31 0
  let dpId ← u64 ptr 8
  let name ← cstr ptr 16
  return ({ r with portNameMap := insertNew r.portNameMap dpId name }, ptr)

/-- An `OFMPTSR_DP_UUID` TLV. -/
def Resources.addDpUuid (r : Resources) (ptr : List UInt8) (n : ℕ) : Except Fault Resources := do
  let networks ← array (fun p => bytes p 0 36) 36 n (ptr.drop 16)
  let dpId ← u64 ptr 8
  return { r with netUuidMap := insertNew r.netUuidMap dpId networks }

/-- An `OFMPTSR_MGMT_UUID` TLV. -/
def Resources.addMgmtUuid (r : Resources) (ptr : List UInt8) : Except Fault Resources := do
  let mgmtId ← u64 ptr 8
  let uuid ← bytes ptr 16 36
  return { r with mgmtUuidMap := insertNew r.mgmtUuidMap mgmtId uuid }

/-- An `OFMPTSR_VIF` TLV. -/
def Resources.addVif (r : Resources) (ptr : List UInt8) : Except Fault Resources := do
  let vifUuid ← bytes ptr 20 36
  let vifMac ← u64 ptr 128
  let vmUuid ← bytes ptr 56 36
  let netUuid ← bytes ptr 92 36
  let name ← cstr ptr 4
  return { r with
    vifDetailsMap := insertNew r.vifDetailsMap name ⟨vifUuid, vifMac, vmUuid, netUuid⟩ }

/-- One TLV; `none` where the constructor returns. -/
def resourceTlv (r : Resources) (ptr : List UInt8) (type len : ℕ) :
    Except Fault (Option (Resources × List UInt8)) :=
  if type = 0 then .ok none
  else if type = 1 then
    if len ≠ 32 then .ok none
    else (r.addDp ptr).map some
  else if type = 2 then
    if len < 16 ∨ (len - 16) % 36 ≠ 0 then .ok none
    else (r.addDpUuid ptr ((len - 16) / 36)).map fun r => some (r, ptr)
  else if type = 3 then
    if len ≠ 56 then .ok none
    else (r.addMgmtUuid ptr).map fun r => some (r, ptr)
  else if type = 4 then
    if len ≠ 136 then .ok none
    else (r.addVif ptr).map fun r => some (r, ptr)
  else .ok (some (r, ptr))

/-- The loop over the TLVs.  `data_len` is an `int` and is compared with a `size_t`, so the loop
goes on when it is negative. -/
def tlvLoop : ℕ → List UInt8 → ℤ → Resources → Except Fault Resources
  | 0, _, _, _ => .error .spin
  | rounds + 1, ptr, dataLen, r =>
    if 0 ≤ dataLen ∧ dataLen < 4 then .ok r
    else do
      let len ← u16 ptr 2
      let type ← u16 ptr 0
      match ← resourceTlv r ptr type len with
      | none => return r
      | some (r, ptr) => tlvLoop rounds (ptr.drop len) (asInt (dataLen - len)) r

/-- `Ofmp_resources_update_event::Ofmp_resources_update_event`. -/
def readResources (rounds : ℕ) (oru : List UInt8) (msgLen : ℕ) : Except Fault Resources :=
  let dataLen := asInt (asInt msgLen - 20)
  if dataLen ≤ 0 then .ok ⟨∅, ∅, ∅, ∅⟩
  else tlvLoop rounds (oru.drop 20) dataLen ⟨∅, ∅, ∅, ∅⟩

/-- `handle_ofmp_config_update`. -/
def handleOfmpConfigUpdate (msg : List UInt8) : Except Fault (Option Event) :=
  if msg.length < 44 then .ok none
  else do
    let format ← u32 msg 20
    if format ≠ 0 then return some (.ofmpConfigUpdate format none)
    else do
      let cookie ← bytes msg 24 20
      let data ← bytes msg 44 (msg.length - 44)
      return some (.ofmpConfigUpdate format (some (cookie, data)))

/-- `handle_ofmp_config_update_ack`. -/
def handleOfmpConfigUpdateAck (msg : List UInt8) : Except Fault (Option Event) :=
  if msg.length < 48 then .ok none
  else do
    let format ← u32 msg 20
    let flags ← u32 msg 24
    let xid ← u32 msg 4
    let cookie ← bytes msg 28 20
    return some (.ofmpConfigUpdateAck format flags xid (flags % 2 = 1) cookie)

/-- `handle_ofmp_resources_update`. -/
def handleOfmpResourcesUpdate (rounds : ℕ) (msg : List UInt8) : Except Fault (Option Event) :=
  if msg.length < 20 then .ok none
  else do
    let resources ← readResources rounds msg msg.length
    return some (.ofmpResourcesUpdate resources)

/-- The case of `OFMPT_ERROR`, which is only written to the log. -/
def handleOfmpError (msg : List UInt8) : Except Fault (Option Event) :=
  match tryAt msg 24 with
  | none => .error .null
  | some oem => do
    let _type ← u16 oem 20
    let _code ← u16 oem 22
    return none

/-- The cases of `handle_nx_vendor` other than `OFMPT_EXTENDED_DATA`. -/
def handleOfmp (rounds : ℕ) (msg : List UInt8) (type : ℕ) : Except Fault (Option Event) :=
  if type = 5 then handleOfmpConfigUpdate msg
  else if type = 6 then handleOfmpConfigUpdateAck msg
  else if type = 3 then handleOfmpResourcesUpdate rounds msg
  else if type = 7 then handleOfmpError msg
  else .ok none

/-- The start of `handle_ofmp_extended_data`: the message that the fragment completes, if it is
one to go on with, with the transaction id written to it and a length of zero.  Then the
connection has handed its buffer on. -/
def reassemble (c : Connection) (msg : List UInt8) :
    Except Fault (Option (List UInt8) × Connection) :=
  if msg.length ≤ 24 then .ok (none, c)
  else do
    let xid ← bytes msg 4 4
    match c.extDataBuffer with
    | none => .error .null
    | some buf => do
      let data ← bytes msg 24 (msg.length - 24)
      let whole := buf ++ data
      let flags ← u8 msg 22
      if flags % 2 = 1 then return (none, ⟨xid, some whole⟩)
      else if whole.length < 65536 then return (none, ⟨xid, some whole⟩)
      else do
        let vendor ← u32 whole 8
        let subtype ← u32 whole 12
        let type ← bytes whole 16 2
        -- the type, of 16 bits, is compared with `htonl(OFMPT_EXTENDED_DATA)`
        if vendor ≠ 0x2320 ∨ subtype ≠ 8 ∨ le type = htonl 8 then
          return (none, ⟨xid, some whole⟩)
        else return (some (store (store whole 4 xid) 2 [0, 0]), ⟨xid, none⟩)

/-- The connection after its buffer was reset because the message does not go on with the one that
is collected. -/
def resetExtData (c : Connection) (xid : List UInt8) : Except Fault Connection :=
  if c.extDataXid ≠ xid then
    match c.extDataBuffer with
    | none => .error .null
    | some _ => .ok { c with extDataBuffer := some [] }
  else .ok c

/-- `handle_nx_vendor`, which handles the message that a fragment completes like any other. -/
def handleNxVendor : ℕ → Connection → List UInt8 → Except Fault (Option Event × Connection)
  | 0, _, _ => .error .spin
  | rounds + 1, c, msg =>
    if msg.length < 16 then .ok (none, c)
    else do
      let subtype ← u32 msg 12
      if subtype ≠ 8 then return (none, c)
      else if msg.length < 20 then return (none, c)
      else do
        let xid ← bytes msg 4 4
        let c ← resetExtData c xid
        let type ← u16 msg 16
        if type = 8 then do
          let (whole?, c) ← reassemble c msg
          match whole? with
          | none => return (none, c)
          | some whole => do
            let (event, c) ← handleNxVendor rounds c whole
            return (event, { c with extDataBuffer := some [] })
        else do
          let event ← handleOfmp rounds msg type
          return (event, c)

/-! ### Statistics replies -/

/-- `handle_stats_aggregate_reply`; `len` is the length in the header, and the body starts at the
twelfth byte. -/
def handleStatsAggregateReply (msg : List UInt8) (len : ℕ) : Except Fault (Option Event) :=
  if subSize len 12 ≠ 24 then .ok none
  else do
    let packetCount ← u64 msg 12
    let byteCount ← u64 msg 20
    let flowCount ← u32 msg 28
    return some (.aggregateStatsIn packetCount byteCount flowCount)

/-- `handle_stats_table_reply`. -/
def handleStatsTableReply (msg : List UInt8) (len : ℕ) : Except Fault (Option Event) :=
  if subSize len 12 % 64 ≠ 0 then .ok none
  else do
    let tables ← array TableStats.read 64 (subSize len 12 / 64) (msg.drop 12)
    return some (.tableStatsIn tables)

/-- `handle_stats_port_reply`. -/
def handleStatsPortReply (msg : List UInt8) (len : ℕ) : Except Fault (Option Event) :=
  if subSize len 12 % 104 ≠ 0 then .ok none
  else do
    let ports ← array PortStats.read 104 (subSize len 12 / 104) (msg.drop 12)
    return some (.portStatsIn ports)

/-- `handle_stats_desc_reply`. -/
def handleStatsDescReply (msg : List UInt8) (len : ℕ) : Except Fault (Option Event) :=
  if subSize len 12 ≠ 1056 then .ok none
  else do
    let mfrDesc ← cstr msg 12
    let hwDesc ← cstr msg 268
    let swDesc ← cstr msg 524
    let dpDesc ← cstr msg 812
    let serialNum ← cstr msg 780
    return some (.descStatsIn mfrDesc hwDesc swDesc dpDesc serialNum)

/-- `handle_stats_flow_reply`, where `len` is an `int`. -/
def handleStatsFlowReply (rounds : ℕ) (msg : List UInt8) (len : ℕ) : Except Fault (Option Event) :=
  if len < 12 then .ok none
  else do
    let flags ← u16 msg 10
    let flows ← flowLoop rounds (msg.drop 12) (subSize len 12)
    return some (.flowStatsIn (flags % 2 = 1) flows)

/-- `handle_stats_queue_reply`. -/
def handleStatsQueueReply (msg : List UInt8) (len : ℕ) : Except Fault (Option Event) := do
  let queues ← array QueueStats.read 32 (subSize len 12 / 32) (msg.drop 12)
  return some (.queueStatsIn queues)

/-- `handle_stats_reply`. -/
def handleStatsReply (rounds : ℕ) (msg : List UInt8) : Except Fault (Option Event) := do
  let type ← u16 msg 8
  let len ← u16 msg 2
  if type = 0 then handleStatsDescReply msg len
  else if type = 3 then handleStatsTableReply msg len
  else if type = 4 then handleStatsPortReply msg len
  else if type = 2 then handleStatsAggregateReply msg len
  else if type = 1 then handleStatsFlowReply rounds msg len
  else if type = 5 then handleStatsQueueReply msg len
  else return none

/-! ### The other messages -/

/-- `handle_packet_in`. -/
def handlePacketIn (msg : List UInt8) : Except Fault (Option Event) := do
  let packet ← pull msg 18
  let inPort ← u16 msg 14
  let totalLen ← u16 msg 12
  let bufferId ← u32 msg 8
  let reason ← u8 msg 16
  let flow ← Flow.ofPacket inPort packet 0
  return some (.packetIn inPort totalLen bufferId reason flow packet)

/-- `handle_flow_removed`. -/
def handleFlowRemoved (msg : List UInt8) : Except Fault (Option Event) := do
  let priority ← u16 msg 56
  let reason ← u8 msg 58
  let cookie ← u64 msg 48
  let durationSec ← u32 msg 60
  let durationNsec ← u32 msg 64
  let idleTimeout ← u16 msg 68
  let packetCount ← u64 msg 72
  let byteCount ← u64 msg 80
  return some (.flowRemoved priority reason cookie durationSec durationNsec idleTimeout
    packetCount byteCount)

/-- `handle_queue_config_reply`. -/
def handleQueueConfigReply (rounds : ℕ) (msg : List UInt8) : Except Fault (Option Event) := do
  let port ← u16 msg 8
  let len ← u16 msg 2
  let queues ← queueLoop rounds (msg.drop 16) (subSize len 16)
  return some (.queueConfigIn port queues)

/-- `handle_port_status`. -/
def handlePortStatus (msg : List UInt8) : Except Fault (Option Event) := do
  let reason ← u8 msg 8
  let port ← Port.read (msg.drop 16)
  return some (.portStatus reason port)

/-- `handle_vendor`. -/
def handleVendor (rounds : ℕ) (c : Connection) (msg : List UInt8) :
    Except Fault (Option Event × Connection) := do
  let vendor ← u32 msg 8
  if vendor = 0x2320 then handleNxVendor rounds c msg else return (none, c)

/-- `handle_error`. -/
def handleError (msg : List UInt8) : Except Fault (Option Event) := do
  let type ← u16 msg 8
  let code ← u16 msg 10
  return some (.error type code)

/-- `openflow_packet_to_event`; loops and nested messages end after the given rounds at most. -/
def openflowPacketToEvent (rounds : ℕ) (c : Connection) (msg : List UInt8) :
    Except Fault (Option Event × Connection) :=
  if msg.length < 8 then .ok (none, c)
  else do
    let version ← u8 msg 0
    if version ≠ 1 then return (none, c)
    else do
      let type ← u8 msg 1
      if type = 10 then (handlePacketIn msg).map (·, c)
      else if type = 11 then (handleFlowRemoved msg).map (·, c)
      else if type = 21 then (handleQueueConfigReply rounds msg).map (·, c)
      else if type = 12 then (handlePortStatus msg).map (·, c)
      -- `handle_features_reply` reads nothing
      else if type = 6 then return (none, c)
      else if type = 17 then (handleStatsReply rounds msg).map (·, c)
      else if type = 19 then return (some .barrierReply, c)
      else if type = 2 then do
        let buf ← pull msg 8
        return (some (.echoRequest buf), c)
      else if type = 4 then handleVendor rounds c msg
      else if type = 3 then return (none, c)
      else if type = 1 then (handleError msg).map (·, c)
      else return (none, c)

end NoxClassic.Openflow.Message
