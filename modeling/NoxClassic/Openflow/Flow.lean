/-
# The flow of a packet

`Flow::Flow(uint16_t, const Buffer&, uint64_t)` (`src/lib/flow.cc`): the header
fields of an Ethernet frame, taken from a buffer that may end anywhere.  The
buffer is cut from the front, header by header; a header that is not there
leaves its fields at zero.  Addresses and ports are kept by the source in network
order; here they are the numbers.  The text of the log messages is left out.
-/

import NoxClassic.Lib.Reader

namespace NoxClassic.Openflow

open Lib

/-- `Flow`. -/
structure Flow where
  invalid : Bool
  inPort : ℕ
  dlVlan : ℕ
  dlVlanPcp : ℕ
  dlSrc : List UInt8
  dlDst : List UInt8
  dlType : ℕ
  nwSrc : ℕ
  nwDst : ℕ
  nwProto : ℕ
  nwTos : ℕ
  tpSrc : ℕ
  tpDst : ℕ
  cookie : ℕ
  deriving DecidableEq, Repr

namespace Flow

/-- The fields before the packet is looked at. -/
def blank (inPort cookie : ℕ) : Flow where
  invalid := false
  inPort := inPort
  dlVlan := 0xffff
  dlVlanPcp := 0
  dlSrc := List.replicate 6 0
  dlDst := List.replicate 6 0
  dlType := 0
  nwSrc := 0
  nwDst := 0
  nwProto := 0
  nwTos := 0
  tpSrc := 0
  tpDst := 0
  cookie := cookie

/-- `pull_ip`. -/
def pullIp (b : List UInt8) : Except Fault (Option (List UInt8 × List UInt8)) :=
  match tryAt b 20 with
  | none => .ok none
  | some ip => do
    let ihlVer ← u8 ip 0
    let ipLen := ihlVer % 16 * 4
    return if 20 ≤ ipLen then tryPull b ipLen else none

/-- `pull_tcp`. -/
def pullTcp (b : List UInt8) : Except Fault (Option (List UInt8 × List UInt8)) :=
  match tryAt b 20 with
  | none => .ok none
  | some tcp => do
    let ctl ← u16 tcp 12
    let tcpLen := ctl / 2 ^ 12 * 4
    return if 20 ≤ tcpLen then tryPull b tcpLen else none

/-- The type of the frame and what follows its header, for Ethernet II and for 802.2 frames;
`none` where an 802.2 frame ends too early. -/
def linkType (eth b : List UInt8) : Except Fault (Option (ℕ × List UInt8)) := do
  let ethType ← u16 eth 12
  if 0x0600 ≤ ethType then
    return some (ethType, b)
  else
    match tryAt b 8 with
    | none => return none
    | some h => do
      let llc ← bytes h 0 3
      let org ← bytes h 3 3
      if llc = [0xaa, 0xaa, 3] ∧ org = [0, 0, 0] then
        let snapType ← u16 h 6
        let b ← pull b 8
        return some (snapType, b)
      else
        let b ← pull b 3
        return some (0x05ff, b)

/-- The VLAN tag, if the frame has one. -/
def vlanTag (f : Flow) (b : List UInt8) : Except Fault (Flow × List UInt8) :=
  if f.dlType = 0x8100 then
    match tryPull b 4 with
    | none => .ok (f, b)
    | some (vh, b) => do
      let tci ← u16 vh 0
      let nextType ← u16 vh 2
      return ({ f with dlType := nextType, dlVlan := tci % 2 ^ 12, dlVlanPcp := tci / 2 ^ 13 }, b)
  else .ok (f, b)

/-- The ports of TCP and UDP, and the type and code of ICMP. -/
def transport (f : Flow) (b : List UInt8) : Except Fault Flow :=
  if f.nwProto = 6 then do
    match ← pullTcp b with
    | none => return { f with invalid := true }
    | some (tcp, _) => do
      let src ← u16 tcp 0
      let dst ← u16 tcp 2
      return { f with tpSrc := src, tpDst := dst }
  else if f.nwProto = 17 then
    match tryPull b 8 with
    | none => .ok { f with invalid := true }
    | some (udp, _) => do
      let src ← u16 udp 0
      let dst ← u16 udp 2
      return { f with tpSrc := src, tpDst := dst }
  else if f.nwProto = 1 then
    match tryPull b 4 with
    | none => .ok { f with invalid := true }
    | some (icmp, _) => do
      let type ← u8 icmp 0
      let code ← u8 icmp 1
      return { f with tpSrc := type, tpDst := code }
  else .ok f

/-- The fields of the IP header and of what follows it. -/
def network (f : Flow) (b : List UInt8) : Except Fault Flow := do
  match ← pullIp b with
  | none => return f
  | some (ip, b) => do
    let nwSrc ← u32 ip 12
    let nwDst ← u32 ip 16
    let nwProto ← u8 ip 9
    let nwTos ← u8 ip 1
    let f := { f with nwSrc := nwSrc, nwDst := nwDst, nwProto := nwProto, nwTos := nwTos }
    let fragOff ← u16 ip 6
    -- `is_fragment`: more fragments, or an offset
    if fragOff % 2 ^ 14 = 0 then f.transport b else return f

/-- The fields of an ARP packet. -/
def arp (f : Flow) (b : List UInt8) : Except Fault Flow :=
  match tryPull b 28 with
  | none => .ok f
  | some (arp, _) => do
    let pro ← u16 arp 2
    let pln ← u8 arp 5
    let op ← u16 arp 6
    if pro = 0x0800 ∧ pln = 4 then
      let spa ← u32 arp 14
      let tpa ← u32 arp 24
      return { f with nwSrc := spa, nwDst := tpa, nwProto := op % 256 }
    else return { f with nwProto := op % 256 }

/-- The fields of a frame whose Ethernet header is `eth`, followed by `b`. -/
def ethernet (f : Flow) (eth b : List UInt8) : Except Fault Flow := do
  match ← linkType eth b with
  | none => return f
  | some (dlType, b) => do
    let (f, b) ← vlanTag { f with dlType := dlType } b
    let dlSrc ← bytes eth 6 6
    let dlDst ← bytes eth 0 6
    let f := { f with dlSrc := dlSrc, dlDst := dlDst }
    if f.dlType = 0x0800 then f.network b
    else if f.dlType = 0x0806 then f.arp b
    else return f

/-- The fields of a packet, if it has an Ethernet header. -/
def headers (f : Flow) (buffer : List UInt8) : Except Fault Flow :=
  match tryPull buffer 14 with
  | none => .ok f
  | some (eth, b) => f.ethernet eth b

/-- The constructor from a packet. -/
def ofPacket (inPort : ℕ) (buffer : List UInt8) (cookie : ℕ) : Except Fault Flow := do
  let f ← (blank inPort cookie).headers buffer
  return if buffer.length < 14 then { f with invalid := true } else f

/-! ### The constructor stays inside the buffer -/

variable {f : Flow} {b : List UInt8}

/-- The header that was pulled, if there is one, has its fixed part. -/
def Pulled (r : Option (List UInt8 × List UInt8)) : Prop :=
  ∀ h rest, r = some (h, rest) → 20 ≤ h.length

theorem pulled_tryPull (h : 20 ≤ b.length) (n : ℕ) :
    Pulled (if 20 ≤ n then tryPull b n else none) := by
  intro p rest hr
  unfold tryPull at hr
  split_ifs at hr with h20 hle
  obtain ⟨rfl, -⟩ := Prod.mk.inj (Option.some.inj hr)
  exact h

theorem yields_pullIp : Yields (pullIp b) Pulled := by
  unfold pullIp tryAt
  split_ifs with h
  · simp only [u8_of_le (show 0 + 1 ≤ b.length by omega), ok_bind]
    exact .ok (pulled_tryPull h _)
  · exact .ok nofun

theorem yields_pullTcp : Yields (pullTcp b) Pulled := by
  unfold pullTcp tryAt
  split_ifs with h
  · simp only [u16_of_le (show 12 + 2 ≤ b.length by omega), ok_bind]
    exact .ok (pulled_tryPull h _)
  · exact .ok nofun

theorem yields_linkType {eth : List UInt8} (h : 14 ≤ eth.length) : Safe (linkType eth b) := by
  unfold linkType tryAt
  simp (disch := omega) only [u16_of_le, ok_bind]
  split_ifs with htype hb
  · exact .safe
  · simp (disch := omega) only [bytes_of_le, u16_of_le, pull_of_le, ok_bind]
    split_ifs <;> exact .safe
  · exact .safe

theorem yields_vlanTag : Safe (vlanTag f b) := by
  unfold vlanTag tryPull
  split_ifs with htype hb
  · simp (disch := omega) only [u16_of_le, ok_bind]
    exact .safe
  all_goals exact .safe

theorem yields_transport : Safe (f.transport b) := by
  unfold transport
  split_ifs with htcp hudp hicmp
  · refine yields_pullTcp.bind fun r hr => ?_
    rcases r with _ | ⟨tcp, rest⟩
    · exact .safe
    · have := hr tcp rest rfl
      simp (disch := omega) only [u16_of_le, ok_bind]
      exact .safe
  · unfold tryPull
    split_ifs with hb
    · simp (disch := omega) only [u16_of_le, ok_bind]
      exact .safe
    · exact .safe
  · unfold tryPull
    split_ifs with hb
    · simp (disch := omega) only [u8_of_le, ok_bind]
      exact .safe
    · exact .safe
  · exact .safe

theorem yields_network : Safe (f.network b) := by
  refine yields_pullIp.bind fun r hr => ?_
  rcases r with _ | ⟨ip, rest⟩
  · exact .safe
  · have := hr ip rest rfl
    simp (disch := omega) only [u8_of_le, u16_of_le, u32_of_le, ok_bind]
    split_ifs
    · exact yields_transport
    · exact .safe

theorem yields_arp : Safe (f.arp b) := by
  unfold arp tryPull
  split_ifs with hb
  · simp (disch := omega) only [u8_of_le, u16_of_le, u32_of_le, ok_bind]
    split_ifs <;> exact .safe
  · exact .safe

theorem yields_ethernet {eth : List UInt8} (h : 14 ≤ eth.length) : Safe (f.ethernet eth b) := by
  refine (yields_linkType h).bind fun r _ => ?_
  rcases r with _ | ⟨dlType, b⟩
  · exact .safe
  refine yields_vlanTag.bind fun fb _ => ?_
  simp (disch := omega) only [bytes_of_le, ok_bind]
  split_ifs
  · exact yields_network
  · exact yields_arp
  · exact .safe

/-- **The constructor reads no byte beyond the buffer**, whatever the packet is. -/
theorem yields_ofPacket (inPort : ℕ) (buffer : List UInt8) (cookie : ℕ) :
    Safe (ofPacket inPort buffer cookie) := by
  refine Yields.bind (Q := fun _ => True) ?_ fun f _ => .safe
  unfold headers tryPull
  split_ifs with hb
  · exact yields_ethernet hb
  · exact .safe

end Flow

end NoxClassic.Openflow
