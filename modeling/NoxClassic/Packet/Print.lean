/-
# The Python packet library: printing

`tostring` of an object is its header, `hdr`, and the string of the objects behind it.
Each class writes the fields that its `parse` has read, with `struct.pack`, which raises
an exception for a value that does not fit its format.  A class that does not define
`hdr` has an empty header (`dns`).

`ipv4.hdr` computes the checksum from the fields and writes it instead of the one that
was read.  The host is one that keeps the low byte of a word first.

The frames of the stack are not counted here: printing takes one for each header, where
constructing takes two.
-/

import NoxClassic.Lib.OnesComplement
import NoxClassic.Packet.Model

namespace NoxClassic.Packet

open Lib

/-- `struct.pack` with a format of numbers. -/
def packed (fs : List (ℕ × ℕ)) : Except Exn Bytes :=
  match pack fs with
  | some b => .ok b
  | none => .error .structError

/-- The format of a string of `n` bytes: a longer string is cut off, a shorter one is filled. -/
def padTo (n : ℕ) (b : Bytes) : Bytes := b.take n ++ List.replicate (n - b.length) 0

/-- The strings that a loop appends. -/
def joined {α : Type} (toBytes : α → Except Exn Bytes) : List α → Except Exn Bytes
  | [] => .ok []
  | x :: xs => do
    let b ← toBytes x
    let rest ← joined toBytes xs
    return b ++ rest

/-- `checksum` of `packet_utils`, of all words. -/
def checksum (data : Bytes) : ℕ := swap16 (65535 - fold (sumLe data))

/-- `ethernet.hdr`. -/
def ethernetHdr (f : Ethernet) : Except Exn Bytes := do
  let t ← packed [(2, f.type)]
  return padTo 6 f.dst ++ padTo 6 f.src ++ t

/-- `vlan.hdr`; `c` is the bit as it stood in the word, and is shifted once more. -/
def vlanHdr (f : Vlan) : Except Exn Bytes :=
  match f.c with
  | none => .error .attributeError
  | some c => packed [(2, f.pcp <<< 13 ||| c <<< 12 ||| f.id), (2, f.ethType)]

/-- `arp.hdr`. -/
def arpHdr (f : Arp) : Except Exn Bytes := do
  let buf ← packed [(2, f.hwtype), (2, f.prototype), (1, f.hwlen), (1, f.protolen), (2, f.opcode)]
  let protosrc ← packed [(4, f.protosrc)]
  let protodst ← packed [(4, f.protodst)]
  return buf ++ f.hwsrc ++ protosrc ++ f.hwdst ++ protodst

/-- The header that `ipv4.checksum` and `ipv4.hdr` write, with a checksum. -/
def ipv4Bytes (f : Ipv4) (csum : ℕ) : Except Exn Bytes :=
  packed [(1, (f.v <<< 4) + f.hl), (1, f.tos), (2, f.iplen), (2, f.id),
    (2, f.flags <<< 13 ||| f.frag), (1, f.ttl), (1, f.protocol), (2, csum), (4, f.srcip),
    (4, f.dstip)]

/-- `ipv4.hdr`. -/
def ipv4Hdr (f : Ipv4) : Except Exn Bytes := do
  let data ← ipv4Bytes f 0
  ipv4Bytes f (checksum data)

/-- `tcp_opt.to_bytes`; the class has no method `msg`. -/
def tcpOptBytes (opt : TcpOpt) : Except Exn Bytes :=
  if opt.type = 0 ∨ opt.type = 1 then packed [(1, opt.type)]
  else if opt.type = 2 then
    match opt.val with
    | .int n => packed [(1, 2), (1, 4), (2, n)]
    | .none | .tuple _ | .pair _ _ | .bytes _ => .error .structError
  else if opt.type = 3 then
    match opt.val with
    | .int n => packed [(1, 3), (1, 3), (1, n)]
    | .none | .tuple _ | .pair _ _ | .bytes _ => .error .structError
  else if opt.type = 4 then packed [(1, 4), (1, 2)]
  else if opt.type = 8 then
    match opt.val with
    | .pair m n => packed [(1, 8), (1, 10), (4, m), (4, n)]
    | .bytes b => do
      let m ← item b 0
      let n ← item b 1
      packed [(1, 8), (1, 10), (4, m), (4, n)]
    | .tuple _ => .error .indexError
    | .none | .int _ => .error .typeError
  else .error .attributeError

/-- `tcp.hdr`. -/
def tcpHdr (f : Tcp) : Except Exn Bytes := do
  let packet ← packed [(2, f.srcport), (2, f.dstport), (4, f.seq), (4, f.ack),
    (1, f.off <<< 4 ||| f.res), (1, f.flags), (2, f.win), (2, f.csum), (2, f.urg)]
  let options ← joined tcpOptBytes f.options
  return packet ++ options

/-- `dhcp.hdr`; what `parse` did not reach is no attribute of the object. -/
def dhcpHdr (d : Dhcp) : Except Exn Bytes :=
  match d.options, d.fixed with
  | some options, some f => do
    let buf ← packed [(1, f.op), (1, f.htype), (1, f.hlen), (1, f.hops), (4, f.xid), (2, f.secs),
      (2, f.flags), (4, f.ciaddr), (4, f.yiaddr), (4, f.siaddr), (4, f.giaddr)]
    return buf ++ padTo 16 f.chaddr ++ padTo 64 f.sname ++ padTo 128 f.file ++ padTo 4 f.magic ++
      options
  | none, _ => .error .attributeError
  | some _, none => .error .attributeError

/-- `tostring` of the TLVs that name something. -/
def idTlvBytes (type strlen subtype : ℕ) (id : Bytes) : Except Exn Bytes := do
  let buf ← packed [(2, type <<< 9 ||| (strlen &&& 0x01ff)), (1, subtype)]
  return buf ++ padTo (strlen - 1) id

/-- `tostring` of a TLV. -/
def tlvBytes : Tlv → Except Exn Bytes
  | .chassisId strlen subtype id => idTlvBytes 1 strlen subtype id
  | .portId strlen subtype id => idTlvBytes 2 strlen subtype id
  | .ttl strlen ttl => packed [(2, 3 <<< 9 ||| (strlen &&& 0x01ff)), (2, ttl)]
  | .endTlv strlen => packed [(2, 0 <<< 9 ||| (strlen &&& 0x01ff))]
  | .unknown type len next => do
    let buf ← packed [(2, type <<< 9 ||| (len &&& 0x01ff))]
    return buf ++ next

/-- `hdr` of a class. -/
def hdr : Header → Except Exn Bytes
  | .ethernet f => ethernetHdr f
  | .vlan f => vlanHdr f
  | .arp f => arpHdr f
  | .ipv4 f => ipv4Hdr f
  | .tcp f => tcpHdr f
  | .udp f => packed [(2, f.srcport), (2, f.dstport), (2, f.len), (2, f.csum)]
  | .icmp f => packed [(1, f.type), (1, f.code), (2, f.csum)]
  | .echo f => packed [(2, f.id), (2, f.seq)]
  | .unreach f => packed [(2, f.unused), (2, f.nextMtu)]
  | .dhcp f => dhcpHdr f
  | .dns _ => .ok []
  | .lldp tlvs => joined tlvBytes tlvs
  | .eapol f => packed [(1, f.version), (1, f.type), (2, f.bodylen)]
  | .eap f => packed [(1, f.code), (1, f.id), (2, f.length)]

/-- `tostring` of an object, and what `tostring` of the object before it appends. -/
def tostring : Payload → Except Exn Bytes
  | .none => .ok []
  | .str b => .ok b
  | .obj _ h next => do
    let buf ← hdr h
    let rest ← tostring next
    return buf ++ rest

end NoxClassic.Packet
