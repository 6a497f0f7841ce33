/-
# The Python packet library: parsing

A packet is a chain of objects, one for each header.  The constructor of a class keeps
the bytes it was given and calls `parse`, which reads the fields of the header, and
hands the bytes behind the header to the constructor of another class:

| class | hands on to |
|---|---|
| `ethernet`, `vlan` | `vlan`, `arp`, `ipv4`, `lldp`, `eapol`, by the type |
| `ipv4` | `udp`, `tcp`, `icmp`, by the protocol |
| `udp` | `dhcp`, `dns`, by the ports |
| `icmp` | `echo`, `unreach`, by the type |
| `unreach` | `ipv4` |
| `eapol` | `eap` |

Everything else is kept as a string, or is dropped.  An object that could not be parsed
has `parsed` unset, and the fields that were read up to there.

An exception (`Exn`) ends the construction unless a `try` catches it.  Every call takes
a frame of the interpreter's stack, and a call for which there is no frame left raises a
`RuntimeError`; so `construct` is given the number of frames that are left.  The frames
of the logging functions are not counted.  A loop of the source is given more rounds
than it can take, and `spin`, which is no exception, says that it went on after them.

The interpreter is one in which `struct` refuses values that do not fit their format.
-/

import NoxClassic.Lib.Struct

namespace NoxClassic.Packet

open Lib

/-! ### The interpreter -/

abbrev Bytes := List UInt8

/-- What ends a computation. -/
inductive Exn where
  | structError
  | indexError
  | attributeError
  | typeError
  | assertionError
  | runtimeError
  /-- An `Exception` that the library raises itself. -/
  | exception
  /-- The loop goes on after the rounds it was given. -/
  | spin
  deriving DecidableEq, Repr

/-- What a constructor reads that is not in the packet: `time.time` and `random.randint`. -/
structure Env where
  time : ℕ
  random : ℕ

/-- A call, with the frames that are left. -/
def call {α : Type} (frames : ℕ) (f : ℕ → Except Exn α) : Except Exn α :=
  match frames with
  | 0 => .error .runtimeError
  | d + 1 => f d

/-- `arr[i]`. -/
def item (arr : Bytes) (i : ℕ) : Except Exn ℕ :=
  match arr[i]? with
  | some x => .ok x.toNat
  | none => .error .indexError

/-- `struct.unpack` with a format of `n` bytes; its fields are read with `field`. -/
def unpack (n : ℕ) (b : Bytes) : Except Exn Bytes :=
  if b.length = n then .ok b else .error .structError

def assert (c : Prop) [Decidable c] : Except Exn Unit :=
  if c then .ok () else .error .assertionError

/-! ### The objects -/

/-- The classes. -/
inductive Proto where
  | ethernet | vlan | arp | ipv4 | tcp | udp | icmp | echo | unreach | dhcp | dns | lldp | eapol
  | eap
  deriving DecidableEq, Repr

structure Ethernet where
  dst : Bytes
  src : Bytes
  type : ℕ
  deriving DecidableEq, Repr

structure Vlan where
  pcp : ℕ
  /-- Not set before the header is parsed. -/
  c : Option ℕ
  id : ℕ
  ethType : ℕ
  deriving DecidableEq, Repr

structure Arp where
  hwtype : ℕ
  prototype : ℕ
  hwlen : ℕ
  protolen : ℕ
  opcode : ℕ
  hwsrc : Bytes
  protosrc : ℕ
  hwdst : Bytes
  protodst : ℕ
  deriving DecidableEq, Repr

structure Ipv4 where
  v : ℕ
  hl : ℕ
  tos : ℕ
  iplen : ℕ
  id : ℕ
  flags : ℕ
  frag : ℕ
  ttl : ℕ
  protocol : ℕ
  csum : ℕ
  srcip : ℕ
  dstip : ℕ
  deriving DecidableEq, Repr

/-- The value of a TCP option. -/
inductive OptVal where
  | none
  | int (n : ℕ)
  /-- What `struct.unpack` of one field gives. -/
  | tuple (n : ℕ)
  | pair (m n : ℕ)
  | bytes (b : Bytes)
  deriving DecidableEq, Repr

structure TcpOpt where
  type : ℕ
  val : OptVal
  deriving DecidableEq, Repr

structure Tcp where
  srcport : ℕ
  dstport : ℕ
  seq : ℕ
  ack : ℕ
  off : ℕ
  res : ℕ
  flags : ℕ
  win : ℕ
  csum : ℕ
  urg : ℕ
  options : List TcpOpt
  deriving DecidableEq, Repr

structure Udp where
  srcport : ℕ
  dstport : ℕ
  len : ℕ
  csum : ℕ
  payload : Bytes
  deriving DecidableEq, Repr

structure Icmp where
  type : ℕ
  code : ℕ
  csum : ℕ
  deriving DecidableEq, Repr

structure Echo where
  id : ℕ
  seq : ℕ
  deriving DecidableEq, Repr

structure Unreach where
  unused : ℕ
  nextMtu : ℕ
  deriving DecidableEq, Repr

/-- The fields of a DHCP message before its options. -/
structure DhcpFixed where
  op : ℕ
  htype : ℕ
  hlen : ℕ
  hops : ℕ
  xid : ℕ
  secs : ℕ
  flags : ℕ
  ciaddr : ℕ
  yiaddr : ℕ
  siaddr : ℕ
  giaddr : ℕ
  chaddr : Bytes
  sname : Bytes
  file : Bytes
  magic : Bytes
  deriving DecidableEq, Repr

/-- A DHCP message; what was not reached is not set. -/
structure Dhcp where
  fixed : Option DhcpFixed
  options : Option Bytes
  parsedOptions : List (ℕ × Bytes)
  deriving DecidableEq, Repr

structure Question where
  name : Bytes
  qtype : ℕ
  qclass : ℕ
  deriving DecidableEq, Repr

/-- The data of a resource record: an address, a name or the bytes. -/
inductive Rddata where
  | addr (b : Bytes)
  | name (b : Bytes)
  | bytes (b : Bytes)
  deriving DecidableEq, Repr

structure Rr where
  name : Bytes
  qtype : ℕ
  qclass : ℕ
  ttl : ℕ
  rdlen : ℕ
  rddata : Rddata
  deriving DecidableEq, Repr

/-- The flags of a DNS message. -/
structure DnsFlags where
  qr : ℕ
  opcode : ℕ
  aa : ℕ
  tc : ℕ
  rd : ℕ
  ra : ℕ
  z : ℕ
  ad : ℕ
  cd : ℕ
  rcode : ℕ
  deriving DecidableEq, Repr

structure Dns where
  id : ℕ
  flags : DnsFlags
  totalQuestions : ℕ
  totalAnswers : ℕ
  totalAuthRr : ℕ
  totalAddRr : ℕ
  questions : List Question
  answers : List Rr
  authorities : List Rr
  additional : List Rr
  deriving DecidableEq, Repr

inductive Tlv where
  | chassisId (strlen subtype : ℕ) (id : Bytes)
  | portId (strlen subtype : ℕ) (id : Bytes)
  | ttl (strlen ttl : ℕ)
  | endTlv (strlen : ℕ)
  | unknown (type len : ℕ) (next : Bytes)
  deriving DecidableEq, Repr

def Tlv.type : Tlv → ℕ
  | .chassisId .. => 1
  | .portId .. => 2
  | .ttl .. => 3
  | .endTlv .. => 0
  | .unknown type .. => type

structure Eapol where
  version : ℕ
  type : ℕ
  bodylen : ℕ
  deriving DecidableEq, Repr

structure Eap where
  code : ℕ
  id : ℕ
  length : ℕ
  type : Option ℕ
  deriving DecidableEq, Repr

/-- The fields of an object. -/
inductive Header where
  | ethernet (f : Ethernet)
  | vlan (f : Vlan)
  | arp (f : Arp)
  | ipv4 (f : Ipv4)
  | tcp (f : Tcp)
  | udp (f : Udp)
  | icmp (f : Icmp)
  | echo (f : Echo)
  | unreach (f : Unreach)
  | dhcp (f : Dhcp)
  | dns (f : Dns)
  | lldp (tlvs : List Tlv)
  | eapol (f : Eapol)
  | eap (f : Eap)
  deriving DecidableEq, Repr

/-- What `next` can be: `None`, a string or an object. -/
inductive Payload where
  | none
  | str (b : Bytes)
  | obj (parsed : Bool) (header : Header) (next : Payload)
  deriving DecidableEq, Repr

/-- `isinstance(self.next, packet_base) and not self.next.parsed`. -/
def Payload.isUnparsed : Payload → Bool
  | .obj parsed _ _ => !parsed
  | .none | .str _ => false

/-! ### Link layer -/

/-- `ethernet.type_parsers`. -/
def typeParsers (type : ℕ) : Option Proto :=
  if type = 0x8100 then some .vlan
  else if type = 0x0806 then some .arp
  else if type = 0x8035 then some .arp
  else if type = 0x0800 then some .ipv4
  else if type = 0x88cc then some .lldp
  else if type = 0x888e then some .eapol
  else none

def etherAny : Bytes := List.replicate 6 0

section Parse

variable (make : Proto → Bytes → Except Exn Payload)

/-- `ethernet.parse`. -/
def ethernetParse (arr : Bytes) : Except Exn Payload :=
  if arr.length < 14 then .ok (.obj false (.ethernet ⟨etherAny, etherAny, 0⟩) (.str []))
  else do
    let t ← unpack 2 (slice arr 12 14)
    let type := field t 0 2
    let h := Header.ethernet ⟨slice arr 0 6, slice arr 6 12, type⟩
    match typeParsers type with
    | some p => do
      let next ← make p (arr.drop 14)
      return .obj true h next
    | none => return .obj true h (.str (arr.drop 14))

/-- `vlan.parse`. -/
def vlanParse (arr : Bytes) : Except Exn Payload :=
  if arr.length < 4 then .ok (.obj false (.vlan ⟨0, none, 0, 0⟩) .none)
  else do
    let f ← unpack 4 (slice arr 0 4)
    let pcpid := field f 0 2
    let ethType := field f 2 2
    let h := Header.vlan ⟨pcpid >>> 13, some (pcpid &&& 0x1000), pcpid &&& 0x0fff, ethType⟩
    match typeParsers ethType with
    | some p => do
      let next ← make p (arr.drop 4)
      return .obj true h next
    | none => return .obj true h .none

/-- `arp.parse`; what is not Ethernet and IP is only logged. -/
def arpParse (arr : Bytes) : Except Exn Payload :=
  if arr.length < 28 then
    .ok (.obj false (.arp ⟨1, 0x0800, 0, 0, 0, etherAny, 0, etherAny, 0⟩) (.str []))
  else do
    let f ← unpack 8 (slice arr 0 8)
    let protosrc ← unpack 4 (slice arr 14 18)
    let protodst ← unpack 4 (slice arr 24 28)
    return .obj true
      (.arp ⟨field f 0 2, field f 2 2, field f 4 1, field f 5 1, field f 6 2, slice arr 8 14,
        field protosrc 0 4, slice arr 18 24, field protodst 0 4⟩)
      (.str (arr.drop 28))

/-! ### Network layer -/

/-- The object before the header is parsed. -/
def Ipv4.init (env : Env) : Ipv4 := ⟨4, 5, 0, 20, env.time, 0, 0, 64, 0, 0, 0, 0⟩

/-- The class that `ipv4.parse` hands the payload to. -/
def ipProto (protocol : ℕ) : Option Proto :=
  if protocol = 17 then some .udp
  else if protocol = 6 then some .tcp
  else if protocol = 1 then some .icmp
  else none

/-- The fields of an IPv4 header. -/
def ipv4Fields (f : Bytes) : Ipv4 where
  v := field f 0 1 >>> 4
  hl := field f 0 1 &&& 0x0f
  tos := field f 1 1
  iplen := field f 2 2
  id := field f 4 2
  flags := field f 6 2 >>> 13
  frag := field f 6 2 &&& 0x1f
  ttl := field f 8 1
  protocol := field f 9 1
  csum := field f 10 2
  srcip := field f 12 4
  dstip := field f 16 4

/-- The header is one that `ipv4.parse` does not accept. -/
def Ipv4.Invalid (f : Ipv4) (dlen : ℕ) : Prop :=
  f.v ≠ 4 ∨ f.hl < 5 ∨ f.iplen < 20 ∨ f.iplen ≤ f.hl * 4 ∨ dlen < f.hl * 4

instance (f : Ipv4) (dlen : ℕ) : Decidable (f.Invalid dlen) :=
  inferInstanceAs (Decidable (_ ∨ _))

/-- `ipv4.parse`. -/
def ipv4Parse (env : Env) (arr : Bytes) : Except Exn Payload :=
  if arr.length < 20 then .ok (.obj false (.ipv4 (.init env)) (.str []))
  else do
    let b ← unpack 20 (slice arr 0 20)
    let f := ipv4Fields b
    if f.Invalid arr.length then return .obj false (.ipv4 f) (.str [])
    else
      let length := min f.iplen arr.length
      let data := slice arr (f.hl * 4) length
      match ipProto f.protocol with
      | some p => do
        let next ← make p data
        if next.isUnparsed then return .obj true (.ipv4 f) (.str data)
        else return .obj true (.ipv4 f) next
      | none =>
        if arr.length < f.iplen then return .obj true (.ipv4 f) (.str [])
        else return .obj true (.ipv4 f) (.str data)

/-- `icmp.parse`. -/
def icmpParse (arr : Bytes) : Except Exn Payload :=
  if arr.length < 4 then .ok (.obj false (.icmp ⟨0, 0, 0⟩) .none)
  else do
    let f ← unpack 4 (slice arr 0 4)
    let type := field f 0 1
    let h := Header.icmp ⟨type, field f 1 1, field f 2 2⟩
    if type = 8 ∨ type = 0 then
      let next ← make .echo (arr.drop 4)
      return .obj true h next
    else if type = 3 then
      let next ← make .unreach (arr.drop 4)
      return .obj true h next
    else return .obj true h .none

/-- `echo.parse`. -/
def echoParse (env : Env) (arr : Bytes) : Except Exn Payload :=
  if arr.length < 4 then .ok (.obj false (.echo ⟨env.random, 0⟩) .none)
  else do
    let f ← unpack 4 (slice arr 0 4)
    return .obj true (.echo ⟨field f 0 2, field f 2 2⟩) (.str (arr.drop 4))

/-- `unreach.parse`. -/
def unreachParse (arr : Bytes) : Except Exn Payload :=
  if arr.length < 4 then .ok (.obj false (.unreach ⟨0, 0⟩) .none)
  else do
    let f ← unpack 4 (slice arr 0 4)
    let h := Header.unreach ⟨field f 0 2, field f 2 2⟩
    if 28 ≤ arr.length then
      let next ← make .ipv4 (arr.drop 4)
      return .obj true h next
    else return .obj true h (.str (arr.drop 4))

/-! ### Transport layer -/

/-- `udp.parse`.  The object counts as parsed also when the length is invalid, and the payload of
other ports is not made the payload of the object. -/
def udpParse (arr : Bytes) : Except Exn Payload :=
  if arr.length < 8 then .ok (.obj false (.udp ⟨0, 0, 8, 0, []⟩) .none)
  else do
    let f ← unpack 8 (slice arr 0 8)
    let srcport := field f 0 2
    let dstport := field f 2 2
    let len := field f 4 2
    let u := Udp.mk srcport dstport len (field f 6 2) []
    if len < 8 then return .obj true (.udp u) .none
    else if dstport = 67 ∨ dstport = 68 then
      let next ← make .dhcp (arr.drop 8)
      return .obj true (.udp { u with payload := arr.drop 8 }) next
    else if dstport = 53 ∨ srcport = 53 then
      let next ← make .dns (arr.drop 8)
      return .obj true (.udp { u with payload := arr.drop 8 }) next
    else if arr.length < len then return .obj true (.udp u) .none
    else return .obj true (.udp { u with payload := arr.drop 8 }) .none

end Parse

/-- The value of an option of `tcp.parse_options` that has a length. -/
def tcpOptVal (arr : Bytes) (i type len : ℕ) : Except Exn OptVal :=
  if type = 2 then
    if len ≠ 4 then .error .exception
    else do
      let val ← unpack 2 (slice arr (i + 2) (i + 4))
      return .tuple (field val 0 2)
  else if type = 3 then
    if len ≠ 3 then .error .exception else (item arr (i + 2)).map .int
  else if type = 4 then
    if len ≠ 2 then .error .exception else .ok .none
  else if type = 8 then
    if len ≠ 10 then .error .exception
    else do
      let val ← unpack 8 (slice arr (i + 2) (i + 10))
      return .pair (field val 0 4) (field val 4 4)
  else .ok (.bytes (slice arr (i + 2) (i + 2 + len)))

/-- One option of `tcp.parse_options`: the option, and how far the next one is; `none` at the end
of the list. -/
def tcpOption (arr : Bytes) (i : ℕ) : Except Exn (Option (TcpOpt × ℕ)) := do
  let type ← item arr i
  if type = 0 then return none
  else if type = 1 then return some (⟨1, .none⟩, 1)
  else if arr.length < i + 2 then throw .exception
  else
    let len ← item arr (i + 1)
    if arr.length < type + len ∨ len < 2 then throw .exception
    else
      let val ← tcpOptVal arr i type len
      return some (⟨type, val⟩, len)

/-- The loop of `tcp.parse_options`: the options up to the end, or up to an exception. -/
def parseTcpOptions (arr : Bytes) (hdrLen : ℕ) : ℕ → ℕ → List TcpOpt → List TcpOpt × Option Exn
  | 0, _, options => (options, some .spin)
  | n + 1, i, options =>
    if i < hdrLen then
      match tcpOption arr i with
      | .error e => (options, some e)
      | .ok none => (options, none)
      | .ok (some (opt, len)) => parseTcpOptions arr hdrLen n (i + len) (options ++ [opt])
    else (options, none)

/-- `tcp.parse`; an exception of `parse_options` is caught. -/
def tcpParse (frames : ℕ) (arr : Bytes) : Except Exn Payload :=
  if arr.length < 20 then .ok (.obj false (.tcp ⟨0, 0, 0, 0, 0, 0, 0, 0, 0, 0, []⟩) (.str []))
  else do
    let f ← unpack 20 (slice arr 0 20)
    let offres := field f 12 1
    let off := offres >>> 4
    let t : Tcp := ⟨field f 0 2, field f 2 2, field f 4 4, field f 8 4, off, offres &&& 0x0f,
      field f 13 1, field f 14 2, field f 16 2, field f 18 2, []⟩
    if off * 4 < 20 ∨ arr.length < off * 4 then return .obj false (.tcp t) (.str [])
    else
      match frames with
      | 0 => return .obj false (.tcp t) (.str [])
      | _ + 1 =>
        match parseTcpOptions arr (off * 4) (arr.length + 1) 20 [] with
        | (_, some .spin) => throw .spin
        | (options, some _) => return .obj false (.tcp { t with options := options }) (.str [])
        | (options, none) =>
          return .obj true (.tcp { t with options := options }) (.str (arr.drop (off * 4)))

/-! ### DHCP -/

/-- `dhcp.parseOptionSegment`, from an offset.  The class has no method `info`, which a second
option of the same code calls. -/
def parseOptionSegment (barr : Bytes) :
    ℕ → ℕ → List (ℕ × Bytes) → Except Exn (List (ℕ × Bytes))
  | 0, _, _ => .error .spin
  | n + 1, ofs, options =>
    if ofs < barr.length then do
      let opt ← item barr ofs
      if opt = 255 then return options
      else if opt = 0 then parseOptionSegment barr n (ofs + 1) options
      else if barr.length ≤ ofs + 1 then return options
      else
        let len ← item barr (ofs + 1)
        if barr.length < ofs + 2 + len then return options
        else if (options.lookup opt).isSome then throw .attributeError
        else
          parseOptionSegment barr n (ofs + 2 + len)
            (options ++ [(opt, slice barr (ofs + 2) (ofs + 2 + len))])
    else return options

/-- `dhcp.parseOptions`. -/
def parseDhcpOptions (frames : ℕ) (f : DhcpFixed) (options : Bytes) :
    Except Exn (List (ℕ × Bytes)) := do
  let parsed ← call frames fun _ => parseOptionSegment options (options.length + 1) 0 []
  match parsed.lookup 52 with
  | none => return parsed
  | some val => do
    let len ← item val 0
    if len ≠ 1 then return parsed
    else
      let overload ← item val 1
      let parsed ← if overload = 1 ∨ overload = 3 then
          call frames fun _ => parseOptionSegment f.file (f.file.length + 1) 0 parsed
        else pure parsed
      if overload = 2 ∨ overload = 3 then
        call frames fun _ => parseOptionSegment f.sname (f.sname.length + 1) 0 parsed
      else return parsed

def dhcpMagic : Bytes := [0x63, 0x82, 0x53, 0x63]

/-- The fields of a DHCP message; `file` begins within `sname`. -/
def dhcpFields (arr f : Bytes) : DhcpFixed where
  op := field f 0 1
  htype := field f 1 1
  hlen := field f 2 1
  hops := field f 3 1
  xid := field f 4 4
  secs := field f 8 2
  flags := field f 10 2
  ciaddr := field f 12 4
  yiaddr := field f 16 4
  siaddr := field f 20 4
  giaddr := field f 24 4
  chaddr := slice arr 28 44
  sname := slice arr 44 108
  file := slice arr 102 236
  magic := slice arr 236 240

/-- `dhcp.parse`. -/
def dhcpParse (frames : ℕ) (arr : Bytes) : Except Exn Payload :=
  if arr.length < 240 then .ok (.obj false (.dhcp ⟨none, none, []⟩) .none)
  else do
    let b ← unpack 28 (slice arr 0 28)
    let f := dhcpFields arr b
    if 16 < f.hlen then return .obj true (.dhcp ⟨some f, none, []⟩) .none
    else if f.magic ≠ dhcpMagic then return .obj true (.dhcp ⟨some f, none, []⟩) .none
    else
      let options ← call frames fun d => parseDhcpOptions d f (arr.drop 240)
      return .obj true (.dhcp ⟨some f, some (arr.drop 240), options⟩) .none

/-! ### DNS -/

/-- The loop of `dns._read_dns_name_from_index`, with its call of itself. -/
def nameLoop (arr : Bytes) (again : ℕ → List Bytes → Except Exn (ℕ × List Bytes)) :
    ℕ → ℕ → List Bytes → Except Exn (ℕ × List Bytes)
  | 0, _, _ => .error .spin
  | n + 1, index, retlist => do
    let size ← item arr index
    if size &&& 0xc0 = 0xc0 then
      let low ← item arr (index + 1)
      let (_, retlist) ← again ((size &&& 0x3) <<< 8 ||| low) retlist
      return (index + 1, retlist)
    else if size = 0 then return (index, retlist)
    else
      nameLoop arr again n (index + 1 + size)
        (retlist ++ [slice arr (index + 1) (index + 1 + size)])

/-- `dns._read_dns_name_from_index`. -/
def readLabels (arr : Bytes) : ℕ → ℕ → List Bytes → Except Exn (ℕ × List Bytes)
  | 0, _, _ => .error .runtimeError
  | d + 1, index, retlist => nameLoop arr (readLabels arr d) (arr.length + 1) index retlist

/-- `dns.read_dns_name_from_index`. -/
def readDnsName (frames : ℕ) (arr : Bytes) (index : ℕ) : Except Exn (ℕ × Bytes) :=
  call frames fun d => do
    let (next, retlist) ← readLabels arr d index []
    return (next + 1, [0x2e].intercalate retlist)

/-- `dns.get_rddata`. -/
def getRddata (frames : ℕ) (arr : Bytes) (type dlen beg : ℕ) : Except Exn Rddata :=
  call frames fun d =>
    if arr.length < beg + dlen then .error .exception
    else if type = 1 then
      -- `Exception` does not take the keyword that it is given
      if dlen ≠ 4 then .error .typeError else .ok (.addr (slice arr beg (beg + 4)))
    else if type = 2 ∨ type = 12 then do
      let (_, name) ← readDnsName d arr beg
      return .name name
    else if type = 15 then do
      let (_, name) ← readDnsName d arr (beg + 2)
      return .name name
    else .ok (.bytes (slice arr beg (beg + dlen)))

/-- `dns.next_rr`. -/
def nextRr (frames : ℕ) (arr : Bytes) (index : ℕ) : Except Exn (ℕ × Rr) :=
  call frames fun d =>
    if arr.length < index then .error .exception
    else do
      let (index, name) ← readDnsName d arr index
      if arr.length < index + 10 then throw .exception
      else
        let f ← unpack 10 (slice arr index (index + 10))
        let rdlen := field f 8 2
        if arr.length < index + 10 + rdlen then throw .exception
        else
          let rddata ← getRddata d arr (field f 0 2) rdlen (index + 10)
          return (index + 10 + rdlen, ⟨name, field f 0 2, field f 2 2, field f 4 4, rdlen, rddata⟩)

/-- `dns.next_question`. -/
def nextQuestion (frames : ℕ) (arr : Bytes) (index : ℕ) : Except Exn (ℕ × Question) :=
  call frames fun d => do
    let (index, name) ← readDnsName d arr index
    if arr.length < index + 4 then throw .exception
    else
      let f ← unpack 4 (slice arr index (index + 4))
      return (index + 4, ⟨name, field f 0 2, field f 2 2⟩)

/-- The flags, from the two bytes that hold them. -/
def dnsFlags (bits0 bits1 : ℕ) : DnsFlags where
  qr := if bits0 &&& 0x80 = 0 then 0 else 1
  opcode := (bits0 >>> 4) &&& 0x07
  aa := bits0 &&& 0x04
  tc := bits0 &&& 0x02
  rd := bits0 &&& 0x01
  ra := bits1 &&& 0x80
  z := bits1 &&& 0x40
  ad := bits1 &&& 0x20
  cd := bits1 &&& 0x10
  rcode := bits1 &&& 0x0f

/-- A loop of `dns.parse` over its records: an exception of one record is caught and ends the
parsing. -/
def recordLoop {α : Type} (next : ℕ → Except Exn (ℕ × α)) :
    ℕ → ℕ → List α → Except Exn (Option ℕ × List α)
  | 0, head, acc => .ok (some head, acc)
  | n + 1, head, acc =>
    match next head with
    | .ok (head, x) => recordLoop next n head (acc ++ [x])
    | .error .spin => .error .spin
    | .error _ => .ok (none, acc)

/-- A loop that is not reached after an exception. -/
def thenRecords (frames : ℕ) (arr : Bytes) (n : ℕ) :
    Option ℕ → Except Exn (Option ℕ × List Rr)
  | none => .ok (none, [])
  | some head => recordLoop (nextRr frames arr) n head []

/-- The four lists of records, and where the last one ends; `none` after an exception. -/
structure DnsRecords where
  head : Option ℕ
  questions : List Question
  answers : List Rr
  authorities : List Rr
  additional : List Rr

/-- The loops of `dns.parse` over the records. -/
def dnsRecords (frames : ℕ) (arr f : Bytes) : Except Exn DnsRecords := do
  let (head, questions) ← recordLoop (nextQuestion frames arr) (field f 4 2) 12 []
  let (head, answers) ← thenRecords frames arr (field f 6 2) head
  let (head, authorities) ← thenRecords frames arr (field f 8 2) head
  let (head, additional) ← thenRecords frames arr (field f 10 2) head
  return ⟨head, questions, answers, authorities, additional⟩

/-- `dns.parse`. -/
def dnsParse (frames : ℕ) (arr : Bytes) : Except Exn Payload :=
  if arr.length < 12 then
    .ok (.obj false (.dns ⟨0, ⟨0, 0, 0, 0, 0, 0, 0, 0, 0, 0⟩, 0, 0, 0, 0, [], [], [], []⟩) .none)
  else do
    let f ← unpack 12 (slice arr 0 12)
    let r ← dnsRecords frames arr f
    return .obj r.head.isSome
      (.dns ⟨field f 0 2, dnsFlags (field f 2 1) (field f 3 1), field f 4 2, field f 6 2,
        field f 8 2, field f 10 2, r.questions, r.answers, r.authorities, r.additional⟩) .none

/-! ### LLDP -/

/-- `chassis_id.parse` and `port_id.parse`, which differ in the type. -/
def idTlvParse (type : ℕ) (mk : ℕ → ℕ → Bytes → Tlv) (arr : Bytes) : Except Exn Tlv := do
  let t ← unpack 2 (slice arr 0 2)
  let typelen := field t 0 2
  assert (typelen >>> 9 = type)
  let strlen := typelen &&& 0x01ff
  assert (2 ≤ strlen)
  let s ← unpack 1 (slice arr 2 3)
  return mk strlen (field s 0 1) (arr.drop 3)

/-- `chassis_id.parse`. -/
def chassisIdParse : Bytes → Except Exn Tlv := idTlvParse 1 .chassisId

/-- `port_id.parse`. -/
def portIdParse : Bytes → Except Exn Tlv := idTlvParse 2 .portId

/-- `ttl.parse`; the class has no method `msg`. -/
def ttlParse (arr : Bytes) : Except Exn Tlv := do
  let t ← unpack 2 (slice arr 0 2)
  let typelen := field t 0 2
  assert (typelen >>> 9 = 3)
  let strlen := typelen &&& 0x01ff
  if strlen ≠ 2 then throw .attributeError
  else
    let s ← unpack 2 (slice arr 2 4)
    return .ttl strlen (field s 0 2)

/-- `end_tlv.parse`; the class has no method `msg`. -/
def endTlvParse (arr : Bytes) : Except Exn Tlv := do
  let t ← unpack 2 (slice arr 0 2)
  let typelen := field t 0 2
  assert (typelen >>> 9 = 0)
  let strlen := typelen &&& 0x01ff
  if strlen ≠ 0 then throw .attributeError else return .endTlv strlen

/-- `unknown_tlv.parse`. -/
def unknownTlvParse (arr : Bytes) : Except Exn Tlv := do
  let t ← unpack 2 (slice arr 0 2)
  let typelen := field t 0 2
  return .unknown (typelen >>> 9) (typelen &&& 0x01ff) (arr.drop 2)

/-- `lldp.tlv_parsers`. -/
def tlvParsers (type : ℕ) : Bytes → Except Exn Tlv :=
  if type = 1 then chassisIdParse
  else if type = 2 then portIdParse
  else if type = 3 then ttlParse
  else if type = 0 then endTlvParse
  else unknownTlvParse

/-- `lldp.next_tlv`: how far the next one is, and the TLV. -/
def nextTlv (frames : ℕ) (arr : Bytes) : Except Exn (Option (ℕ × Tlv)) :=
  call frames fun d =>
    if arr.length < 2 then .ok none
    else do
      let t ← unpack 2 (slice arr 0 2)
      let typelen := field t 0 2
      let length := typelen &&& 0x01ff
      if arr.length < length then return none
      else
        let tlv ← call d fun d => call d fun _ =>
          tlvParsers (typelen >>> 9) (slice arr 0 (2 + length))
        return some (2 + length, tlv)

/-- The loop of `lldp.parse`: the TLVs, and whether the end was reached as the loop wants it. -/
def tlvLoop (frames : ℕ) (arr : Bytes) : ℕ → ℕ → List Tlv → Except Exn (Bool × List Tlv)
  | 0, _, _ => .error .spin
  | n + 1, pduhead, tlvs => do
    match ← nextTlv frames (arr.drop pduhead) with
    | none => return (true, tlvs)
    | some (ret, tlv) =>
      if tlv.type = 0 then return (true, tlvs ++ [tlv])
      else if arr.length ≤ pduhead + ret then return (false, tlvs ++ [tlv])
      else tlvLoop frames arr n (pduhead + ret) (tlvs ++ [tlv])

/-- The TLVs that come first: one of each type, in this order; `none` if one is missing. -/
def mandatoryTlvs (frames : ℕ) (arr : Bytes) :
    List ℕ → ℕ → List Tlv → Except Exn (Option ℕ × List Tlv)
  | [], pduhead, tlvs => .ok (some pduhead, tlvs)
  | type :: types, pduhead, tlvs => do
    match ← nextTlv frames (arr.drop pduhead) with
    | none => return (none, tlvs)
    | some (ret, tlv) =>
      if tlv.type ≠ type then return (none, tlvs ++ [tlv])
      else mandatoryTlvs frames arr types (pduhead + ret) (tlvs ++ [tlv])

/-- `lldp.parse`. -/
def lldpParse (frames : ℕ) (arr : Bytes) : Except Exn Payload :=
  if arr.length < 14 then .ok (.obj false (.lldp []) .none)
  else do
    match ← mandatoryTlvs frames arr [1, 2, 3] 0 [] with
    | (none, tlvs) => return .obj false (.lldp tlvs) .none
    | (some pduhead, tlvs) => do
      let (parsed, tlvs) ← tlvLoop frames arr (arr.length + 1) pduhead tlvs
      return .obj parsed (.lldp tlvs) .none

/-! ### EAP -/

/-- `eap.parse`. -/
def eapParse (arr : Bytes) : Except Exn Payload :=
  if arr.length < 4 then .ok (.obj false (.eap ⟨1, 0, 0, none⟩) .none)
  else do
    let f ← unpack 4 (slice arr 0 4)
    let h : Eap := ⟨field f 0 1, field f 1 1, field f 2 2, none⟩
    if h.code = 1 ∨ h.code = 2 then
      let t ← unpack 1 (slice arr 4 5)
      return .obj true (.eap { h with type := some (field t 0 1) }) .none
    else return .obj true (.eap h) .none

/-- `eapol.parse`; the message about an unsupported type has no place for the type. -/
def eapolParse (make : Proto → Bytes → Except Exn Payload) (arr : Bytes) : Except Exn Payload :=
  if arr.length < 4 then .ok (.obj false (.eapol ⟨1, 0, 0⟩) .none)
  else do
    let f ← unpack 4 (slice arr 0 4)
    let h : Eapol := ⟨field f 0 1, field f 1 1, field f 2 2⟩
    if h.type = 0 then
      let next ← make .eap (arr.drop 4)
      return .obj true (.eapol h) next
    else if h.type = 1 ∨ h.type = 2 then return .obj true (.eapol h) .none
    else throw .typeError

/-! ### The constructors -/

/-- `parse` of a class. -/
def parse (env : Env) (frames : ℕ) (make : Proto → Bytes → Except Exn Payload) :
    Proto → Bytes → Except Exn Payload
  | .ethernet => ethernetParse make
  | .vlan => vlanParse make
  | .arp => arpParse
  | .ipv4 => ipv4Parse make env
  | .tcp => tcpParse frames
  | .udp => udpParse make
  | .icmp => icmpParse make
  | .echo => echoParse env
  | .unreach => unreachParse make
  | .dhcp => dhcpParse frames
  | .dns => dnsParse frames
  | .lldp => lldpParse frames
  | .eapol => eapolParse make
  | .eap => eapParse

/-- The constructor of a class: `__init__` takes a frame, and so does the `parse` it calls. -/
def construct (env : Env) : ℕ → Proto → Bytes → Except Exn Payload
  | 0, _, _ => .error .runtimeError
  | 1, _, _ => .error .runtimeError
  | d + 2, p, arr => parse env d (construct env d) p arr

end NoxClassic.Packet
