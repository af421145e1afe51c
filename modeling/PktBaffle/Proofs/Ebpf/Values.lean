import PktBaffle.Proofs.Ebpf.Emit
import PktBaffle.Proofs.Ebpf.Leaves

namespace PktBaffle.Proofs.Ebpf
open PktBaffle.Ebpf Forward Interp PktBaffle.Extended
open Vm (Packet fromBe2 fromBe4)
open PktBaffle.Classic (LinkType)

/-- What an immediate stands for in a comparison. -/
def wide (k : Int32) : UInt64 := sext k.toInt

section Values

variable (pkt : Packet)

/-- The value of R4 behind a load. -/
def loaded (size : AccessSize) (off : Nat) : UInt64 := (field pkt size off).toUInt64

def inside (size : AccessSize) (off : Nat) : Bool := fits pkt off (AccessSize.bytes size)

def checkVal (size : AccessSize) (off : Nat) (k : UInt32) : Bool :=
  inside pkt size off && loaded pkt size off == wide k.toInt32

def etherVal (link : LinkType) (et : UInt32) : Bool :=
  match link.etherProtoOffset with
  | some off => checkVal pkt .half off et
  | none => true

def ip4Val (link : LinkType) (n : UInt8) : Bool :=
  etherVal pkt link 0x0800 && checkVal pkt .byte (link.netOffset + 9) n.toUInt32

def ip6Val (link : LinkType) (n : UInt8) : Bool :=
  etherVal pkt link 0x86dd && checkVal pkt .byte (link.netOffset + 6) n.toUInt32

def dualVal (etherOff : Nat) (v6 v4 : Bool) : Bool :=
  inside pkt .half etherOff &&
    bif loaded pkt .half etherOff == wide 0x0800 then v4
    else loaded pkt .half etherOff == wide 0x86dd && v6

def dualL4Val (link : LinkType) (n : UInt8) : Bool :=
  match link.etherProtoOffset with
  | none => ip4Val pkt link n
  | some etherOff => dualVal pkt etherOff (checkVal pkt .byte (link.netOffset + 6) n.toUInt32)
      (checkVal pkt .byte (link.netOffset + 9) n.toUInt32)

def protoVal (link : LinkType) : Proto → Bool
  | .ip => etherVal pkt link 0x0800
  | .ip6 => etherVal pkt link 0x86dd
  | .arp => etherVal pkt link 0x0806
  | .rarp => etherVal pkt link 0x8035
  | .tcp => dualL4Val pkt link 6
  | .udp => dualL4Val pkt link 17
  | .sctp => dualL4Val pkt link 132
  | .icmp => ip4Val pkt link 1
  | .igmp => ip4Val pkt link 2
  | .icmp6 => ip6Val pkt link 58
  | .num n => ip4Val pkt link n
  | .ip6Proto n => ip6Val pkt link n

/-- An address test from what its load gives: whether it is in bounds, and the value. -/
def addrVal (fit : Nat → Bool) (val : Nat → UInt64) (k : Int32) (so dst : Nat) : Dir → Bool
  | .src => fit so && val so == wide k
  | .dst => fit dst && val dst == wide k
  | .srcAndDst => fit so && val so == wide k && (fit dst && val dst == wide k)
  | .srcOrDst => fit so && (val so == wide k || (fit dst && val dst == wide k))

def bothVal (test : Nat → Bool) (src dst first second : Nat) : Dir → Bool
  | .src => test src
  | .dst => test dst
  | .srcAndDst => test first && test second
  | .srcOrDst => test first || test second

def segsVal (off : Nat) : Nat → List UInt16 → Bool
  | _, [] => true
  | i, seg :: segs => checkVal pkt .half (off + i * 2) seg.toUInt32 && segsVal off (i + 1) segs

def net6SegsVal (prefixLen addrOff : Nat) : Nat → List UInt16 → Bool
  | _, [] => true
  | i, seg :: segs =>
    if i * 16 ≥ prefixLen then true
    else
      let off := addrOff + i * 2
      let mask := ((0xffff : UInt32) <<< UInt32.ofNat (16 - (prefixLen - i * 16))) &&& 0xffff
      inside pkt .half off &&
        (if i * 16 + 16 ≤ prefixLen then loaded pkt .half off == wide seg.toUInt32.toInt32
        else (field pkt .half off &&& mask).toUInt64 == wide (seg.toUInt32 &&& mask).toInt32) &&
        net6SegsVal prefixLen addrOff (i + 1) segs

def l4ProtoVal (off : Nat) : Option Proto → Bool
  | some .tcp => checkVal pkt .byte off 6
  | some .udp => checkVal pkt .byte off 17
  | some .sctp => checkVal pkt .byte off 132
  | none => inside pkt .byte off &&
      (loaded pkt .byte off == wide 6 || loaded pkt .byte off == wide 17)
  | some _ => false

/-- Where the IPv4 header length puts the transport header. -/
def ihlOff (netOff : Nat) : Nat := netOff + ((field pkt .byte netOff &&& 0x0f) <<< 2).toNat

def port4Val (netOff : Nat) (proto : Option Proto) : Bool :=
  l4ProtoVal pkt (netOff + 9) proto && inside pkt .byte netOff && fits pkt (ihlOff pkt netOff) 4

def port6Val (netOff : Nat) (proto : Option Proto) : Bool :=
  l4ProtoVal pkt (netOff + 6) proto && fits pkt (netOff + 40) 4

def portPrereqsVal (link : LinkType) (proto : Option Proto) : Bool :=
  match link.etherProtoOffset with
  | none => port4Val pkt link.netOffset proto
  | some etherOff =>
    dualVal pkt etherOff (port6Val pkt link.netOffset proto) (port4Val pkt link.netOffset proto)

/-- Where the transport header is, for a packet that passes the prerequisites. -/
def transOff (link : LinkType) : Nat :=
  match link.etherProtoOffset with
  | none => ihlOff pkt link.netOffset
  | some etherOff =>
    bif loaded pkt .half etherOff == wide 0x0800 then ihlOff pkt link.netOffset
    else link.netOffset + 40

def rangeVal (lo hi : UInt16) (base off : Nat) : Bool :=
  !decide (loaded pkt .half (base + off) < wide lo.toUInt32.toInt32) &&
    !decide (wide hi.toUInt32.toInt32 < loaded pkt .half (base + off))

def macVal (addr : MacAddr) (off : Nat) : Bool :=
  checkVal pkt .word off (fromBe4 addr.octets[0]! addr.octets[1]! addr.octets[2]!
    addr.octets[3]!) &&
    checkVal pkt .half (off + 4) (fromBe4 0 0 addr.octets[4]! addr.octets[5]!)

def mplsGuardVal (off : Nat) : Bool :=
  inside pkt .half off &&
    (loaded pkt .half off == wide 0x8847 || loaded pkt .half off == wide 0x8848)

end Values

/-- A comparison of the generator, in 64 bits. -/
def cmpVal (op : CmpOp) (v : UInt64) (k : UInt32) : Bool :=
  let w := wide k.toInt32
  match op with
  | .eq => v == w
  | .ne => v != w
  | .gt => decide (w < v)
  | .ge => decide (w ≤ v)
  | .lt => decide (v < w)
  | .le => decide (v ≤ w)
  | .bitAnd => v &&& w != 0

/-- The arithmetic of a byte access; a shift that is too wide gives no value. -/
def aluVal : List (ArithOp × UInt32) → UInt32 → Option UInt32
  | [], x => some x
  | (op, k) :: rest, x => (arith op x k).bind (aluVal rest)

/-- A byte access behind its bounds checks. -/
def accessVal (ba : ByteAccess) (value x : UInt32) : Tri :=
  (aluVal ba.aluOps x).map (fun y => cmpVal ba.op y.toUInt64 value)

/-- Where the offset of a byte access counts from, if it is not the transport header. -/
def layerBase (link : LinkType) (ba : ByteAccess) : Nat :=
  if ba.layer = .net then link.netOffset else 0

/-- The offset of a byte access fits the displacement of the load it is compiled to. -/
def Reaches (link : LinkType) (ba : ByteAccess) : Prop :=
  0 ≤ ba.offset.toInt ∧ layerBase link ba + ba.offset.toInt ≤ 32767

/-- Outcome of a byte access. -/
def byteAccessVal (pkt : Packet) (link : LinkType) (ba : ByteAccess) : Tri :=
  match ba.rhs with
  | .load _ => some false
  | .const value =>
    let size := ba.size
    let off := ba.offset.toUInt32.toNat
    if ba.layer = .trans then
      Tri.and (some (inside pkt .byte link.netOffset &&
          inside pkt size (ihlOff pkt link.netOffset + off)))
        (accessVal ba value (field pkt size (ihlOff pkt link.netOffset + off)))
    else
      let off := layerBase link ba + off
      Tri.and (some (inside pkt size off)) (accessVal ba value (field pkt size off))

/-- Outcome of a primitive that compiles: what its code does on the packet. -/
def leafVal (pkt : Packet) (link : LinkType) : Primitive → Tri
  | .proto p => some (protoVal pkt link p)
  | .host (.v4 a) dir => some (etherVal pkt link 0x0800 &&
      addrVal (inside pkt .word) (loaded pkt .word) a.toInt32 (link.netOffset + 12)
        (link.netOffset + 16) dir)
  | .host (.v6 a) dir => some (etherVal pkt link 0x86dd &&
      bothVal (segsVal pkt · 0 a.segments.toList) (link.netOffset + 8) (link.netOffset + 24)
        (link.netOffset + 8) (link.netOffset + 24) dir)
  | .net net dir => some (etherVal pkt link 0x0800 &&
      addrVal (inside pkt .word) (fun off => (field pkt .word off &&& net.mask).toUInt64)
        (net.addr &&& net.mask).toInt32 (link.netOffset + 12) (link.netOffset + 16) dir)
  | .net6 net dir => some (etherVal pkt link 0x86dd &&
      bothVal (net6SegsVal pkt net.prefixLen.toNat · 0 net.addr.segments.toList)
        (link.netOffset + 8) (link.netOffset + 24) (link.netOffset + 8) (link.netOffset + 24) dir)
  | .port port dir proto => some (portPrereqsVal pkt link proto &&
      addrVal (fun _ => true) (fun off => loaded pkt .half (transOff pkt link + off))
        port.toUInt32.toInt32 0 2 dir)
  | .portRange lo hi dir proto => some (portPrereqsVal pkt link proto &&
      bothVal (rangeVal pkt lo hi (transOff pkt link)) 0 2 0 2 dir)
  | .etherHost addr dir => some (bothVal (macVal pkt addr) 6 0 0 6 dir)
  | .etherProto et => some (etherVal pkt link et.toUInt32)
  | .etherMulticast => some (inside pkt .byte 0 && loaded pkt .byte 0 &&& wide 1 != 0)
  | .ipBroadcast => some (etherVal pkt link 0x0800 &&
      checkVal pkt .word (link.netOffset + 16) 0xffffffff)
  | .ipMulticast => some (etherVal pkt link 0x0800 &&
      (inside pkt .word (link.netOffset + 16) &&
        (field pkt .word (link.netOffset + 16) &&& 0xf0000000).toUInt64 ==
          wide (0xe0000000 : UInt32).toInt32))
  | .ip6Multicast => some (etherVal pkt link 0x86dd &&
      checkVal pkt .byte (link.netOffset + 24) 0xff)
  | .vlan none => some (etherVal pkt link 0x8100)
  | .vlan (some vid) =>
    let off := link.etherProtoOffset.getD 14 + 2
    some (etherVal pkt link 0x8100 && (inside pkt .half off &&
      (field pkt .half off &&& 0x0fff).toUInt64 == wide vid.toUInt32.toInt32))
  | .mpls label =>
    let off := link.etherProtoOffset.getD 0
    match label with
    | none => some (mplsGuardVal pkt off)
    | some lbl => some (mplsGuardVal pkt off && (inside pkt .word (off + 2) &&
        (field pkt .word (off + 2) >>> 12).toUInt64 == wide lbl.toInt32))
  | .pppoeDiscovery => some (etherVal pkt link 0x8863)
  | .pppoeSession none => some (etherVal pkt link 0x8864)
  | .pppoeSession (some id) =>
    let off := link.etherProtoOffset.getD 12 + 4
    some (etherVal pkt link 0x8864 && (inside pkt .half off &&
      loaded pkt .half off == wide id.toUInt32.toInt32))
  | .ipProtoChain n => some (ip4Val pkt link n)
  | .ip6ProtoChain n => some (ip6Val pkt link n)
  | .len op value => some (cmpVal op (dataEnd pkt - pktBase) value)
  | .byteAccess ba => byteAccessVal pkt link ba
  | .inbound => some false
  | .outbound => some false

end PktBaffle.Proofs.Ebpf
