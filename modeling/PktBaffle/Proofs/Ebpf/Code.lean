import PktBaffle.Proofs.Ebpf.Build

namespace PktBaffle.Proofs.Ebpf
open PktBaffle.Ebpf Forward PktBaffle.Extended
open PktBaffle.Classic (LinkType concat debugProto hex4)

/-- The bounds check of `size` bytes at `off` behind R2, and their load into R4. -/
def loadCode (size : AccessSize) (off : Nat) : Code :=
  ops [.mov64Reg r5 r2, .add64Imm r5 (.ofNat (off + AccessSize.bytes size))] ++
    [failing (.jgtReg r5 r3 0)] ++ ops (ldxBe size r4 r2 (.ofNat off))

def checkCode (size : AccessSize) (off : Nat) (expected : UInt32) : Code :=
  loadCode size off ++ [failing (.jneImm r4 expected.toInt32 0)]

def etherCode (link : LinkType) (et : UInt32) : Except Error Code :=
  match link.etherProtoOffset with
  | some off => .ok (checkCode .half off et)
  | none =>
    if et = 0x0800 then .ok []
    else .error (.codegenError ("ethertype 0x" ++ hex4 et ++ " cannot be matched on RawIp captures"))

def ip4Code (link : LinkType) (n : UInt8) : Except Error Code :=
  (etherCode link 0x0800).map (· ++ checkCode .byte (link.netOffset + 9) n.toUInt32)

def ip6Code (link : LinkType) (n : UInt8) : Except Error Code :=
  (etherCode link 0x86dd).map (· ++ checkCode .byte (link.netOffset + 6) n.toUInt32)

/-- The ethertype in R4 decides between an IPv6 piece and an IPv4 piece. -/
def dualCode (etherOff : Nat) (c6 c4 : Code) : Code :=
  loadCode .half etherOff ++ Frag.branch (.jeqImm r4 0x0800 0) (.ja 0) ()
    ([failing (.jneImm r4 0x86dd 0)] ++ c6) c4

def dualL4Code (link : LinkType) (n : UInt8) : Except Error Code :=
  match link.etherProtoOffset with
  | none => ip4Code link n
  | some etherOff => .ok (dualCode etherOff (checkCode .byte (link.netOffset + 6) n.toUInt32)
      (checkCode .byte (link.netOffset + 9) n.toUInt32))

def protoCode (link : LinkType) : Proto → Except Error Code
  | .ip => etherCode link 0x0800
  | .ip6 => etherCode link 0x86dd
  | .arp => etherCode link 0x0806
  | .rarp => etherCode link 0x8035
  | .tcp => dualL4Code link 6
  | .udp => dualL4Code link 17
  | .sctp => dualL4Code link 132
  | .icmp => ip4Code link 1
  | .igmp => ip4Code link 2
  | .icmp6 => ip6Code link 58
  | .num n => ip4Code link n
  | .ip6Proto n => ip6Code link n

def addrCode (load : Nat → Code) (k : Int32) (srcOff dstOff : Nat) : Dir → Code
  | .src => load srcOff ++ [failing (.jneImm r4 k 0)]
  | .dst => load dstOff ++ [failing (.jneImm r4 k 0)]
  | .srcAndDst => load srcOff ++ [failing (.jneImm r4 k 0)] ++
      (load dstOff ++ [failing (.jneImm r4 k 0)])
  | .srcOrDst => load srcOff ++ [leaving (.jeqImm r4 k 0)] ++
      (load dstOff ++ [failing (.jneImm r4 k 0)])

def bothCode (check : Nat → Code) (src dst first second : Nat) : Dir → Code
  | .src => check src
  | .dst => check dst
  | .srcAndDst => check first ++ check second
  | .srcOrDst => Frag.alt (Cell.hole (.ja 0) ()) (check first) (check second)

def segsCode (off : Nat) : Nat → List UInt16 → Code
  | _, [] => []
  | i, seg :: segs => checkCode .half (off + i * 2) seg.toUInt32 ++ segsCode off (i + 1) segs

def net6SegsCode (prefixLen addrOff : Nat) : Nat → List UInt16 → Code
  | _, [] => []
  | i, seg :: segs =>
    if i * 16 ≥ prefixLen then []
    else loadCode .half (addrOff + i * 2) ++
      (if i * 16 + 16 ≤ prefixLen then [failing (.jneImm r4 seg.toUInt32.toInt32 0)]
      else
        let mask := ((0xffff : UInt32) <<< UInt32.ofNat (16 - (prefixLen - i * 16))) &&& 0xffff
        ops [.and32Imm r4 mask.toInt32] ++
          [failing (.jneImm r4 (seg.toUInt32 &&& mask).toInt32 0)]) ++
      net6SegsCode prefixLen addrOff (i + 1) segs

def l4ProtoCode (off : Nat) : Option Proto → Except Error Code
  | some .tcp => .ok (checkCode .byte off 6)
  | some .udp => .ok (checkCode .byte off 17)
  | some .sctp => .ok (checkCode .byte off 132)
  | none => .ok (loadCode .byte off ++
      Frag.skipping (.jeqImm r4 6 0) () [failing (.jneImm r4 17 0)])
  | some pr => .error (.codegenError
      ("port filter with proto " ++ debugProto pr ++ " is not supported"))

def r6Code (size : Int32) : Code :=
  ops [.mov64Reg r5 r6, .add64Imm r5 size] ++ [failing (.jgtReg r5 r3 0)]

/-- R6 to the transport header of an IPv4 packet. -/
def transportCode (netOff : Nat) : Code := loadCode .byte netOff ++ ops (transportPointer netOff)

def portPrereqsCode (link : LinkType) (proto : Option Proto) : Except Error Code :=
  match link.etherProtoOffset with
  | none => do
    let g ← etherCode link 0x0800
    let l4 ← l4ProtoCode (link.netOffset + 9) proto
    return g ++ l4 ++ transportCode link.netOffset ++ r6Code 4
  | some etherOff => do
    let l6 ← l4ProtoCode (link.netOffset + 6) proto
    let l4 ← l4ProtoCode (link.netOffset + 9) proto
    return dualCode etherOff
      (l6 ++ ops [.mov64Reg r6 r2, .add64Imm r6 (.ofNat (link.netOffset + 40))] ++ r6Code 4)
      (l4 ++ transportCode link.netOffset ++ r6Code 4)

def portLoad (off : Nat) : Code := ops (ldxHBe r4 r6 (.ofNat off))

def rangeCode (lo hi : UInt16) (off : Nat) : Code :=
  portLoad off ++ [failing (.jltImm r4 lo.toUInt32.toInt32 0)] ++
    [failing (.jgtImm r4 hi.toUInt32.toInt32 0)]

def macCode (addr : MacAddr) (off : Nat) : Code :=
  checkCode .word off (Vm.fromBe4 addr.octets[0]! addr.octets[1]!
    addr.octets[2]! addr.octets[3]!) ++
    checkCode .half (off + 4) (Vm.fromBe4 0 0 addr.octets[4]! addr.octets[5]!)

def mplsGuardCode (off : Nat) : Code :=
  loadCode .half off ++
    Frag.skipping (.jeqImm r4 0x8847 0) () [failing (.jneImm r4 0x8848 0)]

def cmpCode (op : CmpOp) (value : UInt32) : Code :=
  let v := value.toInt32
  match op with
  | .eq => [failing (.jneImm r4 v 0)]
  | .ne => [failing (.jeqImm r4 v 0)]
  | .gt => [failing (.jleImm r4 v 0)]
  | .ge => [failing (.jltImm r4 v 0)]
  | .lt => [failing (.jgeImm r4 v 0)]
  | .le => [failing (.jgtImm r4 v 0)]
  | .bitAnd => Frag.skipping (.jsetImm r4 v 0) () [failing (.ja 0)]

def aluCode : List (ArithOp × UInt32) → Except Error (List Insn)
  | [] => .ok []
  | (aop, operand) :: rest =>
    match ebpfAlu32 aop r4 operand.toInt32, aluCode rest with
    | .ok i, .ok is => .ok (i :: is)
    | .ok _, .error e => .error e
    | .error e, _ => .error e

def overflow : Error := .panic "attempt to add with overflow"

/-- A byte access up to its comparison. The checks stand in the order in which the source
makes them. -/
def byteAccessCode (link : LinkType) (ba : ByteAccess) : Except Error Code :=
  match ba.rhs with
  | .load _ => .error (.codegenError
      "expr-vs-expr byte-access comparison is not yet supported for eBPF targets")
  | .const value =>
    if ba.layer = .trans then
      if ba.offset.toInt + AccessSize.bytes ba.size < 2 ^ 31 then do
        let alu ← aluCode ba.aluOps
        return transportCode link.netOffset ++
          r6Code (ba.offset + .ofNat (AccessSize.bytes ba.size)) ++
          ops (ldxBe ba.size r4 r6 ba.offset.toInt16) ++ ops alu ++ cmpCode ba.op value
      else .error overflow
    else
      let off := (if ba.layer = .net then link.netOffset else 0) + ba.offset.toUInt32.toNat
      if off + AccessSize.bytes ba.size < 2 ^ 32 then do
        let alu ← aluCode ba.aluOps
        return loadCode ba.size off ++ ops alu ++ cmpCode ba.op value
      else .error overflow

def noRawIp (link : LinkType) (message : String) (c : Code) : Except Error Code :=
  if link = .rawIp then .error (.codegenError message) else .ok c

/-- The code of a primitive, or why there is none. -/
def leafCode (link : LinkType) : Primitive → Except Error Code
  | .proto p => protoCode link p
  | .host (.v4 a) dir => (etherCode link 0x0800).map
      (· ++ addrCode (loadCode .word) a.toInt32 (link.netOffset + 12) (link.netOffset + 16) dir)
  | .host (.v6 a) dir => (etherCode link 0x86dd).map
      (· ++ bothCode (segsCode · 0 a.segments.toList) (link.netOffset + 8) (link.netOffset + 24)
        (link.netOffset + 8) (link.netOffset + 24) dir)
  | .net net dir => (etherCode link 0x0800).map
      (· ++ addrCode (fun off => loadCode .word off ++ ops [.and32Imm r4 net.mask.toInt32])
        (net.addr &&& net.mask).toInt32 (link.netOffset + 12) (link.netOffset + 16) dir)
  | .net6 net dir => (etherCode link 0x86dd).map
      (· ++ bothCode (net6SegsCode net.prefixLen.toNat · 0 net.addr.segments.toList)
        (link.netOffset + 8) (link.netOffset + 24) (link.netOffset + 8) (link.netOffset + 24) dir)
  | .port port dir proto => (portPrereqsCode link proto).map
      (· ++ addrCode portLoad port.toUInt32.toInt32 0 2 dir)
  | .portRange lo hi dir proto => (portPrereqsCode link proto).map
      (· ++ bothCode (rangeCode lo hi) 0 2 0 2 dir)
  | .etherHost addr dir => noRawIp link "ether host cannot be used with RawIp link type"
      (bothCode (macCode addr) 6 0 0 6 dir)
  | .etherProto et => etherCode link et.toUInt32
  | .etherMulticast => noRawIp link "ether multicast cannot be used with RawIp link type"
      (loadCode .byte 0 ++ Frag.skipping (.jsetImm r4 0x01 0) () [failing (.ja 0)])
  | .ipBroadcast => (etherCode link 0x0800).map
      (· ++ checkCode .word (link.netOffset + 16) 0xffffffff)
  | .ipMulticast => (etherCode link 0x0800).map
      (· ++ (loadCode .word (link.netOffset + 16) ++
        ops [.and32Imm r4 (0xf0000000 : UInt32).toInt32] ++
        [failing (.jneImm r4 (0xe0000000 : UInt32).toInt32 0)]))
  | .ip6Multicast => (etherCode link 0x86dd).map
      (· ++ checkCode .byte (link.netOffset + 24) 0xff)
  | .vlan none => etherCode link 0x8100
  | .vlan (some vid) => (etherCode link 0x8100).map
      (· ++ (loadCode .half (link.etherProtoOffset.getD 14 + 2) ++ ops [.and32Imm r4 0x0fff] ++
        [failing (.jneImm r4 vid.toUInt32.toInt32 0)]))
  | .mpls label =>
    match link.etherProtoOffset, label with
    | none, _ => .error (.codegenError "mpls cannot be matched on RawIp captures")
    | some off, none => .ok (mplsGuardCode off)
    | some off, some lbl => .ok (mplsGuardCode off ++ (loadCode .word (off + 2) ++
        ops [.rsh32Imm r4 12] ++ [failing (.jneImm r4 lbl.toInt32 0)]))
  | .pppoeDiscovery => etherCode link 0x8863
  | .pppoeSession none => etherCode link 0x8864
  | .pppoeSession (some id) => (etherCode link 0x8864).map
      (· ++ (loadCode .half (link.etherProtoOffset.getD 12 + 4) ++
        [failing (.jneImm r4 id.toUInt32.toInt32 0)]))
  | .ipProtoChain n => ip4Code link n
  | .ip6ProtoChain n => ip6Code link n
  | .len op value => .ok (ops [.mov64Reg r4 r3, .sub64Reg r4 r2] ++ cmpCode op value)
  | .byteAccess ba => byteAccessCode link ba
  | .inbound => .error (.codegenError "inbound/outbound direction cannot be expressed in eBPF")
  | .outbound => .error (.codegenError "inbound/outbound direction cannot be expressed in eBPF")

end PktBaffle.Proofs.Ebpf
