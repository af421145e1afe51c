import PktBaffle.Codegen
import PktBaffle.Ebpf

namespace PktBaffle.Extended
open Ebpf
open PktBaffle.Classic (LinkType concat debugProto hex4)

/-- A slot whose `off` must be filled with a forward displacement. An instruction has one. -/
abbrev Patch := Unit × Nat

structure Patches where
  success : List Patch
  failure : List Patch

def Patches.default : Patches := ⟨[], []⟩

/-- Both patch lists, those of `p` in front. -/
def Patches.extend (p q : Patches) : Patches := ⟨p.success ++ q.success, p.failure ++ q.failure⟩

structure Codegen where
  insns : List Insn
  link : LinkType

def Codegen.new (link : LinkType) : Codegen := ⟨[], link⟩

abbrev Gen := StateT Codegen (Except Error)

def fail {α : Type} (message : String) : Gen α := throw (.codegenError message)

def push (insn : Insn) : Gen Nat := fun cg =>
  .ok (cg.insns.length, { cg with insns := cg.insns ++ [insn] })

/-- Let a patch point forward to `target`. -/
def resolve (patch : Patch) (target : Nat) : Gen Unit := fun cg =>
  if target ≤ patch.2 then .error (.panic "eBPF jump target must be forward")
  else if target - patch.2 - 1 > 32767 then .error (.codegenError
    "filter expression is too complex: eBPF jump offset overflow")
  else if cg.insns.length ≤ patch.2 then .error (.panic "index out of bounds")
  else .ok ((), { cg with insns := cg.insns.modify patch.2 (·.put () (target - patch.2 - 1)) })

def resolveAll (patches : List Patch) (target : Nat) : Gen Unit :=
  patches.forM (resolve · target)

def pushAll (insns : List Insn) : Gen Unit := insns.forM (fun insn => discard (push insn))

/-- Number of instructions so far. -/
def insnsLen : Gen Nat := do return (← get).insns.length

/-- `a + b` in `u32`. -/
def addU32 (a b : Nat) : Gen Nat :=
  if a + b < 2 ^ 32 then return a + b else throw (.panic "attempt to add with overflow")

/-- `a + b` in `i32`. -/
def addI32 (a b : Int32) : Gen Int32 :=
  if a.toInt + b.toInt < 2 ^ 31 then return a + b else throw (.panic "attempt to add with overflow")

/-- Load `data` into R2 and `data_end` into R3. -/
def emitPrologue : Gen Unit := pushAll [.ldxW r2 r1 0, .ldxW r3 r1 4]

def ldxHBe (dst src : UInt8) (off : Int16) : List Insn := [.ldxH dst src off, .be16 dst]

def ldxWBe (dst src : UInt8) (off : Int16) : List Insn := [.ldxW dst src off, .be32 dst]

/-- A bounds check for `size` bytes at `offset` from the packet start and then the load:
the shape of `emit_load_byte`, `emit_load_half` and `emit_load_word`. -/
def emitLoad (size : Nat) (ldx : Int16 → List Insn) (offset : Nat) : Gen Patch := do
  let _ ← push (.mov64Reg r5 r2)
  let stop ← addU32 offset size
  let _ ← push (.add64Imm r5 (.ofNat stop))
  let bc ← push (.jgtReg r5 r3 0)
  pushAll (ldx (.ofNat offset))
  return ((), bc)

def emitLoadByte (offset : Nat) : Gen Patch := emitLoad 1 (fun off => [.ldxB r4 r2 off]) offset

def emitLoadHalf (offset : Nat) : Gen Patch := emitLoad 2 (ldxHBe r4 r2) offset

def emitLoadWord (offset : Nat) : Gen Patch := emitLoad 4 (ldxWBe r4 r2) offset

/-- A load and a comparison that fails on a mismatch: the shape of `check_half`,
`check_byte` and `check_word`. -/
def checkLoad (load : Gen Patch) (expected : UInt32) : Gen Patches := do
  let bc ← load
  let cmp ← push (.jneImm r4 expected.toInt32 0)
  return ⟨[], [bc, ((), cmp)]⟩

def checkHalf (offset : Nat) (expected : UInt32) : Gen Patches :=
  checkLoad (emitLoadHalf offset) expected

def checkByte (offset : Nat) (expected : UInt32) : Gen Patches :=
  checkLoad (emitLoadByte offset) expected

def checkWord (offset : Nat) (expected : UInt32) : Gen Patches :=
  checkLoad (emitLoadWord offset) expected

def emitEthertype (et : UInt32) : Gen Patches := do
  match (← get).link.etherProtoOffset with
  | some off => checkHalf off et
  | none =>
    if et = 0x0800 then return .default
    else fail ("ethertype 0x" ++ hex4 et ++ " cannot be matched on RawIp captures")

def ip4Guard : Gen Patches := emitEthertype 0x0800

def emitIp4L4 (protoNum : UInt8) : Gen Patches := do
  let p ← ip4Guard
  let q ← checkByte ((← get).link.netOffset + 9) protoNum.toUInt32
  return ⟨p.success, p.failure ++ q.failure⟩

def emitIp6L4 (nextHdr : UInt8) : Gen Patches := do
  let p ← emitEthertype 0x86dd
  let q ← checkByte ((← get).link.netOffset + 6) nextHdr.toUInt32
  return ⟨p.success, p.failure ++ q.failure⟩

/-- IPv4 with the protocol byte, or IPv6 with the next header. -/
def emitDualL4 (protoNum : UInt8) : Gen Patches := do
  let link := (← get).link
  match link.etherProtoOffset with
  | none => emitIp4L4 protoNum
  | some etherOff =>
    let netOff := link.netOffset
    let bcEt ← emitLoadHalf etherOff
    let jmpToIpv4 ← push (.jeqImm r4 0x0800 0)
    let notIpv6 ← push (.jneImm r4 0x86dd 0)
    let q6 ← checkByte (netOff + 6) protoNum.toUInt32
    let ja ← push (.ja 0)
    let ipv4Start ← insnsLen
    resolve ((), jmpToIpv4) ipv4Start
    let q4 ← checkByte (netOff + 9) protoNum.toUInt32
    let after ← insnsLen
    resolve ((), ja) after
    return ⟨[], bcEt :: ((), notIpv6) :: (q6.failure ++ q4.failure)⟩

def emitProto : Proto → Gen Patches
  | .ip => emitEthertype 0x0800
  | .ip6 => emitEthertype 0x86dd
  | .arp => emitEthertype 0x0806
  | .rarp => emitEthertype 0x8035
  | .tcp => emitDualL4 6
  | .udp => emitDualL4 17
  | .sctp => emitDualL4 132
  | .icmp => emitIp4L4 1
  | .igmp => emitIp4L4 2
  | .icmp6 => emitIp6L4 58
  | .num n => emitIp4L4 n
  | .ip6Proto n => emitIp6L4 n

/-- The four directions of an address test that is one load and one comparison; `load`
returns the bounds checks it makes. The shape of `check_addr4` and of the tests in
`emit_net` and `emit_port`. -/
def checkAddr (load : Nat → Gen (List Patch)) (k : Int32) (srcOff dstOff : Nat) (dir : Dir) :
    Gen Patches := do
  match dir with
  | .src =>
    let bc ← load srcOff
    let cmp ← push (.jneImm r4 k 0)
    return ⟨[], bc ++ [((), cmp)]⟩
  | .dst =>
    let bc ← load dstOff
    let cmp ← push (.jneImm r4 k 0)
    return ⟨[], bc ++ [((), cmp)]⟩
  | .srcAndDst =>
    let bc1 ← load srcOff
    let cmp1 ← push (.jneImm r4 k 0)
    let bc2 ← load dstOff
    let cmp2 ← push (.jneImm r4 k 0)
    return ⟨[], bc1 ++ [((), cmp1)] ++ (bc2 ++ [((), cmp2)])⟩
  | .srcOrDst =>
    let bc1 ← load srcOff
    let eqSrc ← push (.jeqImm r4 k 0)
    let bc2 ← load dstOff
    let cmp2 ← push (.jneImm r4 k 0)
    return ⟨[((), eqSrc)], bc1 ++ (bc2 ++ [((), cmp2)])⟩

def checkAddr4 (k : Int32) (srcOff dstOff : Nat) (dir : Dir) : Gen Patches :=
  checkAddr (fun off => do return [← emitLoadWord off]) k srcOff dstOff dir

/-- The four directions of a test that fails in several places; `check` returns those. In
`SrcOrDst` the failures of the `first` test lead to the second one: the shape of
`emit_host6`, `emit_net6`, `emit_portrange` and `emit_ether_host`. -/
def checkBoth (check : Nat → Gen (List Patch)) (src dst first second : Nat) (dir : Dir) :
    Gen Patches := do
  match dir with
  | .src => return ⟨[], ← check src⟩
  | .dst => return ⟨[], ← check dst⟩
  | .srcAndDst =>
    let f1 ← check first
    let f2 ← check second
    return ⟨[], f1 ++ f2⟩
  | .srcOrDst =>
    let srcFails ← check first
    let jaIdx ← push (.ja 0)
    let dstStart ← insnsLen
    resolveAll srcFails dstStart
    let f ← check second
    return ⟨[((), jaIdx)], f⟩

def emitHost4 (addr : Ipv4Addr) (dir : Dir) : Gen Patches := do
  let p ← ip4Guard
  let base := (← get).link.netOffset
  let q ← checkAddr4 addr.toInt32 (base + 12) (base + 16) dir
  return p.extend q

/-- The loop over the segments from segment `i` on. -/
def checkSegs (off : Nat) : Nat → List UInt16 → Gen (List Patch)
  | _, [] => return []
  | i, seg :: segs => do
    let p ← checkHalf (off + i * 2) seg.toUInt32
    let rest ← checkSegs off (i + 1) segs
    return p.failure ++ rest

def checkIp6 (addr : Ipv6Addr) (off : Nat) : Gen (List Patch) :=
  checkSegs off 0 addr.segments.toList

def emitHost6 (addr : Ipv6Addr) (dir : Dir) : Gen Patches := do
  let p ← emitEthertype 0x86dd
  let base := (← get).link.netOffset
  let q ← checkBoth (checkIp6 addr) (base + 8) (base + 24) (base + 8) (base + 24) dir
  return p.extend q

def emitHost (addr : IpAddr) (dir : Dir) : Gen Patches :=
  match addr with
  | .v4 a => emitHost4 a dir
  | .v6 a => emitHost6 a dir

def emitNet (net : IpNet) (dir : Dir) : Gen Patches := do
  let p ← ip4Guard
  let base := (← get).link.netOffset
  let load : Nat → Gen (List Patch) := fun off => do
    let bc ← emitLoadWord off
    pushAll [.and32Imm r4 net.mask.toInt32]
    return [bc]
  let q ← checkAddr load (net.addr &&& net.mask).toInt32 (base + 12) (base + 16) dir
  return p.extend q

/-- The loop of `check_net6` from segment `i` on; it ends at the first segment behind the
prefix. -/
def checkNet6Segs (prefixLen addrOff : Nat) : Nat → List UInt16 → Gen (List Patch)
  | _, [] => return []
  | i, seg :: segs => do
    let startBit := i * 16
    if startBit ≥ prefixLen then return []
    let endBit := startBit + 16
    let off := addrOff + i * 2
    let bc ← emitLoadHalf off
    let cmp ← if endBit ≤ prefixLen then push (.jneImm r4 seg.toUInt32.toInt32 0)
      else do
        let bits := prefixLen - startBit
        let mask := ((0xffff : UInt32) <<< UInt32.ofNat (16 - bits)) &&& 0xffff
        let expected := seg.toUInt32 &&& mask
        let _ ← push (.and32Imm r4 mask.toInt32)
        push (.jneImm r4 expected.toInt32 0)
    let rest ← checkNet6Segs prefixLen addrOff (i + 1) segs
    return bc :: ((), cmp) :: rest

def checkNet6 (net : Ipv6Net) (addrOff : Nat) : Gen (List Patch) :=
  checkNet6Segs net.prefixLen.toNat addrOff 0 net.addr.segments.toList

def emitNet6 (net : Ipv6Net) (dir : Dir) : Gen Patches := do
  let p ← emitEthertype 0x86dd
  let base := (← get).link.netOffset
  let q ← checkBoth (checkNet6 net) (base + 8) (base + 24) (base + 8) (base + 24) dir
  return p.extend q

/-- A protocol check at `protoOff`; without a protocol TCP and UDP pass. Returns what the
source adds to the failures of its caller. -/
def emitL4ProtoCheck (protoOff : Nat) (proto : Option Proto) : Gen (List Patch) := do
  match proto with
  | some .tcp => return (← checkByte protoOff 6).failure
  | some .udp => return (← checkByte protoOff 17).failure
  | some .sctp => return (← checkByte protoOff 132).failure
  | none =>
    let bc ← emitLoadByte protoOff
    let eqTcp ← push (.jeqImm r4 6 0)
    let cmpUdp ← push (.jneImm r4 17 0)
    let afterUdp ← insnsLen
    resolve ((), eqTcp) afterUdp
    return [bc, ((), cmpUdp)]
  | some pr => fail ("port filter with proto " ++ debugProto pr ++ " is not supported")

/-- `R6 = R2 + net_off + IHL * 4`, with IHL from the byte that R4 holds. -/
def transportPointer (netOff : Nat) : List Insn :=
  [.and32Imm r4 0x0f, .lsh32Imm r4 2, .mov64Reg r6 r2, .add64Imm r6 (.ofNat netOff),
    .add64Reg r6 r4]

/-- Bounds check of the `size` bytes behind R6. -/
def checkR6 (size : Int32) : Gen Patch := do
  pushAll [.mov64Reg r5 r6, .add64Imm r5 size]
  let bc ← push (.jgtReg r5 r3 0)
  return ((), bc)

def emitPortPrereqsIpv4Only (proto : Option Proto) : Gen Patches := do
  let p ← ip4Guard
  let netOff := (← get).link.netOffset
  let l4 ← emitL4ProtoCheck (netOff + 9) proto
  let bcIhl ← emitLoadByte netOff
  pushAll (transportPointer netOff)
  let bcTrans ← checkR6 4
  return ⟨p.success, p.failure ++ l4 ++ [bcIhl, bcTrans]⟩

/-- Protocol prerequisites; on return R6 points to the transport header. -/
def emitPortPrereqs (proto : Option Proto) : Gen Patches := do
  let link := (← get).link
  match link.etherProtoOffset with
  | none => emitPortPrereqsIpv4Only proto
  | some etherOff =>
    let netOff := link.netOffset
    let bcEt ← emitLoadHalf etherOff
    let jmpToIpv4 ← push (.jeqImm r4 0x0800 0)
    let notIpv6 ← push (.jneImm r4 0x86dd 0)
    -- IPv6, with its fixed header size.
    let l6 ← emitL4ProtoCheck (netOff + 6) proto
    pushAll [.mov64Reg r6 r2, .add64Imm r6 (.ofNat (netOff + 40))]
    let bcV6 ← checkR6 4
    let jaSkipV4 ← push (.ja 0)
    -- IPv4, with the header length it states.
    let ipv4Start ← insnsLen
    resolve ((), jmpToIpv4) ipv4Start
    let l4 ← emitL4ProtoCheck (netOff + 9) proto
    let bcIhl ← emitLoadByte netOff
    pushAll (transportPointer netOff)
    let bcV4 ← checkR6 4
    let portCheckStart ← insnsLen
    resolve ((), jaSkipV4) portCheckStart
    return ⟨[], [bcEt, ((), notIpv6)] ++ l6 ++ [bcV6] ++ (l4 ++ [bcIhl, bcV4])⟩

def emitPort (port : UInt16) (dir : Dir) (proto : Option Proto) : Gen Patches := do
  let p ← emitPortPrereqs proto
  let load : Nat → Gen (List Patch) := fun off => do
    pushAll (ldxHBe r4 r6 (.ofNat off))
    return []
  let q ← checkAddr load port.toUInt32.toInt32 0 2 dir
  return p.extend q

def emitPortrange (lo hi : UInt16) (dir : Dir) (proto : Option Proto) : Gen Patches := do
  let p ← emitPortPrereqs proto
  let checkRange : Nat → Gen (List Patch) := fun off => do
    pushAll (ldxHBe r4 r6 (.ofNat off))
    let iLo ← push (.jltImm r4 lo.toUInt32.toInt32 0)
    let iHi ← push (.jgtImm r4 hi.toUInt32.toInt32 0)
    return [((), iLo), ((), iHi)]
  let q ← checkBoth checkRange 0 2 0 2 dir
  return p.extend q

def checkMac (addr : MacAddr) (offset : Nat) : Gen (List Patch) := do
  let o := addr.octets
  let p ← checkWord offset (Vm.fromBe4 o[0]! o[1]! o[2]! o[3]!)
  let q ← checkHalf (offset + 4) (Vm.fromBe4 0 0 o[4]! o[5]!)
  return p.failure ++ q.failure

def emitEtherHost (addr : MacAddr) (dir : Dir) : Gen Patches := do
  if (← get).link = .rawIp then fail "ether host cannot be used with RawIp link type"
  checkBoth (checkMac addr) 6 0 0 6 dir

def emitEtherMulticast : Gen Patches := do
  if (← get).link = .rawIp then fail "ether multicast cannot be used with RawIp link type"
  let bc ← emitLoadByte 0
  let cmp ← push (.jsetImm r4 0x01 0)
  let jaFail ← push (.ja 0)
  let after ← insnsLen
  resolve ((), cmp) after
  return ⟨[], [bc, ((), jaFail)]⟩

def emitIpBroadcast : Gen Patches := do
  let p ← ip4Guard
  let dstOff := (← get).link.netOffset + 16
  let q ← checkWord dstOff 0xffffffff
  return ⟨p.success, p.failure ++ q.failure⟩

def emitIpMulticast : Gen Patches := do
  let p ← ip4Guard
  let dstOff := (← get).link.netOffset + 16
  let bc ← emitLoadWord dstOff
  let _ ← push (.and32Imm r4 (0xf0000000 : UInt32).toInt32)
  let cmp ← push (.jneImm r4 (0xe0000000 : UInt32).toInt32 0)
  return ⟨p.success, p.failure ++ [bc, ((), cmp)]⟩

def emitIp6Multicast : Gen Patches := do
  let p ← emitEthertype 0x86dd
  let dstOff := (← get).link.netOffset + 24
  let q ← checkByte dstOff 0xff
  return ⟨p.success, p.failure ++ q.failure⟩

def emitVlan (id : Option UInt16) : Gen Patches := do
  let p ← emitEthertype 0x8100
  match id with
  | none => return p
  | some vid =>
    let tciOff := (← get).link.etherProtoOffset.getD 14 + 2
    let bc ← emitLoadHalf tciOff
    let _ ← push (.and32Imm r4 0x0fff)
    let cmp ← push (.jneImm r4 vid.toUInt32.toInt32 0)
    return ⟨p.success, p.failure ++ [bc, ((), cmp)]⟩

def emitMpls (label : Option UInt32) : Gen Patches := do
  match (← get).link.etherProtoOffset with
  | none => fail "mpls cannot be matched on RawIp captures"
  | some off =>
    let bc ← emitLoadHalf off
    let eqUni ← push (.jeqImm r4 0x8847 0)
    let cmpMc ← push (.jneImm r4 0x8848 0)
    let afterEt ← insnsLen
    resolve ((), eqUni) afterEt
    match label with
    | none => return ⟨[], [bc, ((), cmpMc)]⟩
    | some lbl =>
      let bc2 ← emitLoadWord (off + 2)
      let _ ← push (.rsh32Imm r4 12)
      let cmp2 ← push (.jneImm r4 lbl.toInt32 0)
      return ⟨[], [bc, ((), cmpMc)] ++ [bc2, ((), cmp2)]⟩

def emitPppoeSession (sessionId : Option UInt16) : Gen Patches := do
  let p ← emitEthertype 0x8864
  match sessionId with
  | none => return p
  | some id =>
    let sidOff := (← get).link.etherProtoOffset.getD 12 + 4
    let bc ← emitLoadHalf sidOff
    let cmp ← push (.jneImm r4 id.toUInt32.toInt32 0)
    return ⟨p.success, p.failure ++ [bc, ((), cmp)]⟩

/-- Compare R4 with `value`; each jump is the one taken when the comparison fails. -/
def emitCmp (op : CmpOp) (value : UInt32) : Gen Patches := do
  let v := value.toInt32
  let jump (insn : Insn) : Gen Patches := do
    let idx ← push insn
    return ⟨[], [((), idx)]⟩
  match op with
  | .eq => jump (.jneImm r4 v 0)
  | .ne => jump (.jeqImm r4 v 0)
  | .gt => jump (.jleImm r4 v 0)
  | .ge => jump (.jltImm r4 v 0)
  | .lt => jump (.jgeImm r4 v 0)
  | .le => jump (.jgtImm r4 v 0)
  | .bitAnd =>
    let jset ← push (.jsetImm r4 v 0)
    let jaFail ← push (.ja 0)
    let after ← insnsLen
    resolve ((), jset) after
    return ⟨[], [((), jaFail)]⟩

def emitLen (op : CmpOp) (value : UInt32) : Gen Patches := do
  pushAll [.mov64Reg r4 r3, .sub64Reg r4 r2]
  emitCmp op value

def ebpfAlu32 (op : ArithOp) (dst : UInt8) (imm : Int32) : Except Error Insn :=
  match op with
  | .and => .ok (.and32Imm dst imm)
  | .or => .ok (.or32Imm dst imm)
  | .xor => .ok (.xor32Imm dst imm)
  | .add => .ok (.add32Imm dst imm)
  | .sub => .ok (.sub32Imm dst imm)
  | .mul => .ok (.mul32Imm dst imm)
  | .div =>
    if imm = 0 then .error (.codegenError "division by zero in byte-access expression")
    else .ok (.div32Imm dst imm)
  | .mod => .error
      (.codegenError "modulo (%) is not supported in eBPF byte-access expressions")
  | .shl => .ok (.lsh32Imm dst imm)
  | .shr => .ok (.rsh32Imm dst imm)

/-- The arithmetic of a byte access, one instruction each. -/
def emitAluOps : List (ArithOp × UInt32) → Gen Unit
  | [] => return ()
  | (aop, operand) :: ops => do
    let insn ← (ebpfAlu32 aop r4 operand.toInt32 : Except Error Insn)
    let _ ← push insn
    emitAluOps ops

def AccessSize.bytes : AccessSize → Nat
  | .byte => 1
  | .half => 2
  | .word => 4

/-- The load of `size` bytes at `off` from `base`, in network order. -/
def ldxBe (size : AccessSize) (dst base : UInt8) (off : Int16) : List Insn :=
  match size with
  | .byte => [.ldxB dst base off]
  | .half => ldxHBe dst base off
  | .word => ldxWBe dst base off

def emitLoadSize (size : AccessSize) (off : Nat) : Gen Patch :=
  match size with
  | .byte => emitLoadByte off
  | .half => emitLoadHalf off
  | .word => emitLoadWord off

def emitTransByteAccess (ba : ByteAccess) (value : UInt32) : Gen Patches := do
  let netOff := (← get).link.netOffset
  let bcIhl ← emitLoadByte netOff
  pushAll (transportPointer netOff)
  let endOff ← addI32 ba.offset (.ofNat (AccessSize.bytes ba.size))
  let bcTrans ← checkR6 endOff
  pushAll (ldxBe ba.size r4 r6 ba.offset.toInt16)
  emitAluOps ba.aluOps
  let p ← emitCmp ba.op value
  return ⟨p.success, p.failure ++ [bcIhl, bcTrans]⟩

def emitByteAccess (ba : ByteAccess) : Gen Patches := do
  match ba.rhs with
  | .load _ =>
    fail "expr-vs-expr byte-access comparison is not yet supported for eBPF targets"
  | .const value =>
    match ba.layer with
    | .trans => emitTransByteAccess ba value
    | layer =>
      let cg ← get
      let baseOff := if layer = .net then cg.link.netOffset else 0
      let off ← addU32 baseOff ba.offset.toUInt32.toNat
      let bc ← emitLoadSize ba.size off
      emitAluOps ba.aluOps
      let p ← emitCmp ba.op value
      return ⟨p.success, bc :: p.failure⟩

def emitPrimitive : Primitive → Gen Patches
  | .proto p => emitProto p
  | .host addr dir => emitHost addr dir
  | .net net dir => emitNet net dir
  | .net6 net dir => emitNet6 net dir
  | .port port dir proto => emitPort port dir proto
  | .portRange lo hi dir proto => emitPortrange lo hi dir proto
  | .etherHost addr dir => emitEtherHost addr dir
  | .etherProto et => emitEthertype et.toUInt32
  | .etherMulticast => emitEtherMulticast
  | .ipBroadcast => emitIpBroadcast
  | .ipMulticast => emitIpMulticast
  | .ip6Multicast => emitIp6Multicast
  | .vlan id => emitVlan id
  | .mpls label => emitMpls label
  | .pppoeDiscovery => emitEthertype 0x8863
  | .pppoeSession sessionId => emitPppoeSession sessionId
  | .ipProtoChain n => emitIp4L4 n
  | .ip6ProtoChain n => emitIp6L4 n
  | .len op value => emitLen op value
  | .byteAccess ba => emitByteAccess ba
  | .inbound => fail "inbound/outbound direction cannot be expressed in eBPF"
  | .outbound => fail "inbound/outbound direction cannot be expressed in eBPF"

/-- One step of the work stack of `emit_expr`. -/
inductive Work where
  | emit (e : Expr)
  | andRight (right : Expr)
  | andDone (leftFailure : List Patch)
  | orRight (right : Expr)
  | orDone (leftSuccess : List Patch) (jaIdx : Nat)
  | notDone

/-- The locals of the loop besides the generator itself. -/
structure Walk where
  work : List Work
  done : List Patches

/-- The body of the loop of `emit_expr`: `step` was popped from the top of `w.work`. -/
def emitStep (step : Work) (w : Walk) : Gen Walk := do
  match step, w.done with
  | .emit (.primitive p), done =>
    let patches ← emitPrimitive p
    return { w with done := patches :: done }
  | .emit (.and left right), _ =>
    return { w with work := .emit left :: .andRight right :: w.work }
  | .emit (.or left right), _ =>
    return { w with work := .emit left :: .orRight right :: w.work }
  | .emit (.not inner), _ =>
    return { w with work := .emit inner :: .notDone :: w.work }
  | .andRight right, leftP :: done =>
    let rightStart ← insnsLen
    resolveAll leftP.success rightStart
    return { w with work := .emit right :: .andDone leftP.failure :: w.work, done := done }
  | .andDone leftFailure, rightP :: done =>
    return { w with done := ⟨rightP.success, concat leftFailure rightP.failure⟩ :: done }
  | .orRight right, leftP :: done =>
    let jaIdx ← push (.ja 0)
    let rightStart ← insnsLen
    resolveAll leftP.failure rightStart
    return { w with work := .emit right :: .orDone leftP.success jaIdx :: w.work, done := done }
  | .orDone leftSuccess jaIdx, rightP :: done =>
    let success := concat (leftSuccess ++ [((), jaIdx)]) rightP.success
    return { w with done := ⟨success, rightP.failure⟩ :: done }
  | .notDone, innerP :: done =>
    let jaIdx ← push (.ja 0)
    let notSuccStart ← insnsLen
    resolveAll innerP.failure notSuccStart
    return { w with done := ⟨[], innerP.success ++ [((), jaIdx)]⟩ :: done }
  | .andRight _, [] => throw (.panic "AND left operand")
  | .andDone _, [] => throw (.panic "AND right operand")
  | .orRight _, [] => throw (.panic "OR left operand")
  | .orDone .., [] => throw (.panic "OR right operand")
  | .notDone, [] => throw (.panic "NOT operand")

/-- The loop; `fuel` bounds its turns. -/
def emitLoop : Nat → Walk → Gen Walk
  | 0, w => match w.work with
    | [] => return w
    | _ :: _ => throw (.panic "out of fuel")
  | fuel + 1, w => match w.work with
    | [] => return w
    | step :: work => do
      let w' ← emitStep step { w with work := work }
      emitLoop fuel w'

/-- Turns the loop makes for an expression: each operator comes back once per operand. -/
def emitFuel : Expr → Nat
  | .and l r => 3 + emitFuel l + emitFuel r
  | .or l r => 3 + emitFuel l + emitFuel r
  | .not e => 2 + emitFuel e
  | .primitive _ => 1

def emitExpr (e : Expr) : Gen Patches := do
  let w ← emitLoop (emitFuel e) ⟨[.emit e], []⟩
  match w.done with
  | patches :: _ => return patches
  | [] => throw (.panic "one result")

/-- Prologue, expression, the two ways to end, and every patch resolved. -/
def emitProgram (e : Expr) : Gen Unit := do
  emitPrologue
  let patches ← emitExpr e
  let acceptIdx ← insnsLen
  pushAll [.mov64Imm r0 xdpPass, .exit]
  let dropIdx ← insnsLen
  pushAll [.mov64Imm r0 xdpDrop, .exit]
  resolveAll patches.success acceptIdx
  resolveAll patches.failure dropIdx

/-- Compile a filter expression into an eBPF program. -/
def compile (e : Expr) (link : LinkType) : Except Error (List Insn) :=
  (emitProgram e (Codegen.new link)).map (fun r => r.2.insns)

end PktBaffle.Extended
