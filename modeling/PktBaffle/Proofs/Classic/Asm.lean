import PktBaffle.Codegen
import PktBaffle.Forward.Patch
import PktBaffle.Forward.Triple

namespace PktBaffle.Proofs.Classic
open Bpf Forward PktBaffle.Classic

abbrev Code := Frag Insn Slot

/-- What the generator knows besides the code: everything it decides by. -/
structure Ctx where
  link : LinkType
  facts : Facts
  xWrites : Nat
  vlanDepth : Nat
  deriving DecidableEq

def ctxOf (cg : Codegen) : Ctx := ⟨cg.link, cg.facts, cg.xWrites, cg.vlanDepth⟩

namespace Ctx

def start (link : LinkType) : Ctx := ctxOf (Codegen.new link)

def netOffset (ctx : Ctx) : Nat := ctx.link.netOffset + ctx.vlanDepth * 4

def etherProtoOffset (ctx : Ctx) : Option Nat :=
  ctx.link.etherProtoOffset.map (· + ctx.vlanDepth * 4)

def withFacts (ctx : Ctx) (f : Facts → Facts) : Ctx := { ctx with facts := f ctx.facts }

/-- Effect of one pushed instruction. -/
def push (ctx : Ctx) (insn : Insn) : Ctx :=
  if writesX insn then
    { ctx with xWrites := ctx.xWrites + 1, facts := { ctx.facts with portsReady := none } }
  else ctx

/-- Effect of pushing the code of a fragment. -/
def after (ctx : Ctx) (c : Code) : Ctx := c.foldl (fun ctx cell => ctx.push cell.insn) ctx

def bump (ctx : Ctx) (b : Bool) : Ctx :=
  { ctx with vlanDepth := if b then ctx.vlanDepth + 1 else ctx.vlanDepth }

def unbump (ctx : Ctx) (b : Bool) : Ctx :=
  { ctx with vlanDepth := if b then ctx.vlanDepth - 1 else ctx.vlanDepth }

/-- The facts of `entry` again, behind code that may have written X. -/
def restore (ctx entry : Ctx) : Ctx :=
  { ctx with facts := if ctx.xWrites ≠ entry.xWrites then { entry.facts with portsReady := none }
      else entry.facts }

end Ctx

/-- Code with the checks left out in it, at positions counted from its start. -/
structure Piece where
  code : Code
  skips : List Skipped

def shift (n : Nat) (s : Skipped) : Skipped := { s with idx := n + s.idx }

namespace Piece

def empty : Piece := ⟨[], []⟩

/-- Nothing emitted, one check on record. -/
def skip (check : Check) (depth : Nat) : Piece := ⟨[], [⟨0, check, depth⟩]⟩

def append (p q : Piece) : Piece := ⟨p.code ++ q.code, p.skips ++ q.skips.map (shift p.code.length)⟩

def seq (p q : Piece) : Piece :=
  ⟨p.code.seq q.code, p.skips ++ q.skips.map (shift p.code.length)⟩

/-- The unconditional jump of `OR` and `NOT`. -/
def jaCell : Exit → Cell Insn Slot := Cell.hole (.ja 0) .ja

def alt (p q : Piece) : Piece :=
  ⟨Frag.alt jaCell p.code q.code, p.skips ++ q.skips.map (shift (p.code.length + 1))⟩

def neg (p : Piece) : Piece := ⟨Frag.neg jaCell p.code, p.skips⟩

end Piece

def ops (insns : List Insn) : Code := insns.map Cell.op

/-- `jeq` that fails through its false branch. -/
def jeqFail (k : UInt32) : Cell Insn Slot := .hole (.jeqK k 0 0xff) .jf .failure

def test (load : Insn) (k : UInt32) : Code := [.op load, jeqFail k]

/-- Keep a fact that is there, else record a new one. -/
def record {α : Type} (old : Option α) (new : α) : Option α := old.or (some new)

def asmEthertype (et : UInt32) (ctx : Ctx) : Piece × Ctx :=
  match ctx.etherProtoOffset with
  | some off =>
    if ctx.facts.ethertype = some et then (.skip (.ethertype et) ctx.vlanDepth, ctx)
    else (⟨test (.ldhAbs (.ofNat off)) et, []⟩,
      ctx.withFacts fun f => { f with ethertype := record f.ethertype et })
  | none => (.empty, ctx)

def asmIp4L4 (n : UInt8) (ctx : Ctx) : Piece × Ctx :=
  let (p, ctx) := asmEthertype 0x0800 ctx
  if ctx.facts.ip4Proto = some n then (p.append (.skip (.ip4Proto n) ctx.vlanDepth), ctx)
  else (p.append ⟨test (.ldbAbs (.ofNat (ctx.netOffset + 9))) n.toUInt32, []⟩,
    ctx.withFacts fun f => { f with ip4Proto := record f.ip4Proto n })

def asmIp6L4 (n : UInt8) (ctx : Ctx) : Piece × Ctx :=
  let (p, ctx) := asmEthertype 0x86dd ctx
  if ctx.facts.ip6Nh = some n then (p.append (.skip (.ip6Nh n) ctx.vlanDepth), ctx)
  else (p.append ⟨test (.ldbAbs (.ofNat (ctx.netOffset + 6))) n.toUInt32, []⟩,
    ctx.withFacts fun f => { f with ip6Nh := record f.ip6Nh n })

/-- Match A against a protocol set. -/
def l4Check : L4Set → Code
  | .one n => [jeqFail n.toUInt32]
  | .tcpOrUdp => [⟨.jeqK 6 0xff 0, some (.jt, .skip 1)⟩, jeqFail 17]

def loadL4 (off : Nat) (want : L4Set) : Code := .op (.ldbAbs (.ofNat off)) :: l4Check want

/-- The fragment test and `X = IHL * 4`. -/
def fragMsh (net : Nat) : Code :=
  [.op (.ldhAbs (.ofNat (net + 6))), .hole (.jsetK 0x1fff 0xff 0) .jt .failure,
    .op (.ldxMsh (.ofNat net))]

def ldx40 : Code := [.op (.ldxImm 40)]

/-- Both IP versions: the IPv6 path stands behind the IPv4 path and its jump. -/
def dualCode (want : L4Set) (etherOff net : Nat) : Code :=
  let v4 := loadL4 (net + 9) want ++ fragMsh net
  let v6 := loadL4 (net + 6) want ++ ldx40
  [.op (.ldhAbs (.ofNat etherOff)), ⟨.jeqK 0x86dd 0xff 0, some (.jt, .skip (v4.length + 2))⟩,
    jeqFail 0x0800] ++ v4 ++ ⟨.ja 0, some (.ja, .skip v6.length)⟩ :: v6

/-- A known IP version: code, checks left out, and the protocol set that is established. -/
def knownPrereqs (want : L4Set) (protoOff : Nat) (ready : Option L4Set) (known : Option UInt8)
    (check : UInt8 → Check) (tail : Code) (depth : Nat) : Piece × L4Set :=
  match ready with
  | some have_ => (⟨loadL4 protoOff want, [⟨0, .ports have_, depth⟩]⟩, want)
  | none =>
    match known with
    | some n =>
      if want.contains n then (⟨tail, [⟨0, check n, depth⟩]⟩, .one n)
      else (⟨loadL4 protoOff want ++ tail, []⟩, want)
    | none => (⟨loadL4 protoOff want ++ tail, []⟩, want)

/-- The link layer says the IP version by itself, or its check is left out. -/
def skipVersion (et : UInt32) (ctx : Ctx) : Piece :=
  if ctx.etherProtoOffset.isSome then .skip (.ethertype et) ctx.vlanDepth else .empty

def asmPortPrologue (want : L4Set) (ctx : Ctx) : Piece × Ctx :=
  let net := ctx.netOffset
  if ctx.facts.ethertype = some 0x0800 then
    let (p, est) := knownPrereqs want (net + 9) ctx.facts.portsReady ctx.facts.ip4Proto .ip4Proto
      (fragMsh net) ctx.vlanDepth
    ((skipVersion 0x0800 ctx).append p, (ctx.after p.code).withFacts fun f =>
      { f with ip4Proto := f.ip4Proto.or est.single, portsReady := some est })
  else if ctx.facts.ethertype = some 0x86dd then
    let (p, est) := knownPrereqs want (net + 6) ctx.facts.portsReady ctx.facts.ip6Nh .ip6Nh
      ldx40 ctx.vlanDepth
    ((skipVersion 0x86dd ctx).append p, (ctx.after p.code).withFacts fun f =>
      { f with ip6Nh := f.ip6Nh.or est.single, portsReady := some est })
  else
    let c := dualCode want (ctx.etherProtoOffset.getD 0) net
    (⟨c, []⟩, (ctx.after c).withFacts fun f => { f with portsReady := some want })

def asmPortPrereqs (want : L4Set) (ctx : Ctx) : Piece × Ctx :=
  match ctx.facts.portsReady with
  | some have_ =>
    if have_.subsetOf want then (.skip (.ports have_) ctx.vlanDepth, ctx)
    else asmPortPrologue want ctx
  | none => asmPortPrologue want ctx

/-- What a primitive tests before its own code, and what an OR may hoist. -/
inductive Guard where
  | none
  | ethertype (et : UInt32)
  | ip4 (n : UInt8)
  | ip6 (n : UInt8)
  | ports (set : L4Set)
  deriving DecidableEq

def asmGuard (g : Guard) (ctx : Ctx) : Piece × Ctx :=
  match g with
  | .none => (.empty, ctx)
  | .ethertype et => asmEthertype et ctx
  | .ip4 n => asmIp4L4 n ctx
  | .ip6 n => asmIp6L4 n ctx
  | .ports set => asmPortPrereqs set ctx

def protoGuard : Proto → Guard
  | .ip => .ethertype 0x0800
  | .ip6 => .ethertype 0x86dd
  | .arp => .ethertype 0x0806
  | .rarp => .ethertype 0x8035
  | .tcp => .ip4 6
  | .udp => .ip4 17
  | .icmp => .ip4 1
  | .igmp => .ip4 2
  | .sctp => .ip4 132
  | .icmp6 => .ip6 58
  | .num n => .ip4 n
  | .ip6Proto n => .ip6 n

def portsGuard (proto : Option Proto) : Guard :=
  match l4setFor proto with
  | .ok set => .ports set
  | .error _ => .none

def guardOf : Primitive → Guard
  | .proto p => protoGuard p
  | .host (.v4 _) _ => .ethertype 0x0800
  | .host (.v6 _) _ => .ethertype 0x86dd
  | .net .. => .ethertype 0x0800
  | .net6 .. => .ethertype 0x86dd
  | .port _ _ proto => portsGuard proto
  | .portRange _ _ _ proto => portsGuard proto
  | .etherProto et => .ethertype et.toUInt32
  | .ipBroadcast => .ethertype 0x0800
  | .ipMulticast => .ethertype 0x0800
  | .ip6Multicast => .ethertype 0x86dd
  | .vlan _ => .ethertype 0x8100
  | .pppoeDiscovery => .ethertype 0x8863
  | .pppoeSession _ => .ethertype 0x8864
  | .ipProtoChain n => .ip4 n
  | .ip6ProtoChain n => .ip6 n
  | _ => .none

/-- One load and one comparison in four directions. -/
def addrCode (load : Nat → List Insn) (k : UInt32) (src dst : Nat) : Dir → Code
  | .src => ops (load src) ++ [jeqFail k]
  | .dst => ops (load dst) ++ [jeqFail k]
  | .srcAndDst => ops (load src) ++ [jeqFail k] ++ (ops (load dst) ++ [jeqFail k])
  | .srcOrDst => ops (load src) ++ [.hole (.jeqK k 0xff 0) .jt .success] ++
      (ops (load dst) ++ [jeqFail k])

/-- A test that fails in several places, in four directions. -/
def bothCode (check : Nat → Code) (src dst first second : Nat) : Dir → Code
  | .src => check src
  | .dst => check dst
  | .srcAndDst => check first ++ check second
  | .srcOrDst => Frag.alt Piece.jaCell (check first) (check second)

def segsCode (off : Nat) : Nat → List UInt16 → Code
  | _, [] => []
  | i, seg :: segs => test (.ldhAbs (.ofNat (off + i * 2))) seg.toUInt32 ++ segsCode off (i + 1) segs

def net6Code (prefixLen addrOff : Nat) : Nat → List UInt16 → Code
  | _, [] => []
  | i, seg :: segs =>
    if prefixLen ≤ i * 16 then []
    else (if i * 16 + 16 ≤ prefixLen then test (.ldhAbs (.ofNat (addrOff + i * 2))) seg.toUInt32
      else
        let mask := ((0xffff : UInt32) <<< UInt32.ofNat (16 - (prefixLen - i * 16))) &&& 0xffff
        [.op (.ldhAbs (.ofNat (addrOff + i * 2))), .op (.andK mask),
          jeqFail (seg.toUInt32 &&& mask)]) ++ net6Code prefixLen addrOff (i + 1) segs

def rangeCode (lo hi : UInt16) (off : Nat) : Code :=
  [.op (.ldhInd (.ofNat off)), .hole (.jgeK lo.toUInt32 0 0xff) .jf .failure,
    .hole (.jgtK hi.toUInt32 0xff 0) .jt .failure]

def macCode (addr : MacAddr) (off : Nat) : Code :=
  test (.ldwAbs (.ofNat off)) (Vm.fromBe4 addr.octets[0]! addr.octets[1]!
    addr.octets[2]! addr.octets[3]!) ++
  test (.ldhAbs (.ofNat (off + 4))) (Vm.fromBe4 0 0 addr.octets[4]! addr.octets[5]!)

def mplsCode (label : Option UInt32) (off : Nat) : Code :=
  [.op (.ldhAbs (.ofNat off)), .hole (.jeqK 0x8847 0xff 0) .jt .success, jeqFail 0x8848] ++
    match label with
    | none => []
    | some lbl => [.op (.ldwAbs (.ofNat (off + 2))), .op (.rshK 12), jeqFail lbl]

/-- A comparison that fails through the branch `cmpInsn` or `cmpXInsn` names. -/
def cmpCell (c : Insn × Slot) : Cell Insn Slot := .hole c.1 c.2 .failure

def aluCode (alu : List (ArithOp × UInt32)) : List Insn :=
  alu.filterMap (fun (op, operand) => (aluInsn op operand).toOption)

def constCode (ba : ByteAccess) (value : UInt32) (net : Nat) : Code :=
  ops ((match ba.layer with
    | .raw => [sizedInsn ba.offset.toUInt32.toNat ba.size false]
    | .net => [sizedInsn (net + ba.offset.toUInt32.toNat) ba.size false]
    | .trans => [.ldxMsh (.ofNat net), sizedInsn (net + ba.offset.toUInt32.toNat) ba.size true]) ++
    aluCode ba.aluOps) ++ [cmpCell (cmpInsn ba.op value)]

def loadSide (layer : Layer) (off : UInt32) (size : AccessSize) (net : Nat) (msh : Bool) :
    List Insn :=
  if layer = .trans then
    (if msh then [.ldxMsh (.ofNat net)] else []) ++ [sizedInsn (net + off.toNat) size true]
  else [sizedInsn (layerOffset net layer off) size false]

def loadCode (ba : ByteAccess) (rhs : ByteLoad) (net : Nat) : Code :=
  ops (if ba.layer = .trans || rhs.layer = .trans then
      loadSide ba.layer ba.offset.toUInt32 ba.size net true ++ aluCode ba.aluOps ++ [.st 0] ++
        loadSide rhs.layer rhs.offset.toUInt32 rhs.size net (ba.layer != .trans) ++ [.ldxMem 0]
    else
      [sizedInsn (layerOffset net ba.layer ba.offset.toUInt32) ba.size false] ++
        aluCode ba.aluOps ++ [.tax] ++
        [sizedInsn (layerOffset net rhs.layer rhs.offset.toUInt32) rhs.size false]) ++
    [cmpCell (cmpXInsn ba.op)]

/-- The code of a primitive behind its guard. It depends on no fact. -/
def body (p : Primitive) (link : LinkType) (depth : Nat) : Code :=
  let net := link.netOffset + depth * 4
  let ether := link.etherProtoOffset.map (· + depth * 4)
  match p with
  | .host (.v4 a) dir => addrCode (fun off => [.ldwAbs (.ofNat off)]) a (net + 12) (net + 16) dir
  | .host (.v6 a) dir => bothCode (fun off => segsCode off 0 a.segments.toList) (net + 8)
      (net + 24) (net + 8) (net + 24) dir
  | .net n dir => addrCode (fun off => [.ldwAbs (.ofNat off), .andK n.mask]) (n.addr &&& n.mask)
      (net + 12) (net + 16) dir
  | .net6 n dir => bothCode (fun off => net6Code n.prefixLen.toNat off 0 n.addr.segments.toList)
      (net + 8) (net + 24) (net + 8) (net + 24) dir
  | .port port dir _ => addrCode (fun off => [.ldhInd (.ofNat off)]) port.toUInt32 net (net + 2) dir
  | .portRange lo hi dir _ => bothCode (rangeCode lo hi) net (net + 2) net (net + 2) dir
  | .etherHost addr dir => bothCode (macCode addr) 6 0 0 6 dir
  | .etherMulticast => [.op (.ldbAbs 0), .hole (.jsetK 0x01 0 0xff) .jf .failure]
  | .ipBroadcast => test (.ldwAbs (.ofNat (net + 16))) 0xffffffff
  | .ipMulticast => [.op (.ldwAbs (.ofNat (net + 16))), .op (.andK 0xf0000000), jeqFail 0xe0000000]
  | .ip6Multicast => test (.ldbAbs (.ofNat (net + 24))) 0xff
  | .vlan (some vid) => [.op (.ldhAbs (.ofNat (ether.getD 14 + 2))), .op (.andK 0x0fff),
      jeqFail vid.toUInt32]
  | .mpls label => mplsCode label (ether.getD 0)
  | .pppoeSession (some id) => test (.ldhAbs (.ofNat (ether.getD 12 + 4))) id.toUInt32
  | .len op value => [.op .ldLen, cmpCell (cmpInsn op value)]
  | .byteAccess ba =>
    match ba.rhs with
    | .const value => constCode ba value net
    | .load rhs => loadCode ba rhs net
  | _ => []

def asmPrimitive (p : Primitive) (ctx : Ctx) : Piece × Ctx :=
  let (g, ctx1) := asmGuard (guardOf p) ctx
  let b := body p ctx.link ctx.vlanDepth
  (g.append ⟨b, []⟩, ctx1.after b)

/-- What `required_guards` computes. -/
def required : Expr → GuardSet
  | .and l r => (required l).union (required r)
  | .or l r => (required l).intersect (required r)
  | .not _ => .default
  | .primitive p => primitiveGuards p

/-- The guards in front of an OR, in the order they are emitted. -/
def hoisted (common : GuardSet) (link : LinkType) : List Guard :=
  (if link.etherProtoOffset.isSome then (common.ethertype.map Guard.ethertype).toList else []) ++
    (common.ip4Proto.map Guard.ip4).toList ++ (common.ip6Nh.map Guard.ip6).toList ++
    (common.portPrereqs.map Guard.ports).toList

def frontGuards (mode : HoistMode) (l r : Expr) (link : LinkType) : List Guard :=
  match mode with
  | .hoist => hoisted ((required l).intersect (required r)) link
  | .plain => []

def asmGuards : List Guard → Ctx → Piece × Ctx
  | [], ctx => (.empty, ctx)
  | g :: gs, ctx =>
    let (p, ctx) := asmGuard g ctx
    let (q, ctx) := asmGuards gs ctx
    (p.append q, ctx)

/-- The leftmost leaf of an AND chain is a `vlan`. -/
def leadsVlan : Expr → Bool
  | .primitive p => p.isVlan
  | .and l _ => leadsVlan l
  | _ => false

/-- The generator without addresses: code that can be put anywhere, and what is known
behind it. -/
def asm (mode : HoistMode) : Expr → Ctx → Piece × Ctx
  | .primitive p, ctx => asmPrimitive p ctx
  | .and l r, ctx =>
    let (pl, ctx) := asm mode l ctx
    let (pr, ctx) := asm mode r (ctx.bump (leadsVlan l))
    (pl.seq pr, ctx.unbump (leadsVlan l))
  | .or l r, ctx =>
    let (ph, ctx0) := asmGuards (frontGuards mode l r ctx.link) ctx
    let (pl, ctx1) := asm mode l ctx0
    let (pr, ctx2) := asm mode r (ctx1.restore ctx0)
    (ph.append (pl.alt pr), ctx2.withFacts (Facts.meet ctx1.facts))
  | .not e, ctx =>
    let (p, ctx1) := asm mode e ctx
    (p.neg, ctx1.restore ctx)

end PktBaffle.Proofs.Classic
