import PktBaffle.ExprOps
import PktBaffle.Optimizer
import PktBaffle.Vm

namespace PktBaffle.Classic
open Bpf

/-- Which link-layer framing wraps the packets. -/
inductive LinkType where
  | ethernet
  | rawIp
  | linuxSll
  deriving DecidableEq, Repr

/-- Byte offset where the IP header begins. -/
def LinkType.netOffset : LinkType → Nat
  | .ethernet => 14
  | .rawIp => 0
  | .linuxSll => 16

/-- Byte offset of the protocol field of the link header, if there is one. -/
def LinkType.etherProtoOffset : LinkType → Option Nat
  | .ethernet => some 12
  | .linuxSll => some 14
  | .rawIp => none

/-- The jump slots that still have to be filled, each with the index of its instruction. -/
abbrev Patch := Slot × Nat

structure Patches where
  success : List Patch
  failure : List Patch

def Patches.default : Patches := ⟨[], []⟩

/-- `a` and `b` in one list, the shorter behind the longer. -/
def concat {α : Type} (a b : List α) : List α := if a.length < b.length then b ++ a else a ++ b

theorem mem_concat {α : Type} {a b : List α} {q : α} : q ∈ concat a b ↔ q ∈ a ++ b := by
  unfold concat
  split
  · simp [or_comm]
  · rfl

/-- The set of L4 protocol numbers a port prologue admits. -/
inductive L4Set where
  | one (n : UInt8)
  | tcpOrUdp
  deriving DecidableEq, Repr

namespace L4Set

def contains (s : L4Set) (p : UInt8) : Bool :=
  match s with
  | .one x => x == p
  | .tcpOrUdp => p == 6 || p == 17

def subsetOf (s other : L4Set) : Bool :=
  match s, other with
  | .one a, o => o.contains a
  | .tcpOrUdp, .tcpOrUdp => true
  | .tcpOrUdp, .one _ => false

/-- Smallest representable set containing both, if one exists. -/
def join (a b : L4Set) : Option L4Set :=
  if a = b then some a
  else if a.subsetOf .tcpOrUdp && b.subsetOf .tcpOrUdp then some .tcpOrUdp
  else none

end L4Set

/-- The `Debug` form of a protocol. -/
def debugProto : Proto → String
  | .ip => "Ip"
  | .ip6 => "Ip6"
  | .arp => "Arp"
  | .rarp => "Rarp"
  | .tcp => "Tcp"
  | .udp => "Udp"
  | .icmp => "Icmp"
  | .icmp6 => "Icmp6"
  | .igmp => "Igmp"
  | .sctp => "Sctp"
  | .num n => "Num(" ++ toString n.toNat ++ ")"
  | .ip6Proto n => "Ip6Proto(" ++ toString n.toNat ++ ")"

/-- Map a port-filter protocol qualifier to its L4 protocol set. -/
def l4setFor : Option Proto → Except Error L4Set
  | none => .ok .tcpOrUdp
  | some .tcp => .ok (.one 6)
  | some .udp => .ok (.one 17)
  | some .sctp => .ok (.one 132)
  | some pr => .error (.codegenError
      ("port filter with proto " ++ debugProto pr ++ " is not supported"))

/-- Predicates proven true on the current fall-through path. -/
structure Facts where
  ethertype : Option UInt32
  ip4Proto : Option UInt8
  ip6Nh : Option UInt8
  portsReady : Option L4Set
  deriving DecidableEq, Repr

def Facts.default : Facts := ⟨none, none, none, none⟩

/-- What two options agree on. -/
def both {α : Type} [DecidableEq α] (x y : Option α) : Option α :=
  match x, y with
  | some p, some q => if p = q then some p else none
  | _, _ => none

/-- Facts valid where two paths join: only what holds on both. -/
def Facts.meet (a b : Facts) : Facts where
  ethertype := both a.ethertype b.ethertype
  ip4Proto := both a.ip4Proto b.ip4Proto
  ip6Nh := both a.ip6Nh b.ip6Nh
  portsReady :=
    match a.portsReady, b.portsReady with
    | some x, some y => L4Set.join x y
    | _, _ => none

/-- Guards an expression requires on every accepting path. -/
structure GuardSet where
  ethertype : Option UInt32
  ip4Proto : Option UInt8
  ip6Nh : Option UInt8
  portPrereqs : Option L4Set
  deriving DecidableEq, Repr

def GuardSet.default : GuardSet := ⟨none, none, none, none⟩

/-- Guards required by a conjunction; on a conflict the left value is kept. -/
def GuardSet.union (g other : GuardSet) : GuardSet where
  ethertype := g.ethertype.or other.ethertype
  ip4Proto := g.ip4Proto.or other.ip4Proto
  ip6Nh := g.ip6Nh.or other.ip6Nh
  portPrereqs := g.portPrereqs.or other.portPrereqs

/-- Guards required by a disjunction: only what both sides require. -/
def GuardSet.intersect (g other : GuardSet) : GuardSet where
  ethertype := both g.ethertype other.ethertype
  ip4Proto := both g.ip4Proto other.ip4Proto
  ip6Nh := both g.ip6Nh other.ip6Nh
  portPrereqs := both g.portPrereqs other.portPrereqs

def etherGuard (et : UInt32) : GuardSet := { GuardSet.default with ethertype := some et }

def ip4Guards (n : UInt8) : GuardSet :=
  { GuardSet.default with ethertype := some 0x0800, ip4Proto := some n }

def ip6Guards (n : UInt8) : GuardSet :=
  { GuardSet.default with ethertype := some 0x86dd, ip6Nh := some n }

def primitiveGuards : Primitive → GuardSet
  | .proto .ip => etherGuard 0x0800
  | .proto .ip6 => etherGuard 0x86dd
  | .proto .arp => etherGuard 0x0806
  | .proto .rarp => etherGuard 0x8035
  | .proto .tcp => ip4Guards 6
  | .proto .udp => ip4Guards 17
  | .proto .icmp => ip4Guards 1
  | .proto .igmp => ip4Guards 2
  | .proto .sctp => ip4Guards 132
  | .proto (.num n) => ip4Guards n
  | .proto .icmp6 => ip6Guards 58
  | .proto (.ip6Proto n) => ip6Guards n
  | .host (.v4 _) _ => etherGuard 0x0800
  | .host (.v6 _) _ => etherGuard 0x86dd
  | .net .. => etherGuard 0x0800
  | .ipBroadcast => etherGuard 0x0800
  | .ipMulticast => etherGuard 0x0800
  | .net6 .. => etherGuard 0x86dd
  | .ip6Multicast => etherGuard 0x86dd
  | .port _ _ proto => { GuardSet.default with portPrereqs := (l4setFor proto).toOption }
  | .portRange _ _ _ proto => { GuardSet.default with portPrereqs := (l4setFor proto).toOption }
  | .etherProto et => etherGuard et.toUInt32
  | .vlan _ => etherGuard 0x8100
  | .pppoeDiscovery => etherGuard 0x8863
  | .pppoeSession _ => etherGuard 0x8864
  | .ipProtoChain n => ip4Guards n
  | .ip6ProtoChain n => ip6Guards n
  -- MPLS matches two ethertypes; the rest imply no guard that could be hoisted.
  | .mpls _ => .default
  | .etherHost .. => .default
  | .etherMulticast => .default
  | .len .. => .default
  | .byteAccess _ => .default
  | .inbound => .default
  | .outbound => .default

/-- A node of the expression that is compiled. Its address is where it stands in the tree. -/
structure Node where
  addr : Expr.Place
  expr : Expr

/-- A child of the node at `addr`. -/
def Node.below (addr : Expr.Place) (c : Expr.Child) (e : Expr) : Node := ⟨addr ++ [c], e⟩

/-- Guard sets of `And` and `Or` nodes already computed, keyed by node address. -/
abbrev GuardMemo := List (Expr.Place × GuardSet)

inductive GuardStep where
  | visit (n : Node)
  | combine (n : Node)

/-- One turn of the loop of `required_guards`. -/
def guardStep (step : GuardStep) (todo : List GuardStep) (done : List GuardSet)
    (memo : GuardMemo) : Except Error (List GuardStep × List GuardSet × GuardMemo) :=
  match step with
  | .visit n =>
    let both (l r : Expr) := .visit (.below n.addr .left l) :: .visit (.below n.addr .right r) ::
      .combine n :: todo
    match memo.lookup n.addr, n.expr with
    | some g, _ => .ok (todo, g :: done, memo)
    | none, .and l r => .ok (both l r, done, memo)
    | none, .or l r => .ok (both l r, done, memo)
    | none, .not _ => .ok (todo, .default :: done, memo)
    | none, .primitive p => .ok (todo, primitiveGuards p :: done, memo)
  | .combine n =>
    match done with
    | r :: l :: done =>
      let g := match n.expr with
        | .and .. => l.union r
        | _ => l.intersect r
      .ok (todo, g :: done, (n.addr, g) :: memo)
    | [_] => .error (.panic "left operand")
    | [] => .error (.panic "right operand")

/-- The loop of `required_guards`; `fuel` bounds its turns. -/
def guardLoop : Nat → List GuardStep → List GuardSet → GuardMemo →
    Except Error (List GuardSet × GuardMemo)
  | _, [], done, memo => .ok (done, memo)
  | 0, _ :: _, _, _ => .error (.panic "out of fuel")
  | fuel + 1, step :: todo, done, memo => do
    let (todo, done, memo) ← guardStep step todo done memo
    guardLoop fuel todo done memo

/-- Nodes of the tree, with the second visit of each operator. -/
def guardFuel : Expr → Nat
  | .and l r => 2 + guardFuel l + guardFuel r
  | .or l r => 2 + guardFuel l + guardFuel r
  | .not _ => 1
  | .primitive _ => 1

def requiredGuards (n : Node) (memo : GuardMemo) : Except Error (GuardSet × GuardMemo) := do
  match ← guardLoop (guardFuel n.expr) [.visit n] [] memo with
  | (g :: _, memo) => .ok (g, memo)
  | ([], _) => .error (.panic "one result")

/-- A check that was left out because of a fact: what is known instead of emitting it. -/
inductive Check where
  | ethertype (et : UInt32)
  | ip4Proto (n : UInt8)
  | ip6Nh (n : UInt8)
  | ports (set : L4Set)
  deriving DecidableEq, Repr

/-- Where a check was left out: the index of the next instruction and the VLAN depth. -/
structure Skipped where
  idx : Nat
  check : Check
  depth : Nat
  deriving DecidableEq, Repr

/-- The generator state. `skipped` is a history of the checks that were left out; nothing
reads it. -/
structure Codegen where
  insns : List Insn
  link : LinkType
  facts : Facts
  xWrites : Nat
  vlanDepth : Nat
  skipped : List Skipped

abbrev Gen := StateT Codegen (Except Error)

def fail {α : Type} (message : String) : Gen α := throw (.codegenError message)

namespace Codegen

/-- RawIp frames have no link-layer header: IPv4 is implicit. -/
def new (link : LinkType) : Codegen where
  insns := []
  link := link
  facts := { Facts.default with ethertype := if link = .rawIp then some 0x0800 else none }
  xWrites := 0
  vlanDepth := 0
  skipped := []

/-- Offset of the network header behind the matched VLAN tags. -/
def netOffset (cg : Codegen) : Nat := cg.link.netOffset + cg.vlanDepth * 4

/-- Offset of the ethertype behind the matched VLAN tags. -/
def etherProtoOffset (cg : Codegen) : Option Nat :=
  cg.link.etherProtoOffset.map (· + cg.vlanDepth * 4)

end Codegen

/-- True for the instructions that write X. -/
def writesX (insn : Insn) : Bool :=
  insn.code &&& 0x07 == bpfLdx || insn.code == bpfMisc ||| bpfTax

/-- Append an instruction; writing X invalidates the transport offset in it. -/
def push (insn : Insn) : Gen Nat := fun cg =>
  let cg' := if writesX insn then
    { cg with xWrites := cg.xWrites + 1, facts := { cg.facts with portsReady := none } } else cg
  .ok (cg.insns.length, { cg' with insns := cg.insns ++ [insn] })

def offset (src dst : Nat) : Except Error UInt8 :=
  if dst ≤ src then .error (.panic "BPF jump target must be forward")
  else if dst - src - 1 > 255 then .error (.codegenError
    "filter expression is too complex: BPF jump offset exceeds 255 instructions")
  else .ok (UInt8.ofNat (dst - src - 1))

/-- Let a patch point to `target`. -/
def resolve (patch : Patch) (target : Nat) : Gen Unit := fun cg => do
  let off ← offset patch.2 target
  .ok ((), { cg with insns := cg.insns.modify patch.2 (·.put patch.1 off.toNat) })

def resolveAll (patches : List Patch) (target : Nat) : Gen Unit :=
  patches.forM (resolve · target)

def pushAll (insns : List Insn) : Gen Unit := insns.forM (fun insn => discard (push insn))

/-- Number of instructions so far. -/
def insnsLen : Gen Nat := do return (← get).insns.length

def modifyFacts (f : Facts → Facts) : Gen Unit := modify fun cg => { cg with facts := f cg.facts }

/-- Put a check that is not emitted on record. -/
def skip (check : Check) : Gen Unit := modify fun cg =>
  { cg with skipped := cg.skipped ++ [⟨cg.insns.length, check, cg.vlanDepth⟩] }

/-- `load; jeq expected`, failing through `jf`: the shape of `check_halfword`, `check_byte`
and `check_word`. -/
def checkLoad (load : Insn) (expected : UInt32) : Gen Patches := do
  let _ ← push load
  let idx ← push (.jeqK expected 0 0xff)
  return ⟨[], [(.jf, idx)]⟩

def checkHalfword (off : Nat) (expected : UInt32) : Gen Patches :=
  checkLoad (.ldhAbs (.ofNat off)) expected

def checkByte (off : Nat) (expected : UInt32) : Gen Patches :=
  checkLoad (.ldbAbs (.ofNat off)) expected

def checkWord (off : Nat) (expected : UInt32) : Gen Patches :=
  checkLoad (.ldwAbs (.ofNat off)) expected

/-- Lower-case hexadecimal, padded to four digits. -/
def hex4 (n : UInt32) : String :=
  let digits := Nat.toDigits 16 n.toNat
  String.ofList (List.replicate (4 - digits.length) '0' ++ digits)

def emitEthertype (et : UInt32) : Gen Patches := do
  let cg ← get
  match cg.etherProtoOffset with
  | some off =>
    if cg.facts.ethertype = some et then
      skip (.ethertype et)
      return .default
    let p ← checkHalfword off et
    -- A path that already pins another ethertype keeps it: behind this check it is dead.
    if cg.facts.ethertype = none then
      modifyFacts fun f => { f with ethertype := some et }
    return p
  | none =>
    if et = 0x0800 then return .default
    else fail ("ethertype 0x" ++ hex4 et ++ " cannot be matched on RawIp captures")

def ip4Guard : Gen Patches := emitEthertype 0x0800

def emitIp4L4 (protoNum : UInt8) : Gen Patches := do
  let p ← ip4Guard
  let cg ← get
  if cg.facts.ip4Proto = some protoNum then
    skip (.ip4Proto protoNum)
    return p
  let q ← checkByte (cg.netOffset + 9) protoNum.toUInt32
  if cg.facts.ip4Proto = none then
    modifyFacts fun f => { f with ip4Proto := some protoNum }
  return ⟨p.success ++ q.success, p.failure ++ q.failure⟩

def emitIp6L4 (nextHdr : UInt8) : Gen Patches := do
  let p ← emitEthertype 0x86dd
  let cg ← get
  if cg.facts.ip6Nh = some nextHdr then
    skip (.ip6Nh nextHdr)
    return p
  let q ← checkByte (cg.netOffset + 6) nextHdr.toUInt32
  if cg.facts.ip6Nh = none then
    modifyFacts fun f => { f with ip6Nh := some nextHdr }
  return ⟨p.success, p.failure ++ q.failure⟩

def emitProto : Proto → Gen Patches
  | .ip => emitEthertype 0x0800
  | .ip6 => emitEthertype 0x86dd
  | .arp => emitEthertype 0x0806
  | .rarp => emitEthertype 0x8035
  | .tcp => emitIp4L4 6
  | .udp => emitIp4L4 17
  | .icmp => emitIp4L4 1
  | .igmp => emitIp4L4 2
  | .sctp => emitIp4L4 132
  | .icmp6 => emitIp6L4 58
  | .num n => emitIp4L4 n
  | .ip6Proto n => emitIp6L4 n

/-- The four directions of an address test that is one load and one comparison: the shape
of `check_addr4` and of the tests in `emit_net` and `emit_port`. -/
def checkAddr (load : Nat → List Insn) (k : UInt32) (srcOff dstOff : Nat) (dir : Dir) :
    Gen Patches := do
  match dir with
  | .src =>
    pushAll (load srcOff)
    let i ← push (.jeqK k 0 0xff)
    return ⟨[], [(.jf, i)]⟩
  | .dst =>
    pushAll (load dstOff)
    let i ← push (.jeqK k 0 0xff)
    return ⟨[], [(.jf, i)]⟩
  | .srcAndDst =>
    pushAll (load srcOff)
    let i1 ← push (.jeqK k 0 0xff)
    pushAll (load dstOff)
    let i2 ← push (.jeqK k 0 0xff)
    return ⟨[], [(.jf, i1), (.jf, i2)]⟩
  | .srcOrDst =>
    -- A matching source jumps past the destination check.
    pushAll (load srcOff)
    let iSrc ← push (.jeqK k 0xff 0)
    pushAll (load dstOff)
    let iDst ← push (.jeqK k 0 0xff)
    return ⟨[(.jt, iSrc)], [(.jf, iDst)]⟩

def checkAddr4 (k : UInt32) (srcOff dstOff : Nat) (dir : Dir) : Gen Patches :=
  checkAddr (fun off => [.ldwAbs (.ofNat off)]) k srcOff dstOff dir

/-- The four directions of a test that fails in several places; `check` returns those. In
`SrcOrDst` the failures of the `first` test lead to the second one: the shape of
`emit_host6`, `emit_net6`, `emit_portrange` and `emit_ether_host`. -/
def checkBoth (check : Nat → Gen (List Patch)) (src dst first second : Nat) (dir : Dir) :
    Gen Patches := do
  match dir with
  | .src => return ⟨[], ← check src⟩
  | .dst => return ⟨[], ← check dst⟩
  | .srcAndDst =>
    let f1 ← check first
    let f2 ← check second
    return ⟨[], f1 ++ f2⟩
  | .srcOrDst =>
    let srcFails ← check first
    let jaIdx ← push (.ja 0)
    let dstStart ← insnsLen
    resolveAll srcFails dstStart
    let f ← check second
    return ⟨[(.ja, jaIdx)], f⟩

/-- Both patch lists, those of the guard in front. -/
def Patches.extend (p q : Patches) : Patches := ⟨p.success ++ q.success, p.failure ++ q.failure⟩

def emitHost4 (addr : Ipv4Addr) (dir : Dir) : Gen Patches := do
  let p ← ip4Guard
  let base := (← get).netOffset
  let q ← checkAddr4 addr (base + 12) (base + 16) dir
  return p.extend q

/-- The loop over the segments from segment `i` on. -/
def checkSegs (off : Nat) : Nat → List UInt16 → Gen (List Patch)
  | _, [] => return []
  | i, seg :: segs => do
    let p ← checkHalfword (off + i * 2) seg.toUInt32
    let rest ← checkSegs off (i + 1) segs
    return p.failure ++ rest

def checkIp6Addr (addr : Ipv6Addr) (off : Nat) : Gen (List Patch) :=
  checkSegs off 0 addr.segments.toList

def emitHost6 (addr : Ipv6Addr) (dir : Dir) : Gen Patches := do
  let p ← emitEthertype 0x86dd
  let base := (← get).netOffset
  let q ← checkBoth (checkIp6Addr addr) (base + 8) (base + 24) (base + 8) (base + 24) dir
  return p.extend q

def emitHost (addr : IpAddr) (dir : Dir) : Gen Patches :=
  match addr with
  | .v4 a => emitHost4 a dir
  | .v6 a => emitHost6 a dir

def emitNet (net : IpNet) (dir : Dir) : Gen Patches := do
  let p ← ip4Guard
  let base := (← get).netOffset
  let masked := net.addr &&& net.mask
  let q ← checkAddr (fun off => [.ldwAbs (.ofNat off), .andK net.mask]) masked (base + 12)
    (base + 16) dir
  return p.extend q

/-- The loop of `check_net6` from segment `i` on; it ends at the first segment behind the
prefix. -/
def checkNet6Segs (prefixLen addrOff : Nat) : Nat → List UInt16 → Gen (List Patch)
  | _, [] => return []
  | i, seg :: segs => do
    let startBit := i * 16
    if startBit ≥ prefixLen then return []
    let endBit := startBit + 16
    let off := addrOff + i * 2
    let _ ← push (.ldhAbs (.ofNat off))
    let idx ← if endBit ≤ prefixLen then push (.jeqK seg.toUInt32 0 0xff)
      else do
        let bits := prefixLen - startBit
        let mask := ((0xffff : UInt32) <<< UInt32.ofNat (16 - bits)) &&& 0xffff
        let _ ← push (.andK mask)
        push (.jeqK (seg.toUInt32 &&& mask) 0 0xff)
    let rest ← checkNet6Segs prefixLen addrOff (i + 1) segs
    return (.jf, idx) :: rest

def checkNet6 (net : Ipv6Net) (addrOff : Nat) : Gen (List Patch) :=
  checkNet6Segs net.prefixLen.toNat addrOff 0 net.addr.segments.toList

def emitNet6 (net : Ipv6Net) (dir : Dir) : Gen Patches := do
  let p ← emitEthertype 0x86dd
  let base := (← get).netOffset
  let q ← checkBoth (checkNet6 net) (base + 8) (base + 24) (base + 8) (base + 24) dir
  return p.extend q

/-- Match A, which holds the protocol byte, against a set; returns the failing slot. -/
def emitL4SetCheck (want : L4Set) : Gen (List Patch) := do
  match want with
  | .one n =>
    let i ← push (.jeqK n.toUInt32 0 0xff)
    return [(.jf, i)]
  | .tcpOrUdp =>
    let iTcp ← push (.jeqK 6 0xff 0)
    let iUdp ← push (.jeqK 17 0 0xff)
    let after ← insnsLen
    resolve (.jt, iTcp) after
    return [(.jf, iUdp)]

/-- Load the protocol byte and match it. -/
def loadL4SetCheck (off : Nat) (want : L4Set) : Gen (List Patch) := do
  let _ ← push (.ldbAbs (.ofNat off))
  emitL4SetCheck want

/-- The fragment test and `X = IHL * 4`; returns the failing slot. -/
def fragAndMsh (netOff : Nat) : Gen (List Patch) := do
  let _ ← push (.ldhAbs (.ofNat (netOff + 6)))
  let iFrag ← push (.jsetK 0x1fff 0xff 0)
  let _ ← push (.ldxMsh (.ofNat netOff))
  return [(.jt, iFrag)]

/-- The prologue on a path that proves the IP version: `known` is the protocol fact and
`protoOff` where the protocol byte is, `tail` what the version needs besides. Returns the
failing slots and the protocol set that is established. -/
def emitKnownPrereqs (want : L4Set) (protoOff : Nat) (ready : Option L4Set)
    (known : Option UInt8) (check : UInt8 → Check) (tail : Gen (List Patch)) :
    Gen (List Patch × L4Set) := do
  match ready with
  | some have_ =>
    -- X and the fragment test are in place from a broader prologue.
    skip (.ports have_)
    let f ← loadL4SetCheck protoOff want
    return (f, want)
  | none =>
    let (f, established) ← match known with
      | some n =>
        if want.contains n then do
          skip (check n)
          pure ([], L4Set.one n)
        else do
          let f ← loadL4SetCheck protoOff want
          pure (f, want)
      | none => do
        let f ← loadL4SetCheck protoOff want
        pure (f, want)
    let t ← tail
    return (f ++ t, established)

/-- The prologue when the IP version is open: the IPv4 path, a jump over the IPv6 path, and
the IPv6 path. -/
def emitDualPrereqs (want : L4Set) (etherOff netOff : Nat) : Gen (List Patch) := do
  let _ ← push (.ldhAbs (.ofNat etherOff))
  let iIsIp6 ← push (.jeqK 0x86dd 0xff 0)
  let iIsIp4 ← push (.jeqK 0x0800 0 0xff)
  let f4 ← loadL4SetCheck (netOff + 9) want
  let ft ← fragAndMsh netOff
  let jaSkipIp6 ← push (.ja 0)
  let ip6Start ← insnsLen
  resolve (.jt, iIsIp6) ip6Start
  let f6 ← loadL4SetCheck (netOff + 6) want
  let _ ← push (.ldxImm 40)
  let portCheckStart ← insnsLen
  resolve (.ja, jaSkipIp6) portCheckStart
  return (.jf, iIsIp4) :: f4 ++ ft ++ f6

/-- The one protocol number a set pins down. -/
def L4Set.single : L4Set → Option UInt8
  | .one n => some n
  | .tcpOrUdp => none

/-- The port prologue where no earlier one suffices: on one IP version if the facts prove
it, else on both. -/
def emitPortPrologue (want : L4Set) (cg : Codegen) : Gen Patches := do
  let netOff := cg.netOffset
  if cg.facts.ethertype = some 0x0800 then
    if cg.etherProtoOffset.isSome then skip (.ethertype 0x0800)
    let (fails, established) ← emitKnownPrereqs want (netOff + 9) cg.facts.portsReady
      cg.facts.ip4Proto .ip4Proto (fragAndMsh netOff)
    modifyFacts fun f =>
      { f with ip4Proto := f.ip4Proto.or established.single, portsReady := some established }
    return ⟨[], fails⟩
  else if cg.facts.ethertype = some 0x86dd then
    if cg.etherProtoOffset.isSome then skip (.ethertype 0x86dd)
    let (fails, established) ← emitKnownPrereqs want (netOff + 6) cg.facts.portsReady
      cg.facts.ip6Nh .ip6Nh (do let _ ← push (.ldxImm 40); return [])
    modifyFacts fun f =>
      { f with ip6Nh := f.ip6Nh.or established.single, portsReady := some established }
    return ⟨[], fails⟩
  else
    match cg.etherProtoOffset with
    | none => throw (.panic "RawIp implies a known-IPv4 path")
    | some etherOff =>
      let fails ← emitDualPrereqs want etherOff netOff
      modifyFacts fun f => { f with portsReady := some want }
      return ⟨[], fails⟩

def emitPortPrereqsSet (want : L4Set) : Gen Patches := do
  let cg ← get
  match cg.facts.portsReady with
  | some have_ =>
    -- An earlier, at least as strict prologue may already have passed.
    if have_.subsetOf want then do
      skip (.ports have_)
      return .default
    else emitPortPrologue want cg
  | none => emitPortPrologue want cg

def emitPortPrereqs (proto : Option Proto) : Gen Patches := do
  emitPortPrereqsSet (← liftM (l4setFor proto))

def emitPort (port : UInt16) (dir : Dir) (proto : Option Proto) : Gen Patches := do
  let p ← emitPortPrereqs proto
  let base := (← get).netOffset
  let q ← checkAddr (fun off => [.ldhInd (.ofNat off)]) port.toUInt32 base (base + 2) dir
  return p.extend q

def checkRange (lo hi : UInt16) (off : Nat) : Gen (List Patch) := do
  let _ ← push (.ldhInd (.ofNat off))
  let iLo ← push (.jgeK lo.toUInt32 0 0xff)
  let iHi ← push (.jgtK hi.toUInt32 0xff 0)
  return [(.jf, iLo), (.jt, iHi)]

def emitPortrange (lo hi : UInt16) (dir : Dir) (proto : Option Proto) : Gen Patches := do
  let p ← emitPortPrereqs proto
  let base := (← get).netOffset
  let q ← checkBoth (checkRange lo hi) base (base + 2) base (base + 2) dir
  return p.extend q

def checkMac (addr : MacAddr) (offset : Nat) : Gen (List Patch) := do
  let o := addr.octets
  let p1 ← checkWord offset (Vm.fromBe4 o[0]! o[1]! o[2]! o[3]!)
  let p2 ← checkHalfword (offset + 4) (Vm.fromBe4 0 0 o[4]! o[5]!)
  return p1.failure ++ p2.failure

def emitEtherHost (addr : MacAddr) (dir : Dir) : Gen Patches := do
  if (← get).link = .rawIp then fail "ether host cannot be used with RawIp link type"
  -- The destination address comes first in the frame and is tested first.
  checkBoth (checkMac addr) 6 0 0 6 dir

def emitEtherMulticast : Gen Patches := do
  if (← get).link = .rawIp then fail "ether multicast cannot be used with RawIp link type"
  let _ ← push (.ldbAbs 0)
  let idx ← push (.jsetK 0x01 0 0xff)
  return ⟨[], [(.jf, idx)]⟩

def emitIpBroadcast : Gen Patches := do
  let p ← ip4Guard
  let q ← checkWord ((← get).netOffset + 16) 0xffffffff
  return ⟨p.success, p.failure ++ q.failure⟩

def emitIpMulticast : Gen Patches := do
  let p ← ip4Guard
  let _ ← push (.ldwAbs (.ofNat ((← get).netOffset + 16)))
  let _ ← push (.andK 0xf0000000)
  let idx ← push (.jeqK 0xe0000000 0 0xff)
  return ⟨p.success, p.failure ++ [(.jf, idx)]⟩

def emitIp6Multicast : Gen Patches := do
  let p ← emitEthertype 0x86dd
  let q ← checkByte ((← get).netOffset + 24) 0xff
  return ⟨p.success, p.failure ++ q.failure⟩

def emitVlan (id : Option UInt16) : Gen Patches := do
  let p ← emitEthertype 0x8100
  match id with
  | none => return p
  | some vid =>
    let tciOff := ((← get).etherProtoOffset).getD 14 + 2
    let _ ← push (.ldhAbs (.ofNat tciOff))
    let _ ← push (.andK 0x0fff)
    let idx ← push (.jeqK vid.toUInt32 0 0xff)
    return ⟨p.success, p.failure ++ [(.jf, idx)]⟩

def emitMpls (label : Option UInt32) : Gen Patches := do
  match (← get).etherProtoOffset with
  | some off =>
    let _ ← push (.ldhAbs (.ofNat off))
    let iUnicast ← push (.jeqK 0x8847 0xff 0)
    let iMcast ← push (.jeqK 0x8848 0 0xff)
    let p : Patches := ⟨[(.jt, iUnicast)], [(.jf, iMcast)]⟩
    match label with
    | none => return p
    | some lbl =>
      let _ ← push (.ldwAbs (.ofNat (off + 2)))
      let _ ← push (.rshK 12)
      let idx ← push (.jeqK lbl 0 0xff)
      return ⟨p.success, p.failure ++ [(.jf, idx)]⟩
  | none => fail "mpls cannot be matched on RawIp captures"

def emitPppoeSession (sessionId : Option UInt16) : Gen Patches := do
  let p ← emitEthertype 0x8864
  match sessionId with
  | none => return p
  | some id =>
    let sidOff := ((← get).etherProtoOffset).getD 12 + 4
    let q ← checkHalfword sidOff id.toUInt32
    return ⟨p.success, p.failure ++ q.failure⟩

/-- The instruction of a comparison with a constant, and the branch that fails. -/
def cmpInsn (op : CmpOp) (value : UInt32) : Insn × Slot :=
  match op with
  | .eq => (.jeqK value 0 0xff, .jf)
  | .ne => (.jeqK value 0xff 0, .jt)
  | .gt => (.jgtK value 0 0xff, .jf)
  | .ge => (.jgeK value 0 0xff, .jf)
  | .lt => (.jgeK value 0xff 0, .jt)
  | .le => (.jgtK value 0xff 0, .jt)
  | .bitAnd => (.jsetK value 0 0xff, .jf)

/-- A holds the right side and X the left: `X op A` in terms of `A op X`. -/
def cmpXInsn (op : CmpOp) : Insn × Slot :=
  match op with
  | .eq => (.jeqX 0 0xff, .jf)
  | .ne => (.jeqX 0xff 0, .jt)
  | .lt => (.jgtX 0 0xff, .jf)
  | .le => (.jgeX 0 0xff, .jf)
  | .gt => (.jgeX 0xff 0, .jt)
  | .ge => (.jgtX 0xff 0, .jt)
  | .bitAnd => (.jsetX 0 0xff, .jf)

def emitCmp (op : CmpOp) (value : UInt32) : Gen Patches := do
  let (insn, failField) := cmpInsn op value
  let idx ← push insn
  return ⟨[], [(failField, idx)]⟩

def emitCmpX (op : CmpOp) : Gen Patches := do
  let (insn, failField) := cmpXInsn op
  let idx ← push insn
  return ⟨[], [(failField, idx)]⟩

def emitLen (op : CmpOp) (value : UInt32) : Gen Patches := do
  let _ ← push .ldLen
  emitCmp op value

/-- The instruction of one ALU operation, or why there is none. -/
def aluInsn (op : ArithOp) (operand : UInt32) : Except Error Insn :=
  match op with
  | .and => .ok (.andK operand)
  | .or => .ok (.orK operand)
  | .xor => .ok (.xorK operand)
  | .add => .ok (.addK operand)
  | .sub => .ok (.subK operand)
  | .mul => .ok (.mulK operand)
  | .div => if operand = 0 then
      .error (.codegenError "division by zero in byte-access expression")
    else .ok (.divK operand)
  | .mod => .error (.codegenError
      "modulo (%) is not supported in classic BPF byte-access expressions")
  | .shl => .ok (.lshK operand)
  | .shr => .ok (.rshK operand)

def emitAluOps (ops : List (ArithOp × UInt32)) : Gen Unit :=
  ops.forM (fun (op, operand) => do
    let insn ← liftM (aluInsn op operand)
    discard (push insn))

/-- The absolute packet offset of `layer` + `offset`. -/
def layerOffset (net : Nat) (layer : Layer) (offset : UInt32) : Nat :=
  match layer with
  | .raw => offset.toNat
  | .net => net + offset.toNat
  | .trans => net + offset.toNat

def sizedInsn (off : Nat) (size : AccessSize) (indirect : Bool) : Insn :=
  match size, indirect with
  | .byte, false => .ldbAbs (.ofNat off)
  | .half, false => .ldhAbs (.ofNat off)
  | .word, false => .ldwAbs (.ofNat off)
  | .byte, true => .ldbInd (.ofNat off)
  | .half, true => .ldhInd (.ofNat off)
  | .word, true => .ldwInd (.ofNat off)

def loadSized (off : Nat) (size : AccessSize) (indirect : Bool) : Gen Unit :=
  discard (push (sizedInsn off size indirect))

def emitByteAccessConst (ba : ByteAccess) (value : UInt32) : Gen Patches := do
  let net := (← get).netOffset
  match ba.layer with
  | .raw =>
    if (← get).link = .rawIp then
      fail "raw link-layer byte access cannot be used with RawIp link type"
    loadSized ba.offset.toUInt32.toNat ba.size false
  | .net => loadSized (net + ba.offset.toUInt32.toNat) ba.size false
  | .trans =>
    let _ ← push (.ldxMsh (.ofNat net))
    loadSized (net + ba.offset.toUInt32.toNat) ba.size true
  emitAluOps ba.aluOps
  emitCmp ba.op value

/-- `lhs op rhs`: the left value waits in X, or in scratch slot 0 when a transport-layer
side needs X for the header length. -/
def emitByteAccessLoad (ba : ByteAccess) (rhs : ByteLoad) : Gen Patches := do
  let net := (← get).netOffset
  if ba.layer = .trans || rhs.layer = .trans then
    if ba.layer = .trans then
      let _ ← push (.ldxMsh (.ofNat net))
      loadSized (net + ba.offset.toUInt32.toNat) ba.size true
    else
      loadSized (layerOffset net ba.layer ba.offset.toUInt32) ba.size false
    emitAluOps ba.aluOps
    let _ ← push (.st 0)
    if rhs.layer = .trans then
      if ba.layer ≠ .trans then
        let _ ← push (.ldxMsh (.ofNat net))
      loadSized (net + rhs.offset.toUInt32.toNat) rhs.size true
    else
      loadSized (layerOffset net rhs.layer rhs.offset.toUInt32) rhs.size false
    let _ ← push (.ldxMem 0)
  else
    loadSized (layerOffset net ba.layer ba.offset.toUInt32) ba.size false
    emitAluOps ba.aluOps
    let _ ← push .tax
    loadSized (layerOffset net rhs.layer rhs.offset.toUInt32) rhs.size false
  emitCmpX ba.op

def emitByteAccess (ba : ByteAccess) : Gen Patches :=
  match ba.rhs with
  | .const value => emitByteAccessConst ba value
  | .load rhs => emitByteAccessLoad ba rhs

def emitPrimitive : Primitive → Gen Patches
  | .proto p => emitProto p
  | .host addr dir => emitHost addr dir
  | .net net dir => emitNet net dir
  | .net6 net dir => emitNet6 net dir
  | .port port dir proto => emitPort port dir proto
  | .portRange lo hi dir proto => emitPortrange lo hi dir proto
  | .etherHost addr dir => emitEtherHost addr dir
  | .etherProto et => emitEthertype et.toUInt32
  | .etherMulticast => emitEtherMulticast
  | .ipBroadcast => emitIpBroadcast
  | .ipMulticast => emitIpMulticast
  | .ip6Multicast => emitIp6Multicast
  | .vlan id => emitVlan id
  | .mpls label => emitMpls label
  | .pppoeDiscovery => emitEthertype 0x8863
  | .pppoeSession sessionId => emitPppoeSession sessionId
  | .ipProtoChain n => emitIp4L4 n
  | .ip6ProtoChain n => emitIp6L4 n
  | .len op value => emitLen op value
  | .inbound => fail "inbound/outbound direction cannot be expressed in standard BPF"
  | .outbound => fail "inbound/outbound direction cannot be expressed in standard BPF"
  | .byteAccess ba => emitByteAccess ba

/-- Emit a hoisted guard, if there is one; returns where it fails. -/
def hoistGuard {α : Type} (guard : Option α) (emit : α → Gen Patches) : Gen (List Patch) :=
  match guard with
  | some a => do
    let p ← emit a
    return p.failure
  | none => return []

/-- Emit the guards in front of an OR. -/
def emitHoist (common : GuardSet) : Gen (List Patch) := do
  -- On RawIp the arms themselves raise the error about other ethertypes.
  let ethertype := if (← get).link.etherProtoOffset.isSome then common.ethertype else none
  let f1 ← hoistGuard ethertype emitEthertype
  let f2 ← hoistGuard common.ip4Proto emitIp4L4
  let f3 ← hoistGuard common.ip6Nh emitIp6L4
  let f4 ← hoistGuard common.portPrereqs emitPortPrereqsSet
  return f1 ++ f2 ++ f3 ++ f4

/-- Guards required by every arm of an OR are emitted once in front of it, so each arm can
leave them out; returns where they fail. -/
def emitOrHoist (left right : Node) (memo : GuardMemo) : Gen (List Patch × GuardMemo) := do
  let (gl, memo) ← liftM (requiredGuards left memo)
  let (gr, memo) ← liftM (requiredGuards right memo)
  let f ← emitHoist (gl.intersect gr)
  return (f, memo)

/-- What the generator does in front of an OR: hoist guards, or nothing. -/
inductive HoistMode where
  | hoist
  | plain
  deriving DecidableEq, Repr

def emitOrFront (mode : HoistMode) (left right : Node) (memo : GuardMemo) :
    Gen (List Patch × GuardMemo) :=
  match mode with
  | .hoist => emitOrHoist left right memo
  | .plain => return ([], memo)

/-- One step of the iterative `emit_expr`. -/
inductive Work where
  | emit (n : Node)
  | andRight (right : Node)
  | andDone (leftFailure : List Patch) (vlanBump : Bool)
  | orRight (right : Node) (hoistFailure : List Patch) (branchFacts : Facts)
      (xWritesBefore : Nat)
  | orDone (leftSuccess : List Patch) (jaIdx : Nat) (leftFacts : Facts)
      (hoistFailure : List Patch)
  | notDone (entryFacts : Facts) (xWritesBefore : Nat)

/-- The locals of the loop besides the generator itself. -/
structure Walk where
  work : List Work
  done : List (Patches × Bool)
  guards : GuardMemo

/-- The facts after an arm whose entry facts come back: without `ports_ready` if X was
written meanwhile. -/
def restore (facts : Facts) (xWritesBefore : Nat) : Gen Unit := modify fun cg =>
  { cg with facts := if cg.xWrites ≠ xWritesBefore then { facts with portsReady := none }
      else facts }

def bumpDepth (vlanBump : Bool) : Gen Unit := modify fun cg =>
  { cg with vlanDepth := if vlanBump then cg.vlanDepth + 1 else cg.vlanDepth }

def unbumpDepth (vlanBump : Bool) : Gen Unit := modify fun cg =>
  { cg with vlanDepth := if vlanBump then cg.vlanDepth - 1 else cg.vlanDepth }

/-- The body of the loop of `emit_expr`: `step` was popped from the top of `w.work`. -/
def emitStep (mode : HoistMode) (step : Work) (w : Walk) : Gen Walk := do
  match step, w.done with
  | .emit ⟨_, .primitive p⟩, done =>
    let patches ← emitPrimitive p
    return { w with done := (patches, p.isVlan) :: done }
  | .emit ⟨addr, .and l r⟩, _ =>
    let left := Node.below addr .left l
    let right := Node.below addr .right r
    return { w with work := .emit left :: .andRight right :: w.work }
  | .emit ⟨addr, .or l r⟩, _ =>
    let left := Node.below addr .left l
    let right := Node.below addr .right r
    let (hoistFailure, guards) ← emitOrFront mode left right w.guards
    let cg ← get
    return { w with
      work := .emit left :: .orRight right hoistFailure cg.facts cg.xWrites :: w.work
      guards := guards }
  | .emit ⟨addr, .not e⟩, _ =>
    let cg ← get
    return { w with work := .emit (.below addr .inner e) :: .notDone cg.facts cg.xWrites :: w.work }
  | .andRight right, (leftP, vlanBump) :: done =>
    let rightStart ← insnsLen
    resolveAll leftP.success rightStart
    bumpDepth vlanBump
    return { w with work := .emit right :: .andDone leftP.failure vlanBump :: w.work, done := done }
  | .andDone leftFailure vlanBump, (rightP, _) :: done =>
    unbumpDepth vlanBump
    return { w with
      done := (⟨rightP.success, concat leftFailure rightP.failure⟩, vlanBump) :: done }
  | .orRight right hoistFailure branchFacts xWritesBefore, (leftP, _) :: done =>
    let leftFacts := (← get).facts
    restore branchFacts xWritesBefore
    let jaIdx ← push (.ja 0)
    let rightStart ← insnsLen
    resolveAll leftP.failure rightStart
    return { w with
      work := .emit right :: .orDone leftP.success jaIdx leftFacts hoistFailure :: w.work
      done := done }
  | .orDone leftSuccess jaIdx leftFacts hoistFailure, (rightP, _) :: done =>
    modifyFacts fun facts => Facts.meet leftFacts facts
    let success := concat (leftSuccess ++ [(.ja, jaIdx)]) rightP.success
    let failure := concat rightP.failure hoistFailure
    return { w with done := (⟨success, failure⟩, false) :: done }
  | .notDone entryFacts xWritesBefore, (innerP, _) :: done =>
    restore entryFacts xWritesBefore
    let jaIdx ← push (.ja 0)
    let notSuccStart ← insnsLen
    resolveAll innerP.failure notSuccStart
    return { w with done := (⟨[], innerP.success ++ [(.ja, jaIdx)]⟩, false) :: done }
  | .andRight _, [] => throw (.panic "AND left operand")
  | .andDone _ _, [] => throw (.panic "AND right operand")
  | .orRight .., [] => throw (.panic "OR left operand")
  | .orDone .., [] => throw (.panic "OR right operand")
  | .notDone .., [] => throw (.panic "NOT operand")

/-- The loop; `fuel` bounds its turns. -/
def emitLoop (mode : HoistMode) : Nat → Walk → Gen Walk
  | 0, w => match w.work with
    | [] => return w
    | _ :: _ => throw (.panic "out of fuel")
  | fuel + 1, w => match w.work with
    | [] => return w
    | step :: work => do
      let w' ← emitStep mode step { w with work := work }
      emitLoop mode fuel w'

/-- Turns the loop makes for an expression: each operator comes back once per operand. -/
def emitFuel : Expr → Nat
  | .and l r => 3 + emitFuel l + emitFuel r
  | .or l r => 3 + emitFuel l + emitFuel r
  | .not e => 2 + emitFuel e
  | .primitive _ => 1

def emitExpr (mode : HoistMode) (e : Expr) : Gen Patches := do
  let w ← emitLoop mode (emitFuel e) ⟨[.emit ⟨[], e⟩], [], []⟩
  match w.done with
  | (patches, _) :: _ => return patches
  | [] => throw (.panic "one result")

/-- The program before the peephole passes: the expression, the two returns, and every
patch resolved. -/
def emitProgram (mode : HoistMode) (e : Expr) : Gen Unit := do
  let patches ← emitExpr mode e
  let acceptIdx ← push (.retK bpfAccept)
  let dropIdx ← push (.retK bpfDrop)
  resolveAll patches.success acceptIdx
  resolveAll patches.failure dropIdx

/-- The generator state at the moment the peephole passes run. -/
def emitted (mode : HoistMode) (e : Expr) (link : LinkType) : Except Error Codegen :=
  (emitProgram mode e (Codegen.new link)).map Prod.snd

/-- `compile` with a choice of what stands in front of an OR. -/
def compileWith (mode : HoistMode) (e : Expr) (link : LinkType) : Except Error (List Insn) :=
  (emitted mode e link).map (fun cg => Optimizer.optimize cg.insns)

/-- Compile a filter expression into a classic BPF program. -/
def compile (e : Expr) (link : LinkType) : Except Error (List Insn) := compileWith .hoist e link

end PktBaffle.Classic
