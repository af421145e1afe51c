import Mathlib

namespace PktBaffle

/-- Direction qualifier: which address(es) to test. -/
inductive Dir where
  | srcOrDst
  | src
  | dst
  | srcAndDst
  deriving DecidableEq, Repr

/-- An IPv4 address in host order, as `u32::from` gives it. -/
abbrev Ipv4Addr := UInt32

/-- An IPv6 address as its eight 16-bit segments. -/
structure Ipv6Addr where
  segments : Vector UInt16 8
  deriving DecidableEq, Repr

inductive IpAddr where
  | v4 (a : Ipv4Addr)
  | v6 (a : Ipv6Addr)
  deriving DecidableEq, Repr

/-- An IPv4 network. The mask may be non-contiguous. -/
structure IpNet where
  addr : Ipv4Addr
  mask : UInt32
  deriving DecidableEq, Repr

structure Ipv6Net where
  addr : Ipv6Addr
  prefixLen : UInt8
  deriving DecidableEq, Repr

/-- A MAC address as six octets in network byte order. -/
structure MacAddr where
  octets : Vector UInt8 6
  deriving DecidableEq, Repr

inductive Proto where
  | ip
  | ip6
  | arp
  | rarp
  | tcp
  | udp
  | icmp
  | icmp6
  | igmp
  | sctp
  | num (n : UInt8)
  | ip6Proto (n : UInt8)
  deriving DecidableEq, Repr

inductive ArithOp where
  | add
  | sub
  | mul
  | div
  | mod
  | and
  | or
  | xor
  | shl
  | shr
  deriving DecidableEq, Repr

inductive CmpOp where
  | eq
  | ne
  | lt
  | le
  | gt
  | ge
  | bitAnd
  deriving DecidableEq, Repr

inductive AccessSize where
  | byte
  | half
  | word
  deriving DecidableEq, Repr

/-- Where the offset of a byte access is counted from. -/
inductive Layer where
  | raw
  | net
  | trans
  deriving DecidableEq, Repr

structure ByteLoad where
  layer : Layer
  offset : Int32
  size : AccessSize
  deriving DecidableEq

inductive CmpRhs where
  | const (v : UInt32)
  | load (l : ByteLoad)
  deriving DecidableEq

/-- `layer[offset:size]`, the operations applied to the loaded value, and the comparison. -/
structure ByteAccess where
  layer : Layer
  offset : Int32
  size : AccessSize
  aluOps : List (ArithOp × UInt32)
  op : CmpOp
  rhs : CmpRhs
  deriving DecidableEq

/-- A leaf predicate of the filter tree. -/
inductive Primitive where
  | host (addr : IpAddr) (dir : Dir)
  | port (port : UInt16) (dir : Dir) (proto : Option Proto)
  | portRange (lo hi : UInt16) (dir : Dir) (proto : Option Proto)
  | net (net : IpNet) (dir : Dir)
  | net6 (net : Ipv6Net) (dir : Dir)
  | proto (p : Proto)
  | etherHost (addr : MacAddr) (dir : Dir)
  | etherProto (et : UInt16)
  | etherMulticast
  | ipBroadcast
  | ipMulticast
  | ip6Multicast
  | vlan (id : Option UInt16)
  | mpls (label : Option UInt32)
  | pppoeDiscovery
  | pppoeSession (sessionId : Option UInt16)
  | ipProtoChain (n : UInt8)
  | ip6ProtoChain (n : UInt8)
  | len (op : CmpOp) (value : UInt32)
  | inbound
  | outbound
  | byteAccess (ba : ByteAccess)
  deriving DecidableEq

/-- A node of the filter expression tree. -/
inductive Expr where
  | and (l r : Expr)
  | or (l r : Expr)
  | not (e : Expr)
  | primitive (p : Primitive)
  deriving DecidableEq

def Primitive.isVlan : Primitive → Bool
  | .vlan _ => true
  | _ => false

namespace Expr

/-- The leaves from left to right. -/
def leaves : Expr → List Primitive
  | .and l r => l.leaves ++ r.leaves
  | .or l r => l.leaves ++ r.leaves
  | .not e => e.leaves
  | .primitive p => [p]

/-- The ordinary boolean value under a valuation of the leaves. -/
def eval (v : Primitive → Bool) : Expr → Bool
  | .and l r => l.eval v && r.eval v
  | .or l r => l.eval v || r.eval v
  | .not e => !e.eval v
  | .primitive p => v p

/-- No `vlan` primitive anywhere. -/
def vlanFree (e : Expr) : Prop := ∀ p ∈ e.leaves, p.isVlan = false

@[simp] theorem vlanFree_and {l r : Expr} :
    (Expr.and l r).vlanFree ↔ l.vlanFree ∧ r.vlanFree := by
  simp [vlanFree, leaves, or_imp, forall_and]

@[simp] theorem vlanFree_or {l r : Expr} :
    (Expr.or l r).vlanFree ↔ l.vlanFree ∧ r.vlanFree := by
  simp [vlanFree, leaves, or_imp, forall_and]

@[simp] theorem vlanFree_not {e : Expr} : (Expr.not e).vlanFree ↔ e.vlanFree := Iff.rfl

@[simp] theorem vlanFree_primitive {p : Primitive} :
    (Expr.primitive p).vlanFree ↔ p.isVlan = false := by
  simp [vlanFree, leaves]

instance (e : Expr) : Decidable e.vlanFree :=
  inferInstanceAs (Decidable (∀ p ∈ e.leaves, p.isVlan = false))

end Expr

/-- What a stage can end with besides a result: the error the source returns, or a panic of
an `expect`, a `debug_assert!`, an index, a slice or an arithmetic check. -/
inductive Error where
  | lexError (offset : Nat) (ch : Char)
  | parseError (message : String)
  | codegenError (message : String)
  | panic (message : String)
  deriving DecidableEq, Repr

end PktBaffle
