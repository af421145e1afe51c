import PktBaffle.Lexer

namespace PktBaffle.Parsing
open Lexer

/-- Most parentheses a filter may nest. -/
def maxParenDepth : Nat := 9995

/-- Recursion budget for the offset expressions inside `[...]`. -/
def maxOffsetDepth : Nat := 127

/-- What a `(` inside `[...]` charges against the budget. -/
def offsetParenCost : Nat := 4

structure Parser where
  tokens : List Spanned
  pos : Nat
  /-- Recursion depth of offset expressions. -/
  depth : Nat

abbrev Parse := StateT Parser (Except Error)

/-! ### Tokens in messages -/

def debugList (xs : List UInt8) : String :=
  "[" ++ String.intercalate ", " (xs.map fun b => toString b.toNat) ++ "]"

/-- The `Debug` form of a token. -/
def debugToken : Token → String
  | .and => "And" | .or => "Or" | .not => "Not" | .src => "Src" | .dst => "Dst"
  | .host => "Host" | .net => "Net" | .port => "Port" | .portRange => "PortRange"
  | .ether => "Ether" | .broadcast => "Broadcast" | .multicast => "Multicast"
  | .ip => "Ip" | .ip6 => "Ip6" | .arp => "Arp" | .rarp => "Rarp" | .tcp => "Tcp"
  | .udp => "Udp" | .icmp => "Icmp" | .icmp6 => "Icmp6" | .igmp => "Igmp" | .sctp => "Sctp"
  | .proto => "Proto" | .ah => "Ah" | .esp => "Esp" | .pim => "Pim" | .igrp => "Igrp"
  | .vrrp => "Vrrp" | .protochain => "Protochain" | .vlan => "Vlan" | .mpls => "Mpls"
  | .pppoed => "Pppoed" | .pppoes => "Pppoes" | .inbound => "Inbound"
  | .outbound => "Outbound" | .len => "Len" | .mask => "Mask" | .gateway => "Gateway"
  | .less => "Less" | .greater => "Greater" | .lParen => "LParen" | .rParen => "RParen"
  | .lBracket => "LBracket" | .rBracket => "RBracket" | .colon => "Colon" | .minus => "Minus"
  | .plus => "Plus" | .star => "Star" | .slash => "Slash" | .percent => "Percent"
  | .pipe => "Pipe" | .caret => "Caret" | .shl => "Shl" | .shr => "Shr" | .eq => "Eq"
  | .ne => "Ne" | .lt => "Lt" | .le => "Le" | .gt => "Gt" | .ge => "Ge" | .amp => "Amp"
  | .bang => "Bang"
  | .num n => "Num(" ++ toString n.toNat ++ ")"
  | .ipv4 octets parts => "Ipv4(" ++ debugList octets.toList ++ ", " ++ toString parts.toNat ++ ")"
  | .ipv6 addr => "Ipv6(" ++ displayIpv6 addr ++ ")"
  | .mac octets => "Mac(" ++ debugList octets.toList ++ ")"
  | .ident name => "Ident(\"" ++ name ++ "\")"

def debugTok : Option Token → String
  | some t => "Some(" ++ debugToken t ++ ")"
  | none => "None"

/-! ### Reading tokens -/

def peekTok (lookahead : Nat) : Parse (Option Token) := do
  let p ← get
  return p.tokens[p.pos + lookahead]?.map (·.token)

def curTok : Parse (Option Token) := peekTok 0

/-- The current token, stepping over it if there is one. -/
def advance : Parse (Option Token) := do
  let t ← curTok
  if t.isSome then modify fun p => { p with pos := p.pos + 1 }
  return t

def eat (expected : Token) : Parse Bool := do
  if (← curTok) = some expected then
    modify fun p => { p with pos := p.pos + 1 }
    return true
  else return false

def err {α : Type} (message : String) : Parse α := throw (.parseError message)

def expect (expected : Token) : Parse Unit := do
  unless ← eat expected do
    err ("expected " ++ debugToken expected ++ ", got " ++ debugTok (← curTok))

def parseU32 : Parse UInt32 := do
  let tokDesc := debugTok (← curTok)
  match ← advance with
  | some (.num n) =>
    if n > 0xffffffff then err "integer literal too large (max u32)" else return n.toUInt32
  | _ => err ("expected integer literal, got " ++ tokDesc)

def parseU16 : Parse UInt16 := do
  let n ← parseU32
  if n > 0xffff then err "value out of range for a port number (0–65535)"
  else return n.toUInt16

/-! ### Constant offset expressions inside `[...]` -/

/-- The value, if an `i64` holds it. -/
def checked (v : Int) : Option Int :=
  if -2 ^ 63 ≤ v ∧ v < 2 ^ 63 then some v else none

def checkedOr (message : String) (v : Int) : Parse Int :=
  match checked v with
  | some v => pure v
  | none => err message

def overflow (v : Int) : Parse Int := checkedOr "offset expression overflow" v

/-- The loop of a precedence level: while an operator of the level follows, read its right
operand with `next` and apply it. `fuel` bounds the turns. -/
def levelLoop (ops : Token → Option (Int → Int → Parse Int)) (next : Parse Int) :
    Nat → Int → Parse Int
  | fuel, lhs => do
    match (← curTok).bind ops with
    | none => return lhs
    | some apply =>
      match fuel with
      | 0 => throw (.panic "out of fuel")
      | fuel + 1 =>
        let _ ← advance
        let rhs ← next
        levelLoop ops next fuel (← apply lhs rhs)

/-- A precedence level over the operands that `next` reads. -/
def level (ops : Token → Option (Int → Int → Parse Int)) (next : Parse Int) : Parse Int := do
  let lhs ← next
  levelLoop ops next (← get).tokens.length lhs

def mulOps : Token → Option (Int → Int → Parse Int)
  | .star => some fun lhs rhs => overflow (lhs * rhs)
  | .slash => some fun lhs rhs =>
    if rhs = 0 then err "division by zero in offset expression"
    else overflow (lhs.tdiv rhs)
  | _ => none

def addOps : Token → Option (Int → Int → Parse Int)
  | .plus => some fun lhs rhs => overflow (lhs + rhs)
  | .minus => some fun lhs rhs => overflow (lhs - rhs)
  | _ => none

/-- Shifts that lose bits or reach the sign bit are rejected. -/
def shiftOps : Token → Option (Int → Int → Parse Int)
  | .shl => some fun lhs rhs =>
    if 0 ≤ rhs ∧ rhs < 64 then
      let shifted := (lhs * 2 ^ rhs.toNat).bmod (2 ^ 64)
      if shifted >>> rhs.toNat ≠ lhs then err "offset expression overflow" else pure shifted
    else err "shift amount out of range in offset expression"
  | .shr => some fun lhs rhs =>
    if 0 ≤ rhs ∧ rhs < 64 then pure (lhs >>> rhs.toNat)
    else err "shift amount out of range in offset expression"
  | _ => none

def andOps : Token → Option (Int → Int → Parse Int)
  | .amp => some fun lhs rhs => pure (Int.land lhs rhs)
  | _ => none

def xorOps : Token → Option (Int → Int → Parse Int)
  | .caret => some fun lhs rhs => pure (Int.xor lhs rhs)
  | _ => none

def orOps : Token → Option (Int → Int → Parse Int)
  | .pipe => some fun lhs rhs => pure (Int.lor lhs rhs)
  | _ => none

section
variable (atom : Parse Int)

def parseOffsetMul : Parse Int := level mulOps atom
def parseOffsetAdd : Parse Int := level addOps (parseOffsetMul atom)
def parseOffsetShift : Parse Int := level shiftOps (parseOffsetAdd atom)
def parseOffsetAnd : Parse Int := level andOps (parseOffsetShift atom)
def parseOffsetXor : Parse Int := level xorOps (parseOffsetAnd atom)
def parseOffsetOr : Parse Int := level orOps (parseOffsetXor atom)

end

/-- Run `f` one level deeper, charging `cost` against the budget. -/
def nestedOffset (cost : Nat) (f : Parse Int) : Parse Int := do
  modify fun p => { p with depth := p.depth + cost }
  if (← get).depth > maxOffsetDepth then err "offset expression nested too deeply"
  else
    let result ← f
    modify fun p => { p with depth := p.depth - cost }
    return result

/-- An operand of an offset expression; `fuel` bounds the nesting. -/
def parseOffsetAtom : Nat → Parse Int
  | 0 => throw (.panic "out of fuel")
  | fuel + 1 => do
    match ← curTok with
    | some .lParen =>
      let _ ← advance
      let val ← nestedOffset offsetParenCost (parseOffsetOr (parseOffsetAtom fuel))
      expect .rParen
      return val
    | some .minus =>
      let _ ← advance
      let val ← nestedOffset 1 (parseOffsetAtom fuel)
      overflow (-val)
    | _ => return (← parseU32).toNat

def parseOffsetExpr : Parse Int32 := do
  let v ← parseOffsetOr (parseOffsetAtom (maxOffsetDepth + 1))
  if -2 ^ 31 ≤ v ∧ v < 2 ^ 31 then return Int32.ofInt v
  else err ("offset expression out of range: " ++ toString v)

/-! ### Byte access -/

/-- The size behind the `:` of `[offset:size]`; a byte if there is none. -/
def parseSize : Parse AccessSize := do
  if ← eat .colon then
    match ← curTok with
    | some (.num 1) => let _ ← advance; return .byte
    | some (.num 2) => let _ ← advance; return .half
    | some (.num 4) => let _ ← advance; return .word
    | tok => err ("invalid byte-access size " ++ debugTok tok ++ " (must be 1, 2, or 4)")
  else return .byte

/-- `[offset:size]`, which `parse_byte_access` and `parse_byte_load` begin with. -/
def parseBrackets : Parse (Int32 × AccessSize) := do
  expect .lBracket
  let offset ← parseOffsetExpr
  if offset < 0 then
    err ("byte-access offset must be non-negative, got " ++ toString offset.toInt)
  else
    let size ← parseSize
    expect .rBracket
    return (offset, size)

def parseByteLoad (layer : Layer) : Parse ByteLoad := do
  let (offset, size) ← parseBrackets
  return ⟨layer, offset, size⟩

def arithOp : Token → Option ArithOp
  | .amp => some .and
  | .pipe => some .or
  | .caret => some .xor
  | .plus => some .add
  | .minus => some .sub
  | .star => some .mul
  | .slash => some .div
  | .percent => some .mod
  | .shl => some .shl
  | .shr => some .shr
  | _ => none

/-- Zero or more arithmetic operations applied to the loaded value; `fuel` bounds them. -/
def parseAluOps : Nat → List (ArithOp × UInt32) → Parse (List (ArithOp × UInt32))
  | fuel, aluOps => do
    match (← curTok).bind arithOp with
    | none => return aluOps
    | some aop =>
      match fuel with
      | 0 => throw (.panic "out of fuel")
      | fuel + 1 =>
        let _ ← advance
        let operand ← parseU32
        parseAluOps fuel (aluOps ++ [(aop, operand)])

def parseCmpop : Parse CmpOp := do
  let tokDesc := debugTok (← curTok)
  match ← advance with
  | some .eq => return .eq
  | some .ne => return .ne
  | some .lt => return .lt
  | some .le => return .le
  | some .gt => return .gt
  | some .ge => return .ge
  | some .amp => return .bitAnd
  | _ => err ("expected comparison operator (=, !=, <, <=, >, >=, &), got " ++ tokDesc)

/-- The layer a keyword on the right-hand side of a comparison names. -/
def rhsLayer : Token → Option Layer
  | .tcp | .udp | .icmp | .icmp6 => some .trans
  | .ip | .ip6 => some .net
  | .ether => some .raw
  | _ => none

/-- A constant, or another `layer[offset:size]` load. -/
def parseCmpRhs : Parse CmpRhs := do
  match (← curTok).bind rhsLayer, ← peekTok 1 with
  | some layer, some .lBracket =>
    let _ ← advance
    return .load (← parseByteLoad layer)
  | _, _ => return .const (← parseU32)

def parseByteAccess (layer : Layer) : Parse Primitive := do
  let (offset, size) ← parseBrackets
  let aluOps ← parseAluOps (← get).tokens.length []
  let op ← parseCmpop
  let rhs ← parseCmpRhs
  return .byteAccess ⟨layer, offset, size, aluOps, op, rhs⟩

/-! ### Addresses and ports -/

/-- `Ipv4Addr::from` of four octets. -/
def ipv4Of (octets : Vector UInt8 4) : Ipv4Addr :=
  octets.toList.foldl (fun n b => n * 256 + b.toUInt32) 0

def parseIp : Parse IpAddr := do
  let tokDesc := debugTok (← curTok)
  let fail : Parse IpAddr := err ("expected IP address, got " ++ tokDesc)
  match ← advance with
  | some (.ipv4 octs _) => return .v4 (ipv4Of octs)
  | some (.ipv6 a) => return .v6 a
  -- A bare integer is the 32-bit address.
  | some (.num n) => if n ≤ 0xffffffff then return .v4 n.toUInt32 else fail
  | _ => fail

def parseMacAddr : Parse MacAddr := do
  let tokDesc := debugTok (← curTok)
  match ← advance with
  | some (.mac m) => return ⟨m⟩
  | _ => err ("expected MAC address (xx:xx:xx:xx:xx:xx), got " ++ tokDesc)

/-- `!0u32 << (32 - 8 * parts)`: 8 bits for each octet written. -/
def octetMask (parts : UInt8) : Parse UInt32 :=
  if 1 ≤ parts ∧ parts ≤ 4 then return 0xffffffff <<< (32 - 8 * parts.toUInt32)
  else throw (.panic "shift amount out of range")

/-- The length after the `/` of `addr/len`, which the caller just consumed. -/
def parsePrefixLen (family : String) (max : UInt64) : Parse UInt8 := do
  let p ← get
  match p.tokens[p.pos - 1]? with
  | none => throw (.panic "index out of bounds")
  | some slash =>
    match ← advance with
    | some (.num n) =>
      if n ≤ max then return n.toUInt8
      else err (family ++ " prefix length " ++ toString n.toNat ++ " out of range (0–" ++
        toString max.toNat ++ ")")
    | _ => err ("expected a prefix length after '/' at offset " ++ toString slash.offset)

/-- A whole address. `host <ipv6>/128` is the address; any other length is an error. -/
def parseHostAddr (dir : Dir) : Parse Primitive := do
  match ← parseIp with
  | .v4 a => return .host (.v4 a) dir
  | .v6 a =>
    if ← eat .slash then
      if (← parsePrefixLen "IPv6" 128) ≠ 128 then err "mask syntax for networks only"
      else return .host (.v6 a) dir
    else return .host (.v6 a) dir

/-- A short dotted address names the network it starts. -/
def parseHost (dir : Dir) : Parse Primitive := do
  match ← curTok with
  | some (.ipv4 octs parts) =>
    if 2 ≤ parts ∧ parts ≤ 3 then
      let _ ← advance
      return .net ⟨ipv4Of octs, ← octetMask parts⟩ dir
    else parseHostAddr dir
  | _ => parseHostAddr dir

/-- Shift a bare integer left a byte at a time, with its mask, until its top byte is non-zero.
`fuel` bounds the turns. -/
def shiftNet : Nat → UInt32 → UInt32 → Parse (UInt32 × UInt32)
  | fuel, addr, mask =>
    if addr ≠ 0 ∧ addr &&& 0xff000000 = 0 then
      match fuel with
      | 0 => throw (.panic "out of fuel")
      | fuel + 1 => shiftNet fuel (addr <<< 8) (mask <<< 8)
    else return (addr, mask)

/-- `IpNet::from_prefix`. -/
def prefixMask (prefixLen : UInt8) : UInt32 :=
  if prefixLen = 0 then 0 else 0xffffffff <<< (32 - prefixLen.toUInt32)

/-- `u128::from`. -/
def ipv6Nat (a : Ipv6Addr) : Nat := a.segments.toList.foldl (fun n s => n * 65536 + s.toNat) 0

/-- `u128::MAX.checked_shr(n).unwrap_or(0)`. -/
def hostBits (n : UInt8) : Nat := if n < 128 then (2 ^ 128 - 1) >>> n.toNat else 0

def parseNet6 (addr : Ipv6Addr) (dir : Dir) : Parse Primitive := do
  let check (prefixLen : UInt8) : Parse Primitive :=
    if ipv6Nat addr &&& hostBits prefixLen ≠ 0 then
      err ("non-network bits set in \"" ++ displayIpv6 addr ++ "/" ++
        toString prefixLen.toNat ++ "\"")
    else return .net6 ⟨addr, prefixLen⟩ dir
  -- No `/len` is a /128.
  if ← eat .slash then check (← parsePrefixLen "IPv6" 128) else check 128

/-- A net is never silently widened: an address bit outside the mask is an error. -/
def parseNet4 (addr : Ipv4Addr) (parts : UInt8) (dir : Dir) : Parse Primitive := do
  if ← eat .minus then
    err "net range syntax not supported; use CIDR or mask notation"
  else if ← eat .slash then
    let n ← parsePrefixLen "IPv4" 32
    let mask := prefixMask n
    if addr &&& ~~~mask ≠ 0 then
      err ("non-network bits set in \"" ++ displayIpv4 addr ++ "/" ++ toString n.toNat ++ "\"")
    else return .net ⟨addr, mask⟩ dir
  else if ← eat .mask then
    match ← advance with
    | some (.ipv4 m _) =>
      if addr &&& ~~~(ipv4Of m) ≠ 0 then
        err ("non-network bits set in \"" ++ displayIpv4 addr ++ " mask " ++
          displayIpv4 (ipv4Of m) ++ "\"")
      else return .net ⟨addr, ipv4Of m⟩ dir
    | _ => err "expected IPv4 netmask after 'mask'"
  else return .net ⟨addr, ← octetMask parts⟩ dir

def parseNet (dir : Dir) : Parse Primitive := do
  let tokDesc := debugTok (← curTok)
  match ← advance with
  | some (.ipv4 octs parts) => parseNet4 (ipv4Of octs) parts dir
  | some (.num n) =>
    if n ≤ 0xffffffff then
      let (addr, mask) ← shiftNet 4 n.toUInt32 0xffffffff
      return .net ⟨addr, mask⟩ dir
    else err ("expected IPv4 network after 'net', got " ++ tokDesc)
  | some (.ipv6 addr) => parseNet6 addr dir
  | _ => err ("expected IPv4 or IPv6 network after 'net', got " ++ tokDesc)

def parsePort (dir : Dir) (proto : Option Proto) : Parse Primitive := do
  return .port (← parseU16) dir proto

def parsePortrange (dir : Dir) (proto : Option Proto) : Parse Primitive := do
  let lo ← parseU16
  expect .minus
  let hi ← parseU16
  return .portRange lo hi dir proto

/-- `port` or `portrange` of a protocol, or else what `otherwise` reads. -/
def portOr (dir : Dir) (proto : Proto) (otherwise : Parse Primitive) : Parse Primitive := do
  if ← eat .port then parsePort dir (some proto)
  else if ← eat .portRange then parsePortrange dir (some proto)
  else otherwise

/-! ### Direction qualifiers -/

def parseDir : Parse Dir := do
  match ← curTok with
  | some .src =>
    let _ ← advance
    if (← eat .and) && (← curTok) = some .dst then
      let _ ← advance
      return .srcAndDst
    else if (← eat .or) && (← curTok) = some .dst then
      let _ ← advance
      return .srcOrDst
    else return .src
  | some .dst =>
    let _ ← advance
    return .dst
  | _ => return .srcOrDst

/-- `tcp`, `udp` or `sctp` behind a direction qualifier. -/
def parseDirProto (dir : Dir) (proto : Proto) (name : String) : Parse Primitive := do
  let _ ← advance
  portOr dir proto do
    err ("expected 'port' or 'portrange' after '" ++ name ++ "', got " ++ debugTok (← curTok))

def parseAfterDir (dir : Dir) : Parse Primitive := do
  match ← curTok with
  | some .host => let _ ← advance; parseHost dir
  | some .net => let _ ← advance; parseNet dir
  | some .port => let _ ← advance; parsePort dir none
  | some .portRange => let _ ← advance; parsePortrange dir none
  | some .tcp => parseDirProto dir .tcp "tcp"
  | some .udp => parseDirProto dir .udp "udp"
  | some .sctp => parseDirProto dir .sctp "sctp"
  | some (.ipv4 ..) | some (.ipv6 _) | some (.num _) => parseHost dir
  | tok => err ("expected 'host', 'net', 'port', 'portrange', or an IP address after " ++
      "direction qualifier, got " ++ debugTok tok)

/-! ### Primitives -/

/-- The protocol number a keyword stands for. -/
def protoNum : Token → Option UInt8
  | .tcp => some 6
  | .udp => some 17
  | .icmp => some 1
  | .icmp6 => some 58
  | .igmp => some 2
  | .sctp => some 132
  | .ah => some 51
  | .esp => some 50
  | .pim => some 103
  | .igrp => some 9
  | .vrrp => some 112
  | _ => none

def parseProtoNum : Parse UInt8 := do
  match (← curTok).bind protoNum with
  | some n =>
    let _ ← advance
    return n
  | none =>
    let n ← parseU32
    if n > 0xff then err "IP protocol number out of range (0–255)" else return n.toUInt8

/-- The ethertype a keyword stands for. -/
def etherKeyword : Token → Option UInt16
  | .ip => some 0x0800
  | .ip6 => some 0x86dd
  | .arp => some 0x0806
  | .rarp => some 0x8035
  | _ => none

def broadcastMac : MacAddr := ⟨Vector.replicate 6 0xff⟩

/-- What follows `ether`. -/
def parseEtherArg : Parse Primitive := do
  if (← curTok) = some .lBracket then parseByteAccess .raw
  else
    let dir ← parseDir
    match ← curTok with
    | some .host =>
      let _ ← advance
      return .etherHost (← parseMacAddr) dir
    -- The `host` keyword is optional.
    | some (.mac _) => return .etherHost (← parseMacAddr) dir
    | some .broadcast =>
      let _ ← advance
      return .etherHost broadcastMac .dst
    | some .multicast =>
      let _ ← advance
      return .etherMulticast
    | some .proto =>
      let _ ← advance
      match (← curTok).bind etherKeyword with
      | some et =>
        let _ ← advance
        return .etherProto et
      | none => return .etherProto (← parseU32).toUInt16
    | tok =>
      match tok.bind etherKeyword with
      | some et =>
        let _ ← advance
        return .etherProto et
      | none => err ("expected 'host', 'broadcast', 'multicast', 'proto', 'ip', 'ip6', 'arp', " ++
          "'rarp', or a MAC address after 'ether', got " ++ debugTok tok)

def parseEtherPrim : Parse Primitive := do
  let _ ← advance
  parseEtherArg

/-- The rest of `less` and `greater`. -/
def parseLen (op : CmpOp) : Parse Primitive := do return .len op (← parseU32)

/-- A byte access if a bracket follows, or else what `otherwise` reads. -/
def byteAccessOr (layer : Layer) (otherwise : Parse Primitive) : Parse Primitive := do
  if (← curTok) = some .lBracket then parseByteAccess layer else otherwise

/-- An optional number: the argument of `vlan` and `mpls`. -/
def optNum : Parse (Option UInt64) := do
  match ← curTok with
  | some (.num n) =>
    let _ ← advance
    return some n
  | _ => return none

def parseIpPrim : Parse Primitive := byteAccessOr .net do
  if ← eat .proto then return .proto (.num (← parseProtoNum))
  else if ← eat .protochain then return .ipProtoChain (← parseProtoNum)
  else if ← eat .broadcast then return .ipBroadcast
  else if ← eat .multicast then return .ipMulticast
  else return .proto .ip

def parseIp6Prim : Parse Primitive := byteAccessOr .net do
  if ← eat .proto then return .proto (.ip6Proto (← parseProtoNum))
  else if ← eat .protochain then return .ip6ProtoChain (← parseProtoNum)
  else if ← eat .multicast then return .ip6Multicast
  else return .proto .ip6

def parsePppoes : Parse Primitive := do
  match ← curTok with
  | some (.num n) =>
    if n > 0xffff then
      err ("pppoes session ID " ++ toString n.toNat ++ " out of range (max 65535)")
    else
      let _ ← advance
      return .pppoeSession (some n.toUInt16)
  | _ => return .pppoeSession none

/-- The keywords that are a primitive by themselves. -/
def bareKeyword : Token → Option Primitive
  -- Bare `broadcast` and `multicast` are the link-layer ones.
  | .broadcast => some (.etherHost broadcastMac .dst)
  | .multicast => some .etherMulticast
  | .arp => some (.proto .arp)
  | .rarp => some (.proto .rarp)
  | .igmp => some (.proto .igmp)
  | .ah => some (.proto (.num 51))
  | .esp => some (.proto (.num 50))
  | .pim => some (.proto (.num 103))
  | .igrp => some (.proto (.num 9))
  | .vrrp => some (.proto (.num 112))
  | .pppoed => some .pppoeDiscovery
  | .inbound => some .inbound
  | .outbound => some .outbound
  | _ => none

def parsePrimitive : Parse Primitive := do
  match ← curTok with
  | some .less => let _ ← advance; parseLen .le
  | some .greater => let _ ← advance; parseLen .ge
  | some .len => let _ ← advance; parseLen (← parseCmpop)
  | some .ip => let _ ← advance; parseIpPrim
  | some .ip6 => let _ ← advance; parseIp6Prim
  | some .icmp => let _ ← advance; byteAccessOr .trans (return .proto .icmp)
  | some .icmp6 => let _ ← advance; byteAccessOr .trans (return .proto .icmp6)
  | some .sctp => let _ ← advance; portOr .srcOrDst .sctp (return .proto .sctp)
  | some .tcp =>
    let _ ← advance
    byteAccessOr .trans (portOr .srcOrDst .tcp (return .proto .tcp))
  | some .udp =>
    let _ ← advance
    byteAccessOr .trans (portOr .srcOrDst .udp (return .proto .udp))
  | some .proto => let _ ← advance; return .proto (.num (← parseU32).toUInt8)
  | some .vlan => let _ ← advance; return .vlan ((← optNum).map UInt64.toUInt16)
  | some .mpls => let _ ← advance; return .mpls ((← optNum).map UInt64.toUInt32)
  | some .pppoes => let _ ← advance; parsePppoes
  -- The argument is consumed even though it cannot be compiled.
  | some .gateway =>
    let _ ← advance
    let _ ← advance
    err "'gateway' requires DNS resolution and is not supported"
  | some .ether => parseEtherPrim
  | some .src | some .dst => parseAfterDir (← parseDir)
  | some .host => let _ ← advance; parseHost .srcOrDst
  | some .net => let _ ← advance; parseNet .srcOrDst
  | some .port => let _ ← advance; parsePort .srcOrDst none
  | some .portRange => let _ ← advance; parsePortrange .srcOrDst none
  | some (.ipv4 _ parts) =>
    -- A bare short address must not become an exact host.
    if parts < 4 then
      err "a short IPv4 address needs 'host' or 'net' before it (e.g. host 10.1)"
    else parseHost .srcOrDst
  | some (.ipv6 _) => parseHost .srcOrDst
  | some .lBracket => parseByteAccess .raw
  | tok =>
    match tok.bind bareKeyword with
    | some p =>
      let _ ← advance
      return p
    | none => err ("unexpected token " ++ debugTok tok ++ " — expected a filter primitive")

/-! ### Expressions -/

/-- What a level has folded so far, and whether the next operand joins it with `or`. -/
abbrev Left := Option (Expr × Bool)

/-- An enclosing level suspended at a `(`, with the `!`s before it. -/
structure Open where
  left : Left
  nots : Nat

def looksLikePrimitiveStart : Token → Bool
  | .not | .bang | .lParen | .src | .dst | .host | .net | .port | .portRange | .ether
  | .broadcast | .multicast | .ip | .ip6 | .arp | .rarp | .tcp | .udp | .icmp | .icmp6
  | .igmp | .sctp | .proto | .ah | .esp | .pim | .igrp | .vrrp | .vlan | .mpls | .pppoed
  | .pppoes | .inbound | .outbound | .len | .less | .greater | .gateway | .ipv4 .. | .ipv6 _
  | .num _ | .lBracket => true
  | _ => false

/-- The operator after an operand: `some true` for `or`, `some false` for `and` or
juxtaposition, `none` if the expression ends here. -/
def parseLogicalOp : Parse (Option Bool) := do
  if ← eat .or then return some true
  else if ← eat .and then return some false
  else
    match ← curTok with
    | some t => return if looksLikePrimitiveStart t then some false else none
    | none => return none

def eatNot : Parse Bool := do
  if ← eat .not then return true else eat .bang

/-- Count the `!`s before an operand; `fuel` bounds them. -/
def eatNots : Nat → Parse Nat
  | 0 => throw (.panic "out of fuel")
  | fuel + 1 => do
    if ← eatNot then return (← eatNots fuel) + 1 else return 0

/-- `n` negations around an operand. -/
def applyNots : Nat → Expr → Expr
  | 0, e => e
  | n + 1, e => applyNots n (.not e)

/-- Join an operand to what its level has folded so far. -/
def joinLeft : Left → Expr → Expr
  | none, operand => operand
  | some (l, true), operand => .or l operand
  | some (l, false), operand => .and l operand

/-- Where folding an operand leads: the next operand of a level, or the finished tree. -/
inductive Folded where
  | more (left : Left) (stack : List Open)
  | done (e : Expr)

/-- The inner loop of `parse_expr`: fold an operand into its level; while no operator follows,
close the level and fold it, as an operand, into the enclosing one. -/
def foldOperand : List Open → Expr → Nat → Left → Parse Folded
  | stack, operand, nots, left => do
    let expr := joinLeft left (applyNots nots operand)
    match ← parseLogicalOp with
    | some isOr => return .more (some (expr, isOr)) stack
    | none =>
      match stack with
      | [] => return .done expr
      | outer :: stack =>
        expect .rParen
        foldOperand stack expr outer.nots outer.left

/-- The loop of `parse_expr` over operands, with `prim` in the place of `parse_primitive`.
`stack` holds the suspended levels, the innermost first; `fuel` bounds the turns. -/
def exprLoop (prim : Parse Primitive) : Nat → List Open → Left → Parse Expr
  | 0, _, _ => throw (.panic "out of fuel")
  | fuel + 1, stack, left => do
    let nots ← eatNots ((← get).tokens.length + 1)
    if ← eat .lParen then
      if stack.length = maxParenDepth then
        err ("expression nested too deeply (max " ++ toString maxParenDepth ++ " parentheses)")
      else exprLoop prim fuel (⟨left, nots⟩ :: stack) none
    else
      let operand := Expr.primitive (← prim)
      match ← foldOperand stack operand nots left with
      | .more left stack => exprLoop prim fuel stack left
      | .done e => return e

def parseExpr (prim : Parse Primitive) : Parse Expr := do
  exprLoop prim ((← get).tokens.length + 1) [] none

/-- Parse the tokens with a given step for the primitives. -/
def parseWith (prim : Parse Primitive) (tokens : List Spanned) : Except Error Expr := do
  let (expr, p) ← parseExpr prim ⟨tokens, 0, 0⟩
  if p.pos < tokens.length then
    .error (.parseError ("unexpected token " ++ debugTok (p.tokens[p.pos]?.map (·.token)) ++
      " — trailing input"))
  else .ok expr

def parse (tokens : List Spanned) : Except Error Expr := parseWith parsePrimitive tokens

end PktBaffle.Parsing
