import PktBaffle.Net

namespace PktBaffle.Lexer

inductive Token where
  | and | or | not
  | src | dst
  | host | net | port | portRange
  | ether | broadcast | multicast
  | ip | ip6 | arp | rarp | tcp | udp | icmp | icmp6 | igmp | sctp | proto
  | ah | esp | pim | igrp | vrrp
  | protochain
  | vlan | mpls | pppoed | pppoes
  | inbound | outbound
  | len
  | mask
  | gateway
  | less | greater
  | lParen | rParen | lBracket | rBracket | colon | minus
  | plus | star | slash | percent | pipe | caret | shl | shr
  | eq | ne | lt | le | gt | ge | amp | bang
  | num (n : UInt64)
  /-- A dotted address zero-padded to four octets, and how many octets were written. -/
  | ipv4 (octets : Vector UInt8 4) (parts : UInt8)
  | ipv6 (addr : Ipv6Addr)
  | mac (octets : Vector UInt8 6)
  | ident (name : String)
  deriving DecidableEq, Repr

/-- A token with its byte offset in the source string. -/
structure Spanned where
  token : Token
  offset : Nat
  deriving DecidableEq, Repr

/-- `bytes[i]`. -/
def byteAt (src : List UInt8) (i : Nat) : Except Error UInt8 :=
  match src[i]? with
  | some b => .ok b
  | none => .error (.panic "index out of bounds")

/-- `str::is_char_boundary`: the ends, and every byte that does not continue a character. -/
def isCharBoundary (src : List UInt8) (i : Nat) : Bool :=
  i == 0 || i == src.length || (src[i]?.map fun b => b < 0x80 || 0xc0 ≤ b).getD false

/-- `src[a..b]`. -/
def slice (src : List UInt8) (a b : Nat) : Except Error (List UInt8) :=
  if a ≤ b ∧ b ≤ src.length ∧ isCharBoundary src a ∧ isCharBoundary src b then
    .ok ((src.drop a).take (b - a))
  else .error (.panic "slice out of range or off a character boundary")

/-- The position behind the run of bytes from `pos` on that satisfy `p`. -/
def scan (p : UInt8 → Bool) (src : List UInt8) (pos : Nat) : Nat :=
  pos + ((src.drop pos).takeWhile p).length

def isWhitespace (b : UInt8) : Bool := [0x20, 0x09, 0x0a, 0x0c, 0x0d].contains b

def isAlnum (b : UInt8) : Bool := isAlpha b || isDigit b

def pairTokens : List ((UInt8 × UInt8) × Token) :=
  [((ascii '!', ascii '='), .ne), ((ascii '<', ascii '='), .le), ((ascii '>', ascii '='), .ge),
   ((ascii '&', ascii '&'), .and), ((ascii '|', ascii '|'), .or),
   ((ascii '<', ascii '<'), .shl), ((ascii '>', ascii '>'), .shr)]

def singleTokens : List (UInt8 × Token) :=
  [(ascii '(', .lParen), (ascii ')', .rParen), (ascii '[', .lBracket), (ascii ']', .rBracket),
   (ascii '-', .minus), (ascii '+', .plus), (ascii '*', .star), (ascii '/', .slash),
   (ascii '%', .percent), (ascii '|', .pipe), (ascii '^', .caret), (ascii '&', .amp),
   (ascii '!', .bang), (ascii '=', .eq), (ascii '<', .lt), (ascii '>', .gt)]

def keywords : List (String × Token) :=
  [("and", .and), ("or", .or), ("not", .not), ("src", .src), ("dst", .dst), ("host", .host),
   ("net", .net), ("port", .port), ("portrange", .portRange), ("ether", .ether),
   ("broadcast", .broadcast), ("multicast", .multicast), ("ip", .ip), ("ip6", .ip6),
   ("arp", .arp), ("rarp", .rarp), ("tcp", .tcp), ("udp", .udp), ("icmp", .icmp),
   ("icmp6", .icmp6), ("igmp", .igmp), ("sctp", .sctp), ("proto", .proto), ("less", .less),
   ("greater", .greater), ("ah", .ah), ("esp", .esp), ("pim", .pim), ("igrp", .igrp),
   ("vrrp", .vrrp), ("vlan", .vlan), ("mpls", .mpls), ("pppoed", .pppoed),
   ("pppoes", .pppoes), ("protochain", .protochain), ("inbound", .inbound),
   ("outbound", .outbound), ("len", .len), ("mask", .mask), ("gateway", .gateway),
   -- Named integer constants: header field offsets, TCP flag bits, ICMP types.
   ("tcpflags", .num 13), ("icmptype", .num 0), ("icmpcode", .num 1), ("icmp6type", .num 0),
   ("icmp6code", .num 1), ("tcp-fin", .num 0x01), ("tcp-syn", .num 0x02),
   ("tcp-rst", .num 0x04), ("tcp-push", .num 0x08), ("tcp-ack", .num 0x10),
   ("tcp-urg", .num 0x20), ("tcp-ece", .num 0x40), ("tcp-cwr", .num 0x80),
   ("icmp-echoreply", .num 0), ("icmp-unreach", .num 3), ("icmp-sourcequench", .num 4),
   ("icmp-redirect", .num 5), ("icmp-echo", .num 8), ("icmp-routeradvert", .num 9),
   ("icmp-routersolicit", .num 10), ("icmp-timxceed", .num 11), ("icmp-paramprob", .num 12),
   ("icmp-tstamp", .num 13), ("icmp-tstampreply", .num 14), ("icmp-ireq", .num 15),
   ("icmp-ireqreply", .num 16), ("icmp-maskreq", .num 17), ("icmp-maskreply", .num 18)]

def keywordOrIdent (s : String) : Token := (keywords.lookup s).getD (.ident s)

def colons (s : List UInt8) : Nat := s.count (ascii ':')

/-- Two colons in a row, or two anywhere. -/
def looksLikeIpv6 (s : List UInt8) : Bool := 2 ≤ colons s

def looksLikeMac (s : List UInt8) : Bool := colons s == 5

def parseMac (s : List UInt8) : Option (Vector UInt8 6) := do
  let parts := s.splitOn (ascii ':')
  if parts.length ≠ 6 then none
  else
    let octets ← parts.mapM (fromStrRadix 16 255)
    some (Vector.ofFn fun i => UInt8.ofNat (octets.getD i.val 0))

def invalidNumber (raw : List UInt8) (offset : Nat) (why : String) : Error :=
  .parseError ("invalid number '" ++ text raw ++ "' at offset " ++ toString offset ++ ": " ++ why)

/-- The digits of an integer literal and their radix. -/
def radixOf : List UInt8 → List UInt8 × Nat
  | [] => ([], 10)
  | [b] => ([b], 10)
  | a :: b :: rest =>
    if a = ascii '0' then
      if b = ascii 'x' ∨ b = ascii 'X' then (rest, 16) else (b :: rest, 8)
    else (a :: b :: rest, 10)

/-- The loop of `parse_int` over the digits; `n` is what they have come to so far. -/
def parseDigits (invalid : String → Error) (radix : Nat) :
    List UInt8 → Nat → Except Error Nat
  | [], n => .ok n
  | c :: rest, n =>
    match toDigit radix c with
    | none => .error (invalid (if radix = 8 ∧ isDigit c then "contains non-octal digit"
        else "contains invalid digit"))
    | some d =>
      if n * radix + d > 0xffffffff then .error (invalid "overflows 32 bits")
      else parseDigits invalid radix rest (n * radix + d)

/-- `0x` hexadecimal, a leading `0` octal, otherwise decimal; at most 32 bits. -/
def parseInt (raw : List UInt8) (offset : Nat) : Except Error UInt64 := do
  let (digits, radix) := radixOf raw
  if digits = [] then .error (invalidNumber raw offset "expected digits")
  else
    let n ← parseDigits (invalidNumber raw offset) radix digits 0
    return UInt64.ofNat n

/-- Two to four decimal octets, zero-padded. -/
def parseIpv4 (raw : List UInt8) (offset : Nat) : Except Error Token :=
  let parts := raw.splitOn (ascii '.')
  match if parts.length ≤ 4 then parts.mapM (fromStrRadix 10 255) else none with
  | some octets =>
    .ok (.ipv4 (Vector.ofFn fun i => UInt8.ofNat (octets.getD i.val 0)) (.ofNat parts.length))
  | none => .error (.parseError
      ("invalid IPv4 address '" ++ text raw ++ "' at offset " ++ toString offset))

def parseNumlike (raw : List UInt8) (offset : Nat) : Except Error Token :=
  if raw.contains (ascii '.') then parseIpv4 raw offset
  else
    match if looksLikeIpv6 raw then Ipv6Addr.fromStr raw else none with
    | some addr => .ok (.ipv6 addr)
    | none =>
      match if looksLikeMac raw then parseMac raw else none with
      | some mac => .ok (.mac mac)
      | none => return .num (← parseInt raw offset)

/-- What a turn of the loop pushes, if anything, and where the next one starts. -/
abbrev Turn := Option Spanned × Nat

/-- An IPv6 address that reaches from `start` over the hex digits, colons and dots from `pos`
on, if `accepts` lets the candidate through. -/
def lexIpv6 (accepts : List UInt8 → Bool) (src : List UInt8) (start pos : Nat) :
    Except Error (Option Turn) := do
  let tmp := scan (fun b => isHexDigit b || b == ascii ':' || b == ascii '.') src pos
  let candidate ← slice src start tmp
  return (if accepts candidate then Ipv6Addr.fromStr candidate else none).map fun addr =>
    (some ⟨.ipv6 addr, start⟩, tmp)

/-- `:`, or the IPv6 address that a leading `::` begins. -/
def lexColon (src : List UInt8) (pos : Nat) : Except Error Turn := do
  let addr ← if src[pos + 1]? = some (ascii ':') then lexIpv6 (fun _ => true) src pos pos
    else pure none
  return addr.getD (some ⟨.colon, pos⟩, pos + 1)

def lexHex (src : List UInt8) (start : Nat) : Except Error Turn := do
  let pos := scan isHexDigit src (start + 2)
  let n ← parseInt (← slice src start pos) start
  return (some ⟨.num n, start⟩, pos)

/-- The end of `n` groups `:h` or `:hh` from `pos` on. -/
def macGroups (src : List UInt8) : Nat → Nat → Option Nat
  | 0, pos => some pos
  | n + 1, pos =>
    if src[pos]? = some (ascii ':') then
      let tmp := scan isHexDigit src (pos + 1)
      if tmp = pos + 1 ∨ tmp - (pos + 1) > 2 then none else macGroups src n tmp
    else none

/-- A MAC address whose first group ends at `pos`. A colon behind the sixth group means that
it is an IPv6 address instead. -/
def lexMac (src : List UInt8) (start pos : Nat) : Except Error (Option Turn) := do
  match macGroups src 5 pos with
  | none => return none
  | some tmp =>
    if src[tmp]? = some (ascii ':') then return none
    else
      let candidate ← slice src start tmp
      return (parseMac candidate).map fun mac => (some ⟨.mac mac, start⟩, tmp)

/-- A number, an IPv4 address, or a MAC or IPv6 address that starts with a digit. -/
def lexDigit (src : List UInt8) (start : Nat) : Except Error Turn := do
  let pos := scan (fun b => isAlnum b || b == ascii '.') src start
  let mac ← if src[pos]? = some (ascii ':') then lexMac src start pos else pure none
  match mac with
  | some turn => return turn
  | none =>
    let addr ← if src[pos]? = some (ascii ':') then lexIpv6 looksLikeIpv6 src start pos
      else pure none
    match addr with
    | some turn => return turn
    | none =>
      let tok ← parseNumlike (← slice src start pos) start
      return (some ⟨tok, start⟩, pos)

/-- Length of the word at the head of `bs`; a hyphen belongs to it when a letter follows. -/
def wordLen : List UInt8 → Nat
  | [] => 0
  | b :: rest =>
    if isAlnum b || b == ascii '_' || b == ascii ':' || b == ascii '.' ||
        (b == ascii '-' && (rest.head?.map isAlpha).getD false) then
      1 + wordLen rest
    else 0

/-- A keyword, an identifier, or a MAC or IPv6 address that starts with a letter. -/
def lexWord (src : List UInt8) (start : Nat) : Except Error Turn := do
  let pos := start + wordLen (src.drop start)
  let word ← slice src start pos
  match if looksLikeIpv6 word then Ipv6Addr.fromStr word else none with
  | some addr => return (some ⟨.ipv6 addr, start⟩, pos)
  | none =>
    match if looksLikeMac word then parseMac word else none with
    | some mac => return (some ⟨.mac mac, start⟩, pos)
    | none => return (some ⟨keywordOrIdent (text word), start⟩, pos)

/-- The first character of UTF-8 text. -/
def firstChar : List UInt8 → Option Char
  | [] => none
  | a :: rest =>
    let cont (i : Nat) := ((rest.getD i 0).toNat % 64)
    some (Char.ofNat (
      if a < 0x80 then a.toNat
      else if a < 0xe0 then a.toNat % 32 * 64 + cont 0
      else if a < 0xf0 then a.toNat % 16 * 4096 + cont 0 * 64 + cont 1
      else a.toNat % 8 * 262144 + cont 0 * 4096 + cont 1 * 64 + cont 2))

/-- One turn of the loop of `lex` at a position inside the source. -/
def lexStep (src : List UInt8) (pos : Nat) : Except Error Turn := do
  let b ← byteAt src pos
  if isWhitespace b then return (none, pos + 1)
  else
    match (src[pos + 1]?).bind (fun c => pairTokens.lookup (b, c)) with
    | some t => return (some ⟨t, pos⟩, pos + 2)
    | none =>
      match singleTokens.lookup b with
      | some t => return (some ⟨t, pos⟩, pos + 1)
      | none =>
        if b = ascii ':' then lexColon src pos
        else if b = ascii '0' ∧ (src[pos + 1]? = some (ascii 'x') ∨
            src[pos + 1]? = some (ascii 'X')) then lexHex src pos
        else if isDigit b then lexDigit src pos
        else if isAlpha b ∨ b = ascii '_' then lexWord src pos
        else
          let rest ← slice src pos src.length
          .error (.lexError pos ((firstChar rest).getD '?'))

/-- The loop of `lex`; `fuel` bounds its turns. -/
def lexLoop (src : List UInt8) : Nat → Nat → List Spanned → Except Error (List Spanned)
  | fuel, pos, tokens =>
    if pos < src.length then
      match fuel with
      | 0 => .error (.panic "out of fuel")
      | fuel + 1 => do
        let (tok, pos) ← lexStep src pos
        lexLoop src fuel pos (tokens ++ tok.toList)
    else .ok tokens

/-- Tokenise UTF-8 text. -/
def lexBytes (src : List UInt8) : Except Error (List Spanned) := lexLoop src src.length 0 []

def lex (src : String) : Except Error (List Spanned) := lexBytes src.toUTF8.data.toList

end PktBaffle.Lexer
