import PktBaffle.Ast

namespace PktBaffle

/-- The byte of an ASCII character. -/
def ascii (c : Char) : UInt8 := UInt8.ofNat c.toNat

/-- The characters of a string of ASCII bytes. -/
def text (bs : List UInt8) : String := String.ofList (bs.map fun b => Char.ofNat b.toNat)

def isDigit (b : UInt8) : Bool := ascii '0' ≤ b && b ≤ ascii '9'

def isAlpha (b : UInt8) : Bool :=
  (ascii 'a' ≤ b && b ≤ ascii 'z') || (ascii 'A' ≤ b && b ≤ ascii 'Z')

/-- `char::to_digit`. -/
def toDigit (radix : Nat) (b : UInt8) : Option Nat :=
  let d :=
    if isDigit b then b.toNat - 48
    else if ascii 'a' ≤ b && b ≤ ascii 'z' then b.toNat - 87
    else if ascii 'A' ≤ b && b ≤ ascii 'Z' then b.toNat - 55
    else radix
  if d < radix then some d else none

def isHexDigit (b : UInt8) : Bool := (toDigit 16 b).isSome

/-- The number a run of digits denotes. -/
def digitsValue (radix : Nat) (digits : List UInt8) : Nat :=
  digits.foldl (fun n b => n * radix + (toDigit radix b).getD 0) 0

/-- `from_str_radix` of an unsigned type with the given largest value: an optional `+`, then
one or more digits. -/
def fromStrRadix (radix max : Nat) (s : List UInt8) : Option Nat :=
  let digits := if s.head? = some (ascii '+') then s.tail else s
  if digits ≠ [] ∧ digits.all (fun b => (toDigit radix b).isSome) ∧
      digitsValue radix digits ≤ max then
    some (digitsValue radix digits)
  else none

/-- `Parser::read_number` of `std::net`: all the digits that follow, at most `maxDigits`. -/
def readNumber (radix maxDigits max : Nat) (allowZeroPrefix : Bool) (s : List UInt8) :
    Option (Nat × List UInt8) :=
  let digits := s.takeWhile fun b => (toDigit radix b).isSome
  if digits = [] ∨ maxDigits < digits.length then none
  else if !allowZeroPrefix && digits.head? = some (ascii '0') && 1 < digits.length then none
  else if max < digitsValue radix digits then none
  else some (digitsValue radix digits, s.drop digits.length)

/-- `read_given_char`. -/
def readGivenChar (c : UInt8) : List UInt8 → Option (List UInt8)
  | b :: rest => if b = c then some rest else none
  | [] => none

/-- The octet of an embedded IPv4 address, without leading zeros. -/
def readOctet (s : List UInt8) : Option (Nat × List UInt8) := readNumber 10 3 255 false s

/-- `read_ipv4_addr`, as its two 16-bit halves. -/
def readIpv4Addr (s : List UInt8) : Option ((UInt16 × UInt16) × List UInt8) := do
  let (a, s) ← readOctet s
  let (b, s) ← readOctet (← readGivenChar (ascii '.') s)
  let (c, s) ← readOctet (← readGivenChar (ascii '.') s)
  let (d, s) ← readOctet (← readGivenChar (ascii '.') s)
  return ((UInt16.ofNat (a * 256 + b), UInt16.ofNat (c * 256 + d)), s)

/-- `read_groups`: at most `limit` groups, the last two of which may be an embedded IPv4
address. Returns the groups and whether such an address was read. -/
def readGroups (first : Bool) : Nat → List UInt8 → (List UInt16 × Bool) × List UInt8
  | 0, s => (([], false), s)
  | limit + 1, s =>
    match if first then some s else readGivenChar (ascii ':') s with
    | none => (([], false), s)
    | some t =>
      match if 0 < limit then readIpv4Addr t else none with
      | some ((hi, lo), rest) => (([hi, lo], true), rest)
      | none =>
        match readNumber 16 4 0xffff true t with
        | none => (([], false), s)
        | some (g, rest) =>
          let ((groups, v4), rest) := readGroups false limit rest
          ((UInt16.ofNat g :: groups, v4), rest)

def Ipv6Addr.ofList (segments : List UInt16) : Ipv6Addr :=
  ⟨Vector.ofFn fun i => segments.getD i.val 0⟩

/-- `Ipv6Addr::from_str`: the textual forms of an IPv6 address, with at most one `::` and an
optional IPv4 tail, and nothing behind it. -/
def Ipv6Addr.fromStr (s : List UInt8) : Option Ipv6Addr := do
  let ((head, v4), s) := readGroups true 8 s
  if head.length = 8 then
    if s = [] then some (.ofList head) else none
  else if v4 then none
  else
    let s ← readGivenChar (ascii ':') (← readGivenChar (ascii ':') s)
    let ((tail, _), s) := readGroups true (8 - (head.length + 1)) s
    if s = [] then
      some (.ofList (head ++ List.replicate (8 - head.length - tail.length) 0 ++ tail))
    else none

/-- Lower-case hexadecimal without padding. -/
def hex (n : UInt16) : String := String.ofList (Nat.toDigits 16 n.toNat)

/-- The address as its `Display` form writes it. -/
def displayIpv4 (a : Ipv4Addr) : String :=
  let octet (shift : Nat) := toString (a.toNat / 2 ^ shift % 256)
  octet 24 ++ "." ++ octet 16 ++ "." ++ octet 8 ++ "." ++ octet 0

/-- The longest run of zero segments from index `i` on, the first one among equals. -/
def longestZeros : Nat → List UInt16 → Nat × Nat
  | _, [] => (0, 0)
  | i, s :: rest =>
    let run := ((s :: rest).takeWhile (· == 0)).length
    let later := longestZeros (i + 1) rest
    if later.2 ≤ run then (i, run) else later

/-- The address as its `Display` and `Debug` forms write it: an IPv4-mapped address with a
dotted tail, and otherwise the longest run of two or more zero segments as `::`. -/
def displayIpv6 (a : Ipv6Addr) : String :=
  let segs := a.segments.toList
  let (start, len) := longestZeros 0 segs
  let join (ss : List UInt16) := String.intercalate ":" (ss.map hex)
  match segs with
  | [0, 0, 0, 0, 0, 0xffff, hi, lo] =>
    "::ffff:" ++ displayIpv4 (UInt32.ofNat (hi.toNat * 65536 + lo.toNat))
  | _ =>
    if 1 < len then join (segs.take start) ++ "::" ++ join (segs.drop (start + len))
    else join segs

end PktBaffle
