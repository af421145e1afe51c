import PktBaffle.Lib
import PktBaffle.Pkttap.Dump
import PktBaffle.Pkttap.Packet

namespace PktBaffle.Pkttap
open Classic (LinkType)

inductive FilterSpec where
  | string (s : String)
  | program (p : List Bpf.Insn)

def compileFilter (spec : Option FilterSpec) (link : LinkType) :
    Except Error (Option (List Bpf.Insn)) :=
  match spec with
  | none => .ok none
  | some (.program p) => .ok (some p)
  | some (.string s) => do
    match ← (Lib.compile s link .classic).mapError .filter with
    | .classic p => return some p
    | .extended _ => throw (.platform "unexpected eBPF program for live capture")

def datalinkToLinkType : DataLink → LinkType
  | .ethernet => .ethernet
  | .raw => .rawIp
  | .linuxSll => .linuxSll
  | .other _ => .ethernet

namespace File

/-- A timestamp as the file format library hands it out: the formats hold no seconds beyond
those of a `SystemTime`. -/
structure Duration where
  asSecs : Nat
  subsecNanos : Nat
  secs_lt : asSecs < 2 ^ 63
  nanos_lt : subsecNanos < 10 ^ 9
  deriving DecidableEq, Repr

def Duration.zero : Duration := ⟨0, 0, by decide, by decide⟩

/-- A record of a pcap file. -/
structure PcapPacket where
  timestamp : Duration
  origLen : Nat
  data : List UInt8

/-- A block of a pcapng file. -/
inductive Block where
  | sectionHeader
  | interfaceDescription (linktype : DataLink)
  | enhancedPacket (interfaceId : UInt32) (timestamp : Duration) (originalLen : Nat)
      (data : List UInt8)
  | simplePacket (originalLen : Nat) (data : List UInt8)
  /-- The timestamp counts microseconds. -/
  | packet (interfaceId : UInt16) (timestamp : UInt64) (originalLen : Nat) (data : List UInt8)
  | other

/-- What the readers of the file format library return, one after the other. -/
abbrev Stream (α : Type) := List (Except PcapError α)

/-- The files of the system, and what the file format library reads from an open one. -/
structure Readers where
  Handle : Type
  openFile : Path → Except IoError Handle
  fillBuf : Handle → Except IoError (List UInt8)
  pcap : Handle → Except PcapError (DataLink × Stream PcapPacket)
  pcapNg : Handle → Except PcapError (Stream Block)

/-- One packet, its bytes already in the scratch buffer. -/
structure PktMeta where
  len : Nat
  tsSec : Nat
  tsNsec : Nat
  origLen : Nat
  linkType : LinkType

/-- What is left to read. -/
inductive Inner where
  | pcap (records : Stream PcapPacket)
  | pcapNg (blocks : Stream Block)

structure FileCapture where
  inner : Inner
  filter : Option (List Bpf.Insn)
  linkType : LinkType
  /-- Link types by interface id. -/
  idbLinkTypes : List LinkType
  scratch : List UInt8

namespace FileCapture

/-- The first bytes of a pcapng file. -/
def sectionMagic : List UInt8 := [0x0A, 0x0D, 0x0D, 0x0A]

def open_ (lib : Readers) (path : Path) (filter : Option FilterSpec) :
    Except Error FileCapture := do
  let file ← (lib.openFile path).mapError .ofIo
  let buf ← (lib.fillBuf file).mapError .io
  if buf.length < 4 then throw (.platform "file too short")
  if buf.take 4 = sectionMagic then
    let ng ← (lib.pcapNg file).mapError .pcap
    -- The interfaces are not known yet: the filter is compiled for Ethernet.
    let linkType := LinkType.ethernet
    let compiled ← compileFilter filter linkType
    return ⟨.pcapNg ng, compiled, linkType, [], []⟩
  else
    let (datalink, records) ← (lib.pcap file).mapError .pcap
    let linkType := datalinkToLinkType datalink
    let compiled ← compileFilter filter linkType
    return ⟨.pcap records, compiled, linkType, [], []⟩

end FileCapture

/-- The scratch buffer behind `fill_scratch`, and the bytes it holds. -/
def fillScratch (src : List UInt8) : List UInt8 × Nat := (src, src.length)

/-- What a fetch comes to, and the scratch buffer and the rest of the file behind it. -/
abbrev Fetched (α : Type) := Except Error (Option PktMeta) × List UInt8 × Stream α

def fetchPcap (linkType : LinkType) (scratch : List UInt8) :
    Stream PcapPacket → Fetched PcapPacket
  | [] => (.ok none, scratch, [])
  | .error e :: rest => (.error (.pcap e), scratch, rest)
  | .ok pkt :: rest =>
    let (scratch, len) := fillScratch pkt.data
    (.ok (some ⟨len, pkt.timestamp.asSecs, pkt.timestamp.subsecNanos, pkt.origLen, linkType⟩),
      scratch, rest)

/-- `idb_types.get(interface_id)`, Ethernet where there is none. -/
def interfaceType (idbTypes : List LinkType) (interfaceId : Nat) : LinkType :=
  idbTypes[interfaceId]?.getD .ethernet

/-- The loop of `fetch_pcapng`, with the table of link types behind it. -/
def fetchPcapng (scratch : List UInt8) :
    List LinkType → Stream Block → Fetched Block × List LinkType
  | idbTypes, [] => ((.ok none, scratch, []), idbTypes)
  | idbTypes, .error e :: rest => ((.error (.pcap e), scratch, rest), idbTypes)
  | idbTypes, .ok (.interfaceDescription linktype) :: rest =>
    fetchPcapng scratch (idbTypes ++ [datalinkToLinkType linktype]) rest
  | idbTypes, .ok (.enhancedPacket interfaceId ts originalLen data) :: rest =>
    let linkType := interfaceType idbTypes interfaceId.toNat
    let (scratch, len) := fillScratch data
    ((.ok (some ⟨len, ts.asSecs, ts.subsecNanos, originalLen, linkType⟩), scratch, rest),
      idbTypes)
  | idbTypes, .ok (.simplePacket originalLen data) :: rest =>
    let linkType := idbTypes.head?.getD .ethernet
    let (scratch, len) := fillScratch data
    ((.ok (some ⟨len, 0, 0, originalLen, linkType⟩), scratch, rest), idbTypes)
  | idbTypes, .ok (.packet interfaceId ts originalLen data) :: rest =>
    let linkType := interfaceType idbTypes interfaceId.toNat
    let (scratch, len) := fillScratch data
    ((.ok (some ⟨len, ts.toNat / 1000000, ts.toNat % 1000000 * 1000 % 2 ^ 32, originalLen,
      linkType⟩), scratch, rest), idbTypes)
  | idbTypes, .ok .sectionHeader :: rest => fetchPcapng scratch idbTypes rest
  | idbTypes, .ok .other :: rest => fetchPcapng scratch idbTypes rest

namespace FileCapture

/-- The `match` on the reader in front of the filter. -/
def fetch (cap : FileCapture) : Except Error (Option PktMeta) × FileCapture :=
  match cap.inner with
  | .pcap records =>
    let (r, scratch, rest) := fetchPcap cap.linkType cap.scratch records
    (r, { cap with inner := .pcap rest, scratch })
  | .pcapNg blocks =>
    let ((r, scratch, rest), idbLinkTypes) := fetchPcapng cap.scratch cap.idbLinkTypes blocks
    (r, { cap with inner := .pcapNg rest, scratch, idbLinkTypes })

/-- `&scratch[..len]`. -/
def bytes (cap : FileCapture) (len : Nat) : Except Error (List UInt8) :=
  if cap.scratch.length < len then .error (.panic "range end index out of range for slice")
  else .ok (cap.scratch.take len)

/-- The packet just fetched, unless the filter drops it. -/
def judge (cap : FileCapture) (m : PktMeta) : Except Error (Option PacketRef) := do
  if let some prog := cap.filter then
    if !Vm.run prog (← cap.bytes m.len) then return none
  let pkt ← PacketRef.new (← cap.bytes m.len) m.tsSec m.tsNsec m.origLen m.linkType
  return some pkt

/-- The loop of `next_packet`; `fuel` bounds its turns. -/
def nextLoop : Nat → FileCapture → Except Error (Option PacketRef) × FileCapture
  | 0, cap => (.error (.panic "out of fuel"), cap)
  | fuel + 1, cap =>
    match cap.fetch with
    | (.error e, cap) => (.error e, cap)
    | (.ok none, cap) => (.ok none, cap)
    | (.ok (some m), cap) =>
      match cap.judge m with
      | .error e => (.error e, cap)
      | .ok none => nextLoop fuel cap
      | .ok (some pkt) => (.ok (some pkt), cap)

/-- Records that are left. -/
def remaining (cap : FileCapture) : Nat :=
  match cap.inner with
  | .pcap records => records.length
  | .pcapNg blocks => blocks.length

/-- The next matching packet, or `none` at the end of the file. -/
def nextPacket (cap : FileCapture) : Except Error (Option PacketRef) × FileCapture :=
  nextLoop (cap.remaining + 1) cap

end FileCapture

end File

end PktBaffle.Pkttap
