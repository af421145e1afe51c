import PktBaffle.Pkttap.Host
import PktBaffle.Pkttap.Packet

namespace PktBaffle.Pkttap.Macos
open Classic (LinkType)

variable (endian : Endian)

/-- The source is for 64-bit macOS. -/
def host : Host := ⟨64, endian⟩

/-- The header in front of each frame in the read buffer; the timestamp as bits of `i64`s. -/
structure BpfHdr where
  bhTstampSec : Nat
  bhTstampUsec : Nat
  bhCaplen : Nat
  bhDatalen : Nat
  bhHdrlen : Nat

/-- `size_of::<BpfHdr>()`. -/
def bpfHdrSize : Nat := 32

def readBpfHdr (buf : List UInt8) (pos : Nat) : BpfHdr where
  bhTstampSec := (host endian).field buf pos 8
  bhTstampUsec := (host endian).field buf (pos + 8) 8
  bhCaplen := (host endian).field buf (pos + 16) 4
  bhDatalen := (host endian).field buf (pos + 20) 4
  bhHdrlen := (host endian).field buf (pos + 24) 2

/-- The range of a frame's bytes in the buffer, its timestamp and its length on the wire. -/
structure FrameMeta where
  start : Nat
  stop : Nat
  tsSec : Nat
  tsNsec : Nat
  origLen : Nat
  deriving DecidableEq, Repr

def wordAlign (n : Nat) : Except Error Nat := do
  return clearLow (← (host endian).add n 3) 4

/-- `usec as u32 * 1000`. -/
def nanos (usec : Nat) : Except Error Nat :=
  Host.strict "attempt to multiply with overflow" (Usize.checkedMul 32 (usec % 2 ^ 32) 1000)

/-- The frame at `pos` and the position of the next one. -/
def parseBpfFrame (buf : List UInt8) (pos filled snaplen : Nat) :
    Except Error (Option (FrameMeta × Nat)) := do
  let hdrEnd ← (host endian).add pos bpfHdrSize
  if filled < hdrEnd then return none
  let hdr := readBpfHdr endian buf pos
  let dataStart ← (host endian).add pos hdr.bhHdrlen
  let dataEnd ← (host endian).add dataStart (min hdr.bhCaplen snaplen)
  if filled < dataEnd then return none
  let frameLen ← (host endian).add hdr.bhHdrlen hdr.bhCaplen
  let nextPos ← (host endian).add pos (← wordAlign endian frameLen)
  let tsNsec ← nanos hdr.bhTstampUsec
  return some (⟨dataStart, dataEnd, hdr.bhTstampSec, tsNsec, hdr.bhDatalen⟩, nextPos)

structure MacosLive where
  buf : List UInt8
  bufFilled : Nat
  bufPos : Nat
  snaplen : Nat
  linkType : LinkType

namespace MacosLive

def parseNextFrame (live : MacosLive) : Except Error (Option FrameMeta × MacosLive) := do
  match ← parseBpfFrame endian live.buf live.bufPos live.bufFilled live.snaplen with
  | none => return (none, live)
  | some (m, nextPos) => return (some m, { live with bufPos := nextPos })

/-- `&buf[start..end]`. -/
def slice (live : MacosLive) (start stop : Nat) : Except Error (List UInt8) :=
  if stop < start then .error (.panic "slice index starts after it ends")
  else if live.buf.length < stop then .error (.panic "range end index out of range for slice")
  else .ok ((live.buf.drop start).take (stop - start))

/-- The packet of a frame, its bytes still in the buffer. -/
def packet (live : MacosLive) (m : FrameMeta) : Except Error PacketRef := do
  PacketRef.new (← live.slice m.start m.stop) m.tsSec m.tsNsec m.origLen live.linkType

/-- `read` has put `bytes` at the start of the buffer. -/
def refill (live : MacosLive) (bytes : List UInt8) : MacosLive :=
  { live with
    buf := bytes ++ live.buf.drop bytes.length
    bufFilled := bytes.length
    bufPos := 0 }

/-- The next packet, what the reads of the device return given one after the other. `none` when
the call waits for a read that is not among them. -/
def nextPacket (live : MacosLive) (reads : List (Except IoError (List UInt8))) :
    Option (Except Error (Option PacketRef) × MacosLive × List (Except IoError (List UInt8))) :=
  let parsed :=
    if live.bufPos < live.bufFilled then live.parseNextFrame endian else .ok (none, live)
  match parsed with
  | .error e => some (.error e, live, reads)
  | .ok (some m, live) => some (some <$> live.packet m, live, reads)
  | .ok (none, live) =>
    match reads with
    | [] => none
    | .error .interrupted :: reads => live.nextPacket reads
    | .error .wouldBlock :: reads => some (.ok none, live, reads)
    | .error e :: reads => some (.error (.ofIo e), live, reads)
    | .ok bytes :: reads => (live.refill bytes).nextPacket reads

end MacosLive

end PktBaffle.Pkttap.Macos
