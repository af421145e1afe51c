import PktBaffle.Pkttap.Host
import PktBaffle.Pkttap.Packet

namespace PktBaffle.Pkttap.LinuxRing
open Classic (LinkType)

/-- Set by the kernel when it has finished with a block. -/
def tpStatusUser : Nat := 1
/-- Written back to hand the block to the kernel. -/
def tpStatusKernel : Nat := 0
/-- Frame headers are aligned to this many bytes. -/
def tpacketAlignment : Nat := 16

variable (host : Host)

def tpacketAlign (n : Nat) : Except Error Nat := do
  let n ← Host.sub (← host.add n tpacketAlignment) 1
  return clearLow n tpacketAlignment

/-- `size_of::<TpacketBlockDesc>()`. -/
def blockDescSize : Nat := 48
/-- `size_of::<Tpacket3Hdr>()`. -/
def tpacket3HdrSize : Nat := 48
/-- `size_of::<libc::sockaddr_ll>()`. -/
def sockaddrLlSize : Nat := 20
/-- Byte offset of `block_status` within a block. -/
def blockStatusOffset : Nat := 8

/-- An aligned frame header plus the `sockaddr_ll` the kernel stores after it. -/
def tpacket3Hdrlen : Except Error Nat := do
  host.add (← tpacketAlign host tpacket3HdrSize) sockaddrLlSize

structure RingConfig where
  blockSize : Nat
  blockCount : Nat

/-- Ring dimensions, in the form the kernel wants them. -/
structure Geometry where
  blockSize : Nat
  blockCount : Nat
  frameSize : Nat
  frameCount : Nat
  /-- Bytes to map. -/
  mapLen : Nat
  deriving DecidableEq, Repr

def minFrameSize : Nat := 2048

def u32Max : Nat := 2 ^ 32 - 1

def roundUp (n multiple : Nat) : Except Error Nat := do
  if multiple = 0 then throw (.panic "assertion failed: multiple > 0")
  host.mul (Usize.divCeil n multiple) multiple

def tooLarge (blockCount blockSize : Nat) : Error :=
  .platform ("ring geometry too large: " ++ toString blockCount ++ " blocks of " ++
    toString blockSize ++ " bytes")

/-- `.ok_or_else(|| Error::Platform(message))`. -/
def okOr (message : String) : Option Nat → Except Error Nat
  | some n => .ok n
  | none => .error (.platform message)

/-- Translate the configuration and the snaplen into ring dimensions the kernel accepts. -/
def ringGeometry (cfg : RingConfig) (snaplen pageSize : Nat) : Except Error Geometry := do
  if cfg.blockCount = 0 then throw (.platform "ring block_count must be at least 1")
  if cfg.blockSize = 0 then throw (.platform "ring block_size must be non-zero")
  -- One frame holds the captured bytes and the frame header.
  let frame ← tpacketAlign host (Usize.saturatingAdd host.width snaplen (← tpacket3Hdrlen host))
  let frameSize := max frame minFrameSize
  -- Blocks are page-aligned and hold at least one whole frame.
  let blockSize ← roundUp host (max cfg.blockSize frameSize) pageSize
  let framesPerBlock := blockSize / frameSize
  let frameCount ← okOr "ring frame count overflows"
    (Usize.checkedMul host.width framesPerBlock cfg.blockCount)
  let mapLen ← okOr "ring size overflows" (Usize.checkedMul host.width blockSize cfg.blockCount)
  if u32Max < blockSize ∨ u32Max < cfg.blockCount ∨ u32Max < frameCount then
    throw (tooLarge cfg.blockCount blockSize)
  return ⟨blockSize, cfg.blockCount, frameSize, frameCount, mapLen⟩

example : ringGeometry ⟨64, .little⟩ ⟨5000, 16⟩ 128 4096 =
    .ok ⟨8192, 16, 2048, 64, 131072⟩ := by decide

/-- Where the bytes of a frame lie, its timestamp and its length on the wire. -/
structure FrameMeta where
  offset : Nat
  /-- Already clamped to the snaplen. -/
  len : Nat
  tsSec : Nat
  tsNsec : Nat
  origLen : Nat
  deriving DecidableEq, Repr

structure BlockDesc where
  numPkts : Nat
  offsetToFirstPkt : Nat

/-- The descriptor at the start of a block, unless the slice is too short for one. -/
def parseBlockDesc (block : List UInt8) : Option BlockDesc :=
  if block.length < blockDescSize then none
  else some ⟨host.field block 12 4, host.field block 16 4⟩

structure Tpacket3Hdr where
  tpNextOffset : Nat
  tpSec : Nat
  tpNsec : Nat
  tpSnaplen : Nat
  tpLen : Nat
  tpMac : Nat

def readTpacket3Hdr (block : List UInt8) (offset : Nat) : Tpacket3Hdr where
  tpNextOffset := host.field block offset 4
  tpSec := host.field block (offset + 4) 4
  tpNsec := host.field block (offset + 8) 4
  tpSnaplen := host.field block (offset + 12) 4
  tpLen := host.field block (offset + 16) 4
  tpMac := host.field block (offset + 24) 2

/-- The frame at `offset` and the offset of the one behind it, unless one of them runs past
the block. -/
def parseFrame (block : List UInt8) (offset snaplen : Nat) :
    Option (FrameMeta × Option Nat) := do
  let hdrEnd ← Usize.checkedAdd host.width offset tpacket3HdrSize
  if block.length < hdrEnd then none
  let hdr := readTpacket3Hdr host block offset
  let dataStart ← Usize.checkedAdd host.width offset hdr.tpMac
  let dataEnd ← Usize.checkedAdd host.width dataStart hdr.tpSnaplen
  if block.length < dataEnd then none
  let next ← match hdr.tpNextOffset with
    | 0 => some none
    | n => (Usize.checkedAdd host.width offset n).map some
  return (⟨dataStart, min hdr.tpSnaplen snaplen, hdr.tpSec, hdr.tpNsec, hdr.tpLen⟩, next)

/-- Where the reader is in the block it owns. -/
structure Walk where
  offset : Nat
  remaining : Nat
  deriving DecidableEq, Repr

/-- The bytes of the mapping, by their distance from its base. -/
abbrev Memory := Nat → UInt8

def Memory.slice (m : Memory) (start len : Nat) : List UInt8 :=
  (List.range len).map fun i => m (start + i)

def Memory.write (m : Memory) (start : Nat) (bytes : List UInt8) : Memory :=
  fun i => if start ≤ i then (bytes[i - start]?).getD (m i) else m i

/-- A mapped ring. -/
structure Ring where
  map : Memory
  mapLen : Nat
  geom : Geometry
  /-- The block the kernel hands over next, or the one being walked. -/
  curBlock : Nat
  walk : Option Walk
  snaplen : Nat
  nonblocking : Bool

/-- What one turn of the loop of `next_frame` comes to. -/
inductive Turn where
  /-- A block is taken from the kernel. -/
  | take (r : Ring)
  /-- The current block is handed back. -/
  | release (r : Ring)
  | frame (m : FrameMeta) (r : Ring)
  /-- Nothing is ready and the ring does not block. -/
  | idle
  /-- Nothing is ready: wait for the kernel. -/
  | wait

namespace Ring

variable (r : Ring)

/-- The bytes behind a raw pointer. Outside the mapping there are none. -/
def bytes (start len : Nat) : Except Error (List UInt8) :=
  if r.mapLen < start + len then .error (.panic "access outside the mapping")
  else .ok (r.map.slice start len)

def block (i : Nat) : Except Error (List UInt8) := do
  r.bytes (← host.mul i r.geom.blockSize) r.geom.blockSize

/-- Where the status word of block `i` stands. -/
def statusWord (i : Nat) : Except Error Nat := do
  if ¬ i < r.geom.blockCount then
    throw (.panic "assertion failed: i < self.geom.block_count")
  host.add (← host.mul i r.geom.blockSize) blockStatusOffset

def blockStatus (i : Nat) : Except Error Nat := do
  return host.field (← r.bytes (← r.statusWord host i) 4) 0 4

/-- Hand the current block back to the kernel and move to the next one. -/
def releaseBlock : Except Error Ring := do
  let word ← r.statusWord host r.curBlock
  let _ ← r.bytes word 4
  let next ← host.add r.curBlock 1
  if r.geom.blockCount = 0 then
    throw (.panic "attempt to calculate the remainder with a divisor of zero")
  return { r with
    map := r.map.write word (host.endian.bytes 4 tpStatusKernel)
    curBlock := next % r.geom.blockCount
    walk := none }

/-- The walk behind a frame. A next offset of 0 marks the last one, whatever the count says. -/
def nextWalk (walk : Walk) : Option Nat → Walk
  | some offset => if 1 < walk.remaining then ⟨offset, walk.remaining - 1⟩ else ⟨0, 0⟩
  | none => ⟨0, 0⟩

def turn : Except Error Turn := do
  match r.walk with
  | none =>
    let status ← r.blockStatus host r.curBlock
    if status &&& tpStatusUser = 0 then
      return if r.nonblocking then .idle else .wait
    let block ← r.block host r.curBlock
    match parseBlockDesc host block with
    | some desc => return .take { r with walk := some ⟨desc.offsetToFirstPkt, desc.numPkts⟩ }
    | none => return .take { r with walk := some ⟨0, 0⟩ }
  | some walk =>
    if walk.remaining = 0 then return .release (← r.releaseBlock host)
    let blockStart ← host.mul r.curBlock r.geom.blockSize
    let block ← r.block host r.curBlock
    match parseFrame host block walk.offset r.snaplen with
    | none => return .release (← r.releaseBlock host)
    | some (m, next) =>
      let offset ← host.add blockStart m.offset
      return .frame { m with offset } { r with walk := some (nextWalk walk next) }

/-- The loop of `next_frame`, with `wait` for the call to `poll`. `none` when the fuel is too
low for the turns it takes. -/
def nextFrame (wait : Ring → Except Error Ring) :
    Nat → Ring → Option (Except Error (Option FrameMeta × Ring))
  | 0, _ => none
  | fuel + 1, r =>
    match r.turn host with
    | .error e => some (.error e)
    | .ok (.take r) => nextFrame wait fuel r
    | .ok (.release r) => nextFrame wait fuel r
    | .ok (.frame m r) => some (.ok (some m, r))
    | .ok .idle => some (.ok (none, r))
    | .ok .wait =>
      match wait r with
      | .error e => some (.error e)
      | .ok r => nextFrame wait fuel r

/-- The packet of a frame, its bytes still in the ring. -/
def packet (m : FrameMeta) (linkType : LinkType) : Except Error PacketRef := do
  PacketRef.new (← r.bytes m.offset m.len) m.tsSec m.tsNsec m.origLen linkType

/-- The next packet in the ring. -/
def nextPacket (wait : Ring → Except Error Ring) (fuel : Nat) (linkType : LinkType) :
    Option (Except Error (Option PacketRef × Ring)) :=
  (nextFrame host wait fuel r).map fun found => do
    let (m, r) ← found
    match m with
    | none => return (none, r)
    | some m => return (some (← r.packet m linkType), r)

end Ring

end PktBaffle.Pkttap.LinuxRing
