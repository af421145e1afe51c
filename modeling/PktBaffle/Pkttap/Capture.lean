import PktBaffle.Pkttap.File
import PktBaffle.Pkttap.LinuxRing
import PktBaffle.Pkttap.Macos

namespace PktBaffle.Pkttap
open Classic (LinkType)

inductive TimestampMode where
  | software
  | hardware

/-- A system call that returns nothing but an error: `if rc < 0 { return Err(io_err()) }`. -/
def syscall {α : Type} (rc : Except IoError α) : Except Error α := rc.mapError .ofIo

/-- A system call that is made only when asked for. -/
def syscallIf (asked : Bool) (rc : Except IoError Unit) : Except Error Unit :=
  if asked then syscall rc else .ok ()

namespace Linux
open LinuxRing (RingConfig Geometry Ring ringGeometry)

/-- What `recvmsg` delivers: the frame as the socket queues it, and the timestamp found in the
ancillary data. -/
structure Message where
  frame : List UInt8
  tsSec : Nat
  tsNsec : Nat

/-- What the system answers while a capture is opened. -/
structure Sys where
  host : Host
  queryLinkType : String → Except Error LinkType
  socket : Except IoError Unit
  attachFilter : List Bpf.Insn → Except IoError Unit
  /-- The error as text. -/
  setVersion : Except String Unit
  pageSize : Nat
  setRing : Geometry → Except String Unit
  mmap : Geometry → Except IoError LinuxRing.Memory
  setTimestamping : TimestampMode → Except IoError Unit
  ifaceIndex : String → Except Error Unit
  addMembership : Except IoError Unit
  bind : Except IoError Unit
  setFlags : Except IoError Unit

/-- Where captured frames are read from. -/
inductive Rx where
  | recv (buf : List UInt8)
  | ring (r : Ring)

structure LinuxLive where
  rx : Rx
  snaplen : Nat
  linkType : LinkType

def openRing (sys : Sys) (cfg : RingConfig) (snaplen : Nat) : Except Error Ring := do
  sys.setVersion.mapError fun e => .platform
    ("TPACKET_V3 ring capture is unavailable on this kernel (requires Linux 3.2+): " ++ e)
  let geom ← ringGeometry sys.host cfg snaplen sys.pageSize
  (sys.setRing geom).mapError fun e => .platform ("failed to allocate a " ++
    toString geom.blockCount ++ "×" ++ toString geom.blockSize ++ " byte TPACKET_V3 ring: " ++ e)
  let map ← syscall (sys.mmap geom)
  return ⟨map, geom.mapLen, geom, 0, none, snaplen, false⟩

def openRx (sys : Sys) (snaplen : Nat) (mode : TimestampMode) :
    Option RingConfig → Except Error Rx
  | some cfg => do return .ring (← openRing sys cfg snaplen)
  | none => do
    syscall (sys.setTimestamping mode)
    return .recv (List.replicate (max snaplen 65535) 0)

def LinuxLive.openInner (sys : Sys) (iface : String) (filter : Option (List Bpf.Insn))
    (snaplen : UInt32) (promiscuous : Bool) (mode : TimestampMode) (ring : Option RingConfig) :
    Except Error LinuxLive := do
  let snaplen := snaplen.toNat
  syscall sys.socket
  filter.forM fun prog => syscall (sys.attachFilter prog)
  let rx ← openRx sys snaplen mode ring
  sys.ifaceIndex iface
  syscallIf promiscuous sys.addMembership
  syscall sys.bind
  let linkType := (sys.queryLinkType iface).toOption.getD .ethernet
  return ⟨rx, snaplen, linkType⟩

def LinuxLive.setNonblocking (sys : Sys) (live : LinuxLive) (nb : Bool) :
    Except Error LinuxLive := do
  let rx := match live.rx with
    | .ring r => Rx.ring { r with nonblocking := nb }
    | .recv buf => Rx.recv buf
  syscall sys.setFlags
  return { live with rx }

/-- Read one packet with `recvmsg`, what the calls of it return given one after the other. The
call copies what fits into the buffer and returns how much that is. -/
def recvPacket (buf : List UInt8) (snaplen : Nat) (linkType : LinkType) :
    List (Except IoError Message) →
      Option (Except Error (Option PacketRef) × List UInt8 × List (Except IoError Message))
  | [] => none
  | .error .interrupted :: rest => recvPacket buf snaplen linkType rest
  | .error .wouldBlock :: rest => some (.ok none, buf, rest)
  | .error e :: rest => some (.error (.ofIo e), buf, rest)
  | .ok msg :: rest =>
    let copied := msg.frame.take buf.length
    let buf := copied ++ buf.drop copied.length
    let n := copied.length
    let origLen := n % 2 ^ 32
    let n := min n snaplen
    some (some <$> PacketRef.new (buf.take n) msg.tsSec msg.tsNsec origLen linkType, buf, rest)

end Linux

namespace Macos

/-- What the system answers while a capture is opened. -/
structure Sys where
  endian : Endian
  queryLinkType : String → Except Error LinkType
  openDevice : Except Error Unit
  setImmediate : Except IoError Unit
  bindInterface : String → Except Error Unit
  deviceLinkType : LinkType
  setPromiscuous : Except IoError Unit
  setFilter : List Bpf.Insn → Except IoError Unit
  /-- `BIOCGBLEN`; 0 when the call fails. -/
  bufferLen : UInt32
  setFlags : Except IoError Unit

def MacosLive.open_ (sys : Sys) (iface : String) (filter : Option (List Bpf.Insn))
    (snaplen : UInt32) (promiscuous : Bool) : Except Error MacosLive := do
  sys.openDevice
  syscall sys.setImmediate
  sys.bindInterface iface
  syscallIf promiscuous sys.setPromiscuous
  filter.forM fun prog => syscall (sys.setFilter prog)
  let bufSize := max (max sys.bufferLen.toNat snaplen.toNat) 65535
  return ⟨List.replicate bufSize 0, 0, 0, snaplen.toNat, sys.deviceLinkType⟩

end Macos

inductive Source where
  | live (iface : String)
  | file (path : Path)

structure CaptureBuilder where
  source : Source
  filter : Option FilterSpec
  snaplen : UInt32
  promiscuous : Bool
  nonblocking : Bool
  timestampMode : TimestampMode
  ring : Option LinuxRing.RingConfig

namespace CaptureBuilder

def new (source : Source) : CaptureBuilder :=
  ⟨source, none, 65535, false, false, .software, none⟩

def withSnaplen (b : CaptureBuilder) (n : UInt32) : CaptureBuilder := { b with snaplen := n }

end CaptureBuilder

/-- The system a capture runs on, by how it captures. -/
inductive Platform where
  | linux (sys : Linux.Sys)
  | macos (sys : Macos.Sys)

inductive Capture where
  | linux (live : Linux.LinuxLive)
  | macos (live : Macos.MacosLive)
  | file (f : File.FileCapture)

/-- Open the capture source. -/
def CaptureBuilder.open_ (platform : Platform) (files : File.Readers) (b : CaptureBuilder) :
    Except Error Capture := do
  match b.source, platform with
  | .live iface, .linux sys =>
    let linkType ← sys.queryLinkType iface
    let prog ← compileFilter b.filter linkType
    let live ← Linux.LinuxLive.openInner sys iface prog b.snaplen b.promiscuous b.timestampMode
      b.ring
    if b.nonblocking then return .linux (← live.setNonblocking sys true) else return .linux live
  | .live iface, .macos sys =>
    let linkType ← sys.queryLinkType iface
    let prog ← compileFilter b.filter linkType
    let live ← Macos.MacosLive.open_ sys iface prog b.snaplen b.promiscuous
    syscallIf b.nonblocking sys.setFlags
    return .macos live
  | .file path, _ => return .file (← File.FileCapture.open_ files path b.filter)

end PktBaffle.Pkttap
