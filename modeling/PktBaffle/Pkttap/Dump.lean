import PktBaffle.Codegen
import PktBaffle.Net
import PktBaffle.Pkttap.Error

namespace PktBaffle.Pkttap
open Classic (LinkType)

/-- A path as the bytes of its `OsStr`. -/
abbrev Path := List UInt8

namespace Path

/-- `Path::file_name`: the last component, unless that is the root or `..`. -/
def fileName (path : Path) : Option (List UInt8) :=
  let parts := (path.splitOn (ascii '/')).reverse.dropWhile fun c => c == [] || c == [ascii '.']
  match parts with
  | [] => none
  | c :: _ => if c = [ascii '.', ascii '.'] then none else some c

/-- `Path::extension`: what stands behind the last dot of the file name, if something stands
in front of it. -/
def extension (path : Path) : Option (List UInt8) := do
  let file ← fileName path
  match (file.splitOn (ascii '.')).reverse with
  | ext :: before :: rest => if before = [] ∧ rest = [] then none else some ext
  | _ => none

/-- `OsStr::to_str`. -/
def toStr (s : List UInt8) : Option String := String.fromUTF8? ⟨s.toArray⟩

end Path

/-- The files of the system. A path leads to a file, which need not exist yet, or cannot be
opened for writing; several paths may lead to one file. -/
structure FileSystem where
  locate : Path → Except IoError Nat
  content : Nat → Option (List UInt8)

/-- Effects on the file system; they stay when an error is returned. -/
abbrev Eff := ExceptT Error (StateM FileSystem)

/-- `File::create`: the file is emptied, or created empty. -/
def create (path : Path) : Eff Nat := fun fs =>
  match fs.locate path with
  | .error e => (.error (.ofIo e), fs)
  | .ok file => (.ok file, { fs with content := Function.update fs.content file (some []) })

/-- The link types of the capture file formats. -/
inductive DataLink where
  | ethernet
  | raw
  | linuxSll
  /-- One of the others the formats have a number for. -/
  | other (code : Nat)
  deriving DecidableEq, Repr

def linkTypeToDatalink : LinkType → DataLink
  | .ethernet => .ethernet
  | .rawIp => .raw
  | .linuxSll => .linuxSll

/-- The writers of the file format library: what each does to the file it is handed. -/
structure PcapFile where
  withHeader : Nat → DataLink → FileSystem → Except PcapError Unit × FileSystem
  newPcapNg : Nat → FileSystem → Except PcapError Unit × FileSystem
  writeInterface : Nat → DataLink → Nat → FileSystem → Except PcapError Unit × FileSystem

/-- `.map_err(Error::Pcap)`. -/
def mapPcap (write : FileSystem → Except PcapError Unit × FileSystem) : Eff Unit := fun fs =>
  let (r, fs) := write fs
  (r.mapError .pcap, fs)

inductive Inner where
  | pcap (file : Nat)
  | pcapNg (file : Nat)

structure Dump where
  inner : Inner

structure DumpBuilder where
  path : Path
  linkType : Option LinkType

/-- The extension `open` chooses the format by, in lower case. -/
def DumpBuilder.ext (b : DumpBuilder) : String :=
  ((b.path.extension.bind Path.toStr).getD "").map Char.toLower

/-- Open the file and write the format header. -/
def DumpBuilder.open_ (lib : PcapFile) (b : DumpBuilder) : Eff Dump := do
  let lt ← match b.linkType with
    | some lt => pure lt
    | none => throw (.platform
        "Dump::open requires a link type — call .link_type() on the builder")
  let file ← create b.path
  if b.ext = "pcap" then
    mapPcap (lib.withHeader file (linkTypeToDatalink lt))
    return ⟨.pcap file⟩
  else if b.ext = "pcapng" then
    mapPcap (lib.newPcapNg file)
    mapPcap (lib.writeInterface file (linkTypeToDatalink lt) 65535)
    return ⟨.pcapNg file⟩
  else
    throw (.platform ("unknown extension '." ++ b.ext ++ "': Dump requires .pcap or .pcapng"))

end PktBaffle.Pkttap
