import PktBaffle.Pkttap.Capture
import PktBaffle.Proofs.Pkttap.File
import PktBaffle.Proofs.Pkttap.RingWalk

namespace PktBaffle.Pkttap
open Classic (LinkType)

/-- A frame as its source stores it, and its length on the wire. -/
structure Frame where
  bytes : List UInt8
  origLen : Nat
  deriving DecidableEq

/-- The packet holds at most `n` bytes of the stored frame, from its start, and tells its length
on the wire. -/
structure Faithful (n : Nat) (f : Frame) (p : PacketRef) : Prop where
  cut : p.data.length ≤ n
  start : p.data <+: f.bytes
  origLen : p.origLen = f.origLen

namespace LinuxRing

variable {host : Host}

/-- The frame whose header the reader has come to. -/
def Ring.stored (host : Host) (r : Ring) (walk : Walk) : Frame :=
  let hdr := readTpacket3Hdr host (r.blockBytes r.curBlock) walk.offset
  let start := r.curBlock * r.geom.blockSize + (walk.offset + hdr.tpMac)
  ⟨r.map.slice start hdr.tpSnaplen, hdr.tpLen⟩

/-- What a frame that is parsed has of its header. -/
theorem parseFrame_fields {block : List UInt8} {offset snaplen : Nat} {m : FrameMeta}
    {next : Option Nat} (h : parseFrame host block offset snaplen = some (m, next)) :
    m.offset = offset + (readTpacket3Hdr host block offset).tpMac ∧
      m.len = min (readTpacket3Hdr host block offset).tpSnaplen snaplen ∧
      m.origLen = (readTpacket3Hdr host block offset).tpLen := by
  unfold parseFrame at h
  simp only [Option.bind_eq_bind, Option.bind_eq_some_iff] at h
  obtain ⟨hdrEnd, -, h⟩ := h
  by_cases h₁ : block.length < hdrEnd
  · simp [h₁] at h
  simp only [h₁, if_false, Option.pure_def, Option.bind_some, Option.bind_eq_some_iff] at h
  obtain ⟨dataStart, hstart, dataEnd, -, h⟩ := h
  obtain ⟨hsum, -⟩ := Usize.checkedAdd_eq_some.mp hstart
  by_cases h₂ : block.length < dataEnd
  · simp [h₂] at h
  simp only [h₂, if_false] at h
  split at h
  · cases h
    exact ⟨hsum, rfl, rfl⟩
  · obtain ⟨next', -, h⟩ := Option.bind_eq_some_iff.mp h
    cases h
    exact ⟨hsum, rfl, rfl⟩

namespace Ring

variable {r r' : Ring} {m : FrameMeta}

theorem block_ok {i : Nat} {bs : List UInt8} (h : r.block host i = .ok bs) :
    bs = r.blockBytes i := by
  unfold block at h
  cases hm : host.mul i r.geom.blockSize with
  | error e =>
    rw [hm] at h
    cases h
  | ok start =>
    rw [hm] at h
    have hprod : start = i * r.geom.blockSize := by
      obtain ⟨hp, -⟩ := Usize.checkedMul_eq_some.mp (Host.strict_ok hm)
      exact hp
    rw [bytes_ok h, hprod]
    rfl

/-- A turn that finds a frame has parsed the header the walk has come to. -/
theorem turn_frame (h : r.turn host = .ok (.frame m r')) :
    ∃ walk m₀ next, r.walk = some walk ∧
      parseFrame host (r.blockBytes r.curBlock) walk.offset r.snaplen = some (m₀, next) ∧
      m = { m₀ with offset := r.curBlock * r.geom.blockSize + m₀.offset } ∧
      r' = { r with walk := some (nextWalk walk next) } := by
  unfold turn at h
  cases hw : r.walk with
  | none =>
    rw [hw] at h
    obtain ⟨status, -, h⟩ := bind_ok h
    split at h
    · split at h <;> cases h
    · obtain ⟨block, -, h⟩ := bind_ok h
      split at h <;> cases h
  | some walk =>
    rw [hw] at h
    simp only at h
    split at h
    · obtain ⟨r₁, -, h⟩ := bind_ok h
      cases h
    · obtain ⟨blockStart, hstart, h⟩ := bind_ok h
      obtain ⟨block, hblock, h⟩ := bind_ok h
      obtain rfl := block_ok hblock
      split at h
      · obtain ⟨r₁, -, h⟩ := bind_ok h
        cases h
      · rename_i m₀ next hparse
        obtain ⟨offset, hoffset, h⟩ := bind_ok h
        obtain ⟨hprod, -⟩ := Usize.checkedMul_eq_some.mp (Host.strict_ok hstart)
        obtain ⟨hsum, -⟩ := Usize.checkedAdd_eq_some.mp (Host.strict_ok hoffset)
        cases h
        exact ⟨walk, m₀, next, rfl, hparse, by rw [hsum, hprod], rfl⟩

theorem releaseBlock_snaplen (h : r.releaseBlock host = .ok r') : r'.snaplen = r.snaplen := by
  obtain ⟨word, -, h⟩ := bind_ok h
  obtain ⟨status, -, h⟩ := bind_ok h
  obtain ⟨next, -, h⟩ := bind_ok h
  split at h
  · cases h
  · cases h
    rfl

theorem turn_snaplen {t : LinuxRing.Turn} (h : r.turn host = .ok t)
    (ht : t = .take r' ∨ t = .release r' ∨ ∃ m, t = .frame m r') : r'.snaplen = r.snaplen := by
  unfold turn at h
  cases hw : r.walk with
  | none =>
    rw [hw] at h
    obtain ⟨status, -, h⟩ := bind_ok h
    split at h
    · split at h <;> cases h <;> simp at ht
    · obtain ⟨block, -, h⟩ := bind_ok h
      split at h <;> cases h <;> simp at ht <;> rw [← ht]
  | some walk =>
    rw [hw] at h
    simp only at h
    split at h
    · obtain ⟨r₁, hrel, h⟩ := bind_ok h
      cases h
      simp only [reduceCtorEq, false_or, Turn.release.injEq, exists_false, or_false] at ht
      rw [← ht]
      exact releaseBlock_snaplen hrel
    · obtain ⟨blockStart, -, h⟩ := bind_ok h
      obtain ⟨block, -, h⟩ := bind_ok h
      split at h
      · obtain ⟨r₁, hrel, h⟩ := bind_ok h
        cases h
        simp only [reduceCtorEq, false_or, Turn.release.injEq, exists_false, or_false] at ht
        rw [← ht]
        exact releaseBlock_snaplen hrel
      · obtain ⟨offset, -, h⟩ := bind_ok h
        cases h
        simp only [reduceCtorEq, false_or, Turn.frame.injEq] at ht
        obtain ⟨m', -, rfl⟩ := ht
        rfl

/-- The bytes of a frame that a turn finds are the first of the stored ones. -/
theorem frame_faithful {linkType : LinkType} {p : PacketRef} {walk : Walk}
    (h : r.turn host = .ok (.frame m r')) (hw : r.walk = some walk)
    (hp : r'.packet m linkType = .ok p) : Faithful r.snaplen (r.stored host walk) p := by
  obtain ⟨walk', m₀, next, hw', hparse, rfl, rfl⟩ := turn_frame h
  rw [hw] at hw'
  cases hw'
  obtain ⟨hoff, hlen, horig⟩ := parseFrame_fields hparse
  obtain ⟨data, hdata, hp⟩ := bind_ok hp
  obtain ⟨hbytes, horig'⟩ := PacketRef.new_ok hp
  rw [bytes_ok hdata] at hbytes
  change p.data = r.map.slice (r.curBlock * r.geom.blockSize + m₀.offset) m₀.len at hbytes
  rw [hoff, hlen, ← slice_take] at hbytes
  refine ⟨?_, ?_, horig'.trans horig⟩
  · rw [hbytes, List.length_take]
    exact Nat.min_le_left _ _
  · rw [hbytes]
    exact List.take_prefix _ _

theorem nextPacket_some {wait : Ring → Except Error Ring} {fuel : Nat} {linkType : LinkType}
    {p : PacketRef} (h : r.nextPacket host wait fuel linkType = some (.ok (some p, r'))) :
    ∃ m, nextFrame host wait fuel r = some (.ok (some m, r')) ∧ r'.packet m linkType = .ok p := by
  obtain ⟨found, hfound, h⟩ := Option.map_eq_some_iff.mp h
  obtain ⟨⟨m, r₁⟩, rfl, h⟩ := bind_ok h
  cases m with
  | none => cases h
  | some m =>
    have hpacket : (do return (some (← r₁.packet m linkType), r₁)) =
        (Except.ok (some p, r') : Except Error (Option PacketRef × Ring)) := h
    obtain ⟨q, hq, hpair⟩ := bind_ok hpacket
    cases hpair
    exact ⟨m, hfound, hq⟩

end Ring

theorem Step.snaplen {r r' : Ring} {e : Event} (h : Step host r e r') : r'.snaplen = r.snaplen := by
  cases h with
  | take h => exact Ring.turn_snaplen h (.inl rfl)
  | frame h => exact Ring.turn_snaplen h (.inr (.inr ⟨_, rfl⟩))
  | release h => exact Ring.turn_snaplen h (.inr (.inl rfl))
  | idle => rfl
  | kernel map => rfl
  | setNonblocking nb => rfl

end LinuxRing

namespace Macos

variable {endian : Endian} {live live' : MacosLive} {m : FrameMeta} {p : PacketRef}

/-- The frame whose header the reader has come to. -/
def MacosLive.stored (endian : Endian) (live : MacosLive) : Frame :=
  let hdr := readBpfHdr endian live.buf live.bufPos
  ⟨(live.buf.drop (live.bufPos + hdr.bhHdrlen)).take hdr.bhCaplen, hdr.bhDatalen⟩

theorem add_ok {a b c : Nat} (h : (Macos.host endian).add a b = .ok c) : c = a + b :=
  (Usize.checkedAdd_eq_some.mp (Host.strict_ok h)).1

/-- What a frame that is parsed has of its header. -/
theorem parseBpfFrame_fields {buf : List UInt8} {pos filled snaplen nextPos : Nat}
    (h : parseBpfFrame endian buf pos filled snaplen = .ok (some (m, nextPos))) :
    m.start = pos + (readBpfHdr endian buf pos).bhHdrlen ∧
      m.stop = m.start + min (readBpfHdr endian buf pos).bhCaplen snaplen ∧
      m.origLen = (readBpfHdr endian buf pos).bhDatalen := by
  obtain ⟨hdrEnd, -, h⟩ := bind_ok h
  split at h
  · cases h
  · obtain ⟨dataStart, hstart, h⟩ := bind_ok h
    obtain ⟨dataEnd, hend, h⟩ := bind_ok h
    split at h
    · cases h
    · obtain ⟨frameLen, -, h⟩ := bind_ok h
      obtain ⟨aligned, -, h⟩ := bind_ok h
      obtain ⟨next, -, h⟩ := bind_ok h
      obtain ⟨nsec, -, h⟩ := bind_ok h
      cases h
      exact ⟨add_ok hstart, add_ok hend, rfl⟩

theorem parseNextFrame_ok (h : live.parseNextFrame endian = .ok (some m, live')) :
    ∃ nextPos, parseBpfFrame endian live.buf live.bufPos live.bufFilled live.snaplen =
      .ok (some (m, nextPos)) ∧ live' = { live with bufPos := nextPos } := by
  obtain ⟨found, hparse, h⟩ := bind_ok h
  split at h
  · cases h
  · cases h
    exact ⟨_, hparse, rfl⟩

theorem slice_ok {start stop : Nat} {bs : List UInt8} (h : live.slice start stop = .ok bs) :
    bs = (live.buf.drop start).take (stop - start) := by
  unfold MacosLive.slice at h
  split at h
  · cases h
  · split at h
    · cases h
    · exact (Except.ok.inj h).symm

/-- The bytes of a frame that is parsed are the first of the stored ones. -/
theorem frame_faithful (h : live.parseNextFrame endian = .ok (some m, live'))
    (hp : live'.packet m = .ok p) : Faithful live.snaplen (live.stored endian) p := by
  obtain ⟨nextPos, hparse, rfl⟩ := parseNextFrame_ok h
  obtain ⟨hstart, hstop, horig⟩ := parseBpfFrame_fields hparse
  obtain ⟨data, hdata, hp⟩ := bind_ok hp
  obtain ⟨hbytes, horig'⟩ := PacketRef.new_ok hp
  rw [slice_ok hdata, hstop, Nat.add_sub_cancel_left, hstart, Nat.min_comm,
    ← List.take_take] at hbytes
  refine ⟨?_, ?_, horig'.trans horig⟩
  · rw [hbytes, List.length_take]
    exact Nat.min_le_left _ _
  · rw [hbytes]
    exact List.take_prefix _ _

end Macos

namespace Linux

variable {buf buf' : List UInt8} {snaplen : Nat} {linkType : LinkType} {msg : Message}
  {rest : List (Except IoError Message)} {p : PacketRef}

/-- The frame of a message as the socket queues it. -/
def Message.stored (msg : Message) : Frame := ⟨msg.frame, msg.frame.length⟩

theorem recvPacket_message
    (h : recvPacket buf snaplen linkType [.ok msg] = some (.ok (some p), buf', rest)) :
    p.data = (msg.frame.take buf.length).take snaplen ∧
      p.origLen = min buf.length msg.frame.length % 2 ^ 32 ∧ buf'.length = buf.length := by
  have hcopied : (msg.frame.take buf.length).length = min buf.length msg.frame.length :=
    List.length_take
  obtain ⟨hnew, hrest⟩ := Prod.mk.inj (Option.some.inj h)
  obtain ⟨hbuf, -⟩ := Prod.mk.inj hrest
  obtain ⟨q, hq, hqp⟩ := map_ok hnew
  cases hqp
  obtain ⟨hdata, horig⟩ := PacketRef.new_ok hq
  refine ⟨?_, ?_, ?_⟩
  · rw [hdata, List.take_append_of_le_length (Nat.min_le_left _ _), Nat.min_comm,
      ← List.take_eq_take_min]
  · rw [horig, hcopied]
  · rw [← hbuf, List.length_append, List.length_drop, hcopied]
    omega

/-- The bytes of a message are the first of the frame; its length is told as long as the buffer
holds all of it. -/
theorem message_faithful_iff
    (h : recvPacket buf snaplen linkType [.ok msg] = some (.ok (some p), buf', rest))
    (hbuf : buf.length < 2 ^ 32) :
    Faithful snaplen msg.stored p ↔ msg.frame.length ≤ buf.length := by
  obtain ⟨hdata, horig, -⟩ := recvPacket_message h
  rw [Nat.mod_eq_of_lt (by omega)] at horig
  constructor
  · intro hf
    have heq := horig.symm.trans hf.origLen
    change min buf.length msg.frame.length = msg.frame.length at heq
    omega
  · intro hlen
    refine ⟨?_, ?_, ?_⟩
    · rw [hdata, List.length_take]
      exact Nat.min_le_left _ _
    · rw [hdata]
      exact (List.take_prefix _ _).trans (List.take_prefix _ _)
    · rw [horig]
      exact Nat.min_eq_right hlen

end Linux

namespace File

/-- The packet of a block as the file stores it. -/
def Block.frame : Block → Option Frame
  | .enhancedPacket _ _ originalLen data => some ⟨data, originalLen⟩
  | .simplePacket originalLen data => some ⟨data, originalLen⟩
  | .packet _ _ originalLen data => some ⟨data, originalLen⟩
  | _ => none

def PcapPacket.frame (pkt : PcapPacket) : Frame := ⟨pkt.data, pkt.origLen⟩

namespace FileCapture

/-- The packets that the file still holds. -/
def frames (cap : FileCapture) : List Frame :=
  match cap.inner with
  | .pcap records => records.filterMap fun r => r.toOption.map PcapPacket.frame
  | .pcapNg blocks => blocks.filterMap fun r => r.toOption.bind Block.frame

/-- The reader changes neither bytes nor length. -/
theorem frames_eq (cap : FileCapture) :
    cap.frames = (cap.rest.filterMap Except.toOption).map fun p => ⟨p.data, p.origLen⟩ := by
  obtain ⟨inner, filter, linkType, table, scratch⟩ := cap
  cases inner with
  | pcap records =>
    simp only [frames, rest, pcapContents]
    induction records with
    | nil => rfl
    | cons r records ih =>
      cases r with
      | error e => exact ih
      | ok pkt => exact congrArg _ ih
  | pcapNg blocks =>
    simp only [frames, rest]
    induction blocks generalizing table with
    | nil => rfl
    | cons r blocks ih =>
      cases r with
      | error e => exact ih table
      | ok b =>
        cases b with
        | sectionHeader => exact ih _
        | interfaceDescription d => exact ih _
        | enhancedPacket id ts n data => exact congrArg _ (ih _)
        | simplePacket n data => exact congrArg _ (ih _)
        | packet id ts n data => exact congrArg _ (ih _)
        | other => exact ih _

theorem next_ok {filter : Option (List Bpf.Insn)} {cs left : List (Except Error PacketRef)}
    {p : PacketRef} (h : next filter cs = (.ok (some p), left)) :
    ∃ skipped, cs = skipped ++ .ok p :: left := by
  induction cs with
  | nil => cases h
  | cons c cs ih =>
    cases c with
    | error e => cases h
    | ok q =>
      unfold next at h
      split at h
      · cases h
        exact ⟨[], rfl⟩
      · obtain ⟨skipped, hs⟩ := ih h
        exact ⟨.ok q :: skipped, congrArg _ hs⟩

/-- The packet of a call is the last it has taken from the file, unchanged. -/
theorem nextPacket_frame {cap cap' : FileCapture} {p : PacketRef} {f : Frame}
    {skipped : List Frame} (h : cap.nextPacket = (.ok (some p), cap'))
    (hf : cap.frames = skipped ++ f :: cap'.frames) : f = ⟨p.data, p.origLen⟩ := by
  obtain ⟨hres, hrest, -⟩ := cap.nextPacket_eq
  rw [h] at hres hrest
  obtain ⟨before, hcs⟩ := next_ok (Prod.ext hres.symm hrest.symm : next _ _ = (_, cap'.rest))
  rw [frames_eq, frames_eq, hcs, List.filterMap_append, List.map_append] at hf
  obtain ⟨-, htail⟩ := List.append_inj' hf rfl
  exact (List.cons.inj htail).1.symm

end FileCapture

end File

/-- What can happen to a capture: turns of the loops of `next`, and what its source does between
them. A turn that yields a packet is labelled with it and with the frame it comes from. -/
inductive Turn (host : Host) (endian : Endian) :
    Capture → Option (Frame × PacketRef) → Capture → Prop where
  | ring {live : Linux.LinuxLive} {r r' : LinuxRing.Ring} {e : LinuxRing.Event}
      (hrx : live.rx = .ring r) (h : LinuxRing.Step host r e r') :
      Turn host endian (.linux live) none (.linux { live with rx := .ring r' })
  | ringFrame {live : Linux.LinuxLive} {r r' : LinuxRing.Ring} {walk : LinuxRing.Walk}
      {m : LinuxRing.FrameMeta} {p : PacketRef} (hrx : live.rx = .ring r)
      (hw : r.walk = some walk) (h : r.turn host = .ok (.frame m r'))
      (hp : r'.packet m live.linkType = .ok p) :
      Turn host endian (.linux live) (some (r.stored host walk, p))
        (.linux { live with rx := .ring r' })
  | message {live : Linux.LinuxLive} {buf buf' : List UInt8} {msg : Linux.Message}
      {p : PacketRef} {rest : List (Except IoError Linux.Message)} (hrx : live.rx = .recv buf)
      (h : Linux.recvPacket buf live.snaplen live.linkType [.ok msg] =
        some (.ok (some p), buf', rest)) :
      Turn host endian (.linux live) (some (msg.stored, p))
        (.linux { live with rx := .recv buf' })
  | bpfRead {live : Macos.MacosLive} (bytes : List UInt8) :
      Turn host endian (.macos live) none (.macos (live.refill bytes))
  | bpfFrame {live live' : Macos.MacosLive} {m : Macos.FrameMeta} {p : PacketRef}
      (h : live.parseNextFrame endian = .ok (some m, live')) (hp : live'.packet m = .ok p) :
      Turn host endian (.macos live) (some (live.stored endian, p)) (.macos live')
  | fileEnd {f f' : File.FileCapture} {r : Except Error (Option PacketRef)}
      (h : f.nextPacket = (r, f')) (hr : ∀ p, r ≠ .ok (some p)) :
      Turn host endian (.file f) none (.file f')
  | filePacket {f f' : File.FileCapture} {p : PacketRef} {fr : Frame} {skipped : List Frame}
      (h : f.nextPacket = (.ok (some p), f')) (hf : f.frames = skipped ++ fr :: f'.frames) :
      Turn host endian (.file f) (some (fr, p)) (.file f')

/-- A run, with the packets it yields and the frames they come from. -/
inductive Captures (host : Host) (endian : Endian) :
    Capture → List (Frame × PacketRef) → Capture → Prop where
  | nil {cap : Capture} : Captures host endian cap [] cap
  | cons {cap cap₁ cap' : Capture} {y : Option (Frame × PacketRef)}
      {ys : List (Frame × PacketRef)}
      (h : Turn host endian cap y cap₁) (hr : Captures host endian cap₁ ys cap') :
      Captures host endian cap (y.toList ++ ys) cap'

/-- The snaplen `n` has reached the reader of the source. -/
def Bound (n : Nat) : Capture → Prop
  | .linux live => live.snaplen = n ∧
    match live.rx with
    | .recv buf => buf.length = max n 65535
    | .ring r => r.snaplen = n
  | .macos live => live.snaplen = n
  | .file _ => True

/-- The longest frame whose packet is faithful: a ring and a BPF device know no limit. -/
def limit (n : Nat) : Capture → Option Nat
  | .linux ⟨.recv _, _, _⟩ => some (max n 65535)
  | .linux ⟨.ring _, _, _⟩ => none
  | .macos _ => none
  | .file _ => some n

def Fits (n : Nat) (cap : Capture) (f : Frame) : Prop := ∀ l ∈ limit n cap, f.bytes.length ≤ l

section Snaplen

variable {host : Host} {endian : Endian} {cap cap' : Capture} {n : Nat} {f : Frame} {p : PacketRef}

theorem Turn.bound {y : Option (Frame × PacketRef)} (h : Turn host endian cap y cap')
    (hb : Bound n cap) : Bound n cap' ∧ limit n cap' = limit n cap := by
  cases h with
  | @ring live r r' e hrx h =>
    obtain ⟨rx, snaplen, linkType⟩ := live
    cases hrx
    exact ⟨⟨hb.1, h.snaplen.trans hb.2⟩, rfl⟩
  | @ringFrame live r r' walk m p hrx hw h hp =>
    obtain ⟨rx, snaplen, linkType⟩ := live
    cases hrx
    obtain ⟨walk, m₀, next, -, -, -, rfl⟩ := LinuxRing.Ring.turn_frame h
    exact ⟨hb, rfl⟩
  | @message live buf buf' msg p rest hrx h =>
    obtain ⟨rx, snaplen, linkType⟩ := live
    cases hrx
    obtain ⟨-, -, hlen⟩ := Linux.recvPacket_message h
    exact ⟨⟨hb.1, hlen.trans hb.2⟩, rfl⟩
  | bpfRead bytes => exact ⟨hb, rfl⟩
  | bpfFrame h hp =>
    obtain ⟨nextPos, -, rfl⟩ := Macos.parseNextFrame_ok h
    exact ⟨hb, rfl⟩
  | fileEnd h hr => exact ⟨trivial, rfl⟩
  | filePacket h hf => exact ⟨trivial, rfl⟩

theorem Turn.faithful_iff (h : Turn host endian cap (some (f, p)) cap') (hb : Bound n cap)
    (hn : n < 2 ^ 32) : Faithful n f p ↔ Fits n cap f := by
  cases h with
  | @ringFrame live r r' walk m p hrx hw h hp =>
    obtain ⟨rx, snaplen, linkType⟩ := live
    cases hrx
    obtain ⟨-, hsnap⟩ := hb
    have hf := LinuxRing.Ring.frame_faithful h hw hp
    rw [show r.snaplen = n from hsnap] at hf
    exact iff_of_true hf (by intro l hl; cases hl)
  | @message live buf buf' msg p rest hrx h =>
    obtain ⟨rx, snaplen, linkType⟩ := live
    cases hrx
    obtain ⟨hsnap, hbuf⟩ := hb
    obtain rfl : snaplen = n := hsnap
    change buf.length = max snaplen 65535 at hbuf
    rw [Linux.message_faithful_iff h (by omega), hbuf]
    exact ⟨by rintro hl _ ⟨⟩; exact hl, fun hl => hl _ rfl⟩
  | bpfFrame h hp =>
    have hf := Macos.frame_faithful h hp
    obtain rfl := hb
    exact iff_of_true hf (by intro l hl; cases hl)
  | filePacket h hf =>
    obtain rfl := File.FileCapture.nextPacket_frame h hf
    constructor
    · rintro hf _ ⟨⟩
      exact hf.cut
    · intro hl
      exact ⟨hl n rfl, List.prefix_refl _, rfl⟩

/-- In a run from a bound capture exactly the frames that fit are yielded as they should be. -/
theorem Captures.faithful_iff {ys : List (Frame × PacketRef)}
    (hr : Captures host endian cap ys cap') (hb : Bound n cap) (hn : n < 2 ^ 32) :
    ∀ y ∈ ys, Faithful n y.1 y.2 ↔ Fits n cap y.1 := by
  induction hr with
  | nil => simp
  | @cons cap cap₁ cap' y ys h hr ih =>
    obtain ⟨hb₁, hlimit⟩ := h.bound hb
    intro z hz
    rcases List.mem_append.mp hz with hz | hz
    · cases y with
      | none => cases hz
      | some y =>
        obtain rfl := List.mem_singleton.mp hz
        exact h.faithful_iff hb hn
    · have hrest := ih hb₁ z hz
      rwa [Fits, hlimit] at hrest

theorem openRing_bound {sys : Linux.Sys} {cfg : LinuxRing.RingConfig} {snaplen : Nat}
    {r : LinuxRing.Ring} (h : Linux.openRing sys cfg snaplen = .ok r) : r.snaplen = snaplen := by
  obtain ⟨_, -, h⟩ := bind_ok h
  obtain ⟨geom, -, h⟩ := bind_ok h
  obtain ⟨_, -, h⟩ := bind_ok h
  obtain ⟨map, -, h⟩ := bind_ok h
  cases h
  rfl

theorem openRx_bound {sys : Linux.Sys} {snaplen : Nat} {mode : TimestampMode}
    {ring : Option LinuxRing.RingConfig} {rx : Linux.Rx} {linkType : LinkType}
    (h : Linux.openRx sys snaplen mode ring = .ok rx) :
    Bound snaplen (.linux ⟨rx, snaplen, linkType⟩) := by
  cases ring with
  | none =>
    obtain ⟨_, -, h⟩ := bind_ok h
    cases h
    exact ⟨rfl, List.length_replicate⟩
  | some cfg =>
    obtain ⟨r, hr, h⟩ := bind_ok h
    cases h
    exact ⟨rfl, openRing_bound hr⟩

theorem openInner_bound {sys : Linux.Sys} {iface : String} {filter : Option (List Bpf.Insn)}
    {snaplen : UInt32} {promiscuous : Bool} {mode : TimestampMode}
    {ring : Option LinuxRing.RingConfig} {live : Linux.LinuxLive}
    (h : Linux.LinuxLive.openInner sys iface filter snaplen promiscuous mode ring = .ok live) :
    Bound snaplen.toNat (.linux live) := by
  obtain ⟨_, -, h⟩ := bind_ok h
  obtain ⟨_, -, h⟩ := bind_ok h
  obtain ⟨rx, hrx, h⟩ := bind_ok h
  obtain ⟨_, -, h⟩ := bind_ok h
  obtain ⟨_, -, h⟩ := bind_ok h
  obtain ⟨_, -, h⟩ := bind_ok h
  cases h
  exact openRx_bound hrx

theorem setNonblocking_bound {sys : Linux.Sys} {live live' : Linux.LinuxLive} {nb : Bool}
    (h : live.setNonblocking sys nb = .ok live') (hb : Bound n (.linux live)) :
    Bound n (.linux live') := by
  obtain ⟨rx, snaplen, linkType⟩ := live
  obtain ⟨_, -, h⟩ := bind_ok h
  cases h
  cases rx <;> exact hb

theorem openMacos_bound {sys : Macos.Sys} {iface : String} {filter : Option (List Bpf.Insn)}
    {snaplen : UInt32} {promiscuous : Bool} {live : Macos.MacosLive}
    (h : Macos.MacosLive.open_ sys iface filter snaplen promiscuous = .ok live) :
    live.snaplen = snaplen.toNat := by
  obtain ⟨_, -, h⟩ := bind_ok h
  obtain ⟨_, -, h⟩ := bind_ok h
  obtain ⟨_, -, h⟩ := bind_ok h
  obtain ⟨_, -, h⟩ := bind_ok h
  obtain ⟨_, -, h⟩ := bind_ok h
  cases h
  rfl

theorem open_bound {platform : Platform} {files : File.Readers} {b : CaptureBuilder}
    (h : b.open_ platform files = .ok cap) : Bound b.snaplen.toNat cap := by
  unfold CaptureBuilder.open_ at h
  cases hs : b.source with
  | live iface =>
    rw [hs] at h
    cases platform with
    | linux sys =>
      obtain ⟨linkType, -, h⟩ := bind_ok h
      obtain ⟨prog, -, h⟩ := bind_ok h
      obtain ⟨live, hlive, h⟩ := bind_ok h
      have hb := openInner_bound hlive
      split at h
      · obtain ⟨live', hnb, h⟩ := bind_ok h
        cases h
        exact setNonblocking_bound hnb hb
      · cases h
        exact hb
    | macos sys =>
      obtain ⟨linkType, -, h⟩ := bind_ok h
      obtain ⟨prog, -, h⟩ := bind_ok h
      obtain ⟨live, hlive, h⟩ := bind_ok h
      obtain ⟨_, -, h⟩ := bind_ok h
      cases h
      exact openMacos_bound hlive
  | file path =>
    rw [hs] at h
    obtain ⟨f, -, h⟩ := bind_ok h
    cases h
    trivial

theorem nextFrame_captures {wait : LinuxRing.Ring → Except Error LinuxRing.Ring}
    (hwait : ∀ r r', wait r = .ok r' → ∃ map, r' = { r with map }) {fuel : Nat}
    {r r' : LinuxRing.Ring} {m : LinuxRing.FrameMeta} {snaplen : Nat} {linkType : LinkType}
    (h : LinuxRing.Ring.nextFrame host wait fuel r = some (.ok (some m, r')))
    (hp : r'.packet m linkType = .ok p) :
    ∃ f, Captures host endian (.linux ⟨.ring r, snaplen, linkType⟩) [(f, p)]
      (.linux ⟨.ring r', snaplen, linkType⟩) := by
  induction fuel generalizing r with
  | zero => cases h
  | succ fuel ih =>
    unfold LinuxRing.Ring.nextFrame at h
    cases ht : r.turn host with
    | error e =>
      rw [ht] at h
      cases h
    | ok t =>
      rw [ht] at h
      cases t with
      | take r₁ =>
        obtain ⟨f, hc⟩ := ih h
        exact ⟨f, .cons (.ring rfl (.take ht)) hc⟩
      | release r₁ =>
        obtain ⟨f, hc⟩ := ih h
        exact ⟨f, .cons (.ring rfl (.release ht)) hc⟩
      | frame m₁ r₁ =>
        cases h
        obtain ⟨walk, m₀, next, hw, -⟩ := LinuxRing.Ring.turn_frame ht
        exact ⟨_, .cons (.ringFrame rfl hw ht hp) .nil⟩
      | idle => cases h
      | wait =>
        cases hw : wait r with
        | error e =>
          simp only [hw] at h
          cases h
        | ok r₁ =>
          simp only [hw] at h
          obtain ⟨map, rfl⟩ := hwait r r₁ hw
          obtain ⟨f, hc⟩ := ih h
          exact ⟨f, .cons (.ring rfl (.kernel map)) hc⟩

theorem recvPacket_captures {buf buf' : List UInt8} {snaplen : Nat} {linkType : LinkType}
    {msgs rest : List (Except IoError Linux.Message)}
    (h : Linux.recvPacket buf snaplen linkType msgs = some (.ok (some p), buf', rest)) :
    ∃ f, Captures host endian (.linux ⟨.recv buf, snaplen, linkType⟩) [(f, p)]
      (.linux ⟨.recv buf', snaplen, linkType⟩) := by
  induction msgs with
  | nil => cases h
  | cons r msgs ih =>
    cases r with
    | error e =>
      cases e with
      | interrupted => exact ih h
      | wouldBlock => cases h
      | permissionDenied => cases h
      | other code => cases h
    | ok msg =>
      have hone : Linux.recvPacket buf snaplen linkType [.ok msg] =
          some (.ok (some p), buf', []) := by
        obtain ⟨hres, hrest⟩ := Prod.mk.inj (Option.some.inj h)
        obtain ⟨hbuf, -⟩ := Prod.mk.inj hrest
        rw [← hres, ← hbuf]
        rfl
      exact ⟨_, .cons (.message rfl hone) .nil⟩

theorem parse_captures {live live₁ live' : Macos.MacosLive} {m : Macos.FrameMeta}
    (h : (if live.bufPos < live.bufFilled then live.parseNextFrame endian else .ok (none, live)) =
      .ok (some m, live₁))
    (hp : (some <$> live₁.packet m, live₁) = (Except.ok (some p), live')) :
    ∃ f, Captures host endian (.macos live) [(f, p)] (.macos live') := by
  obtain ⟨hpacket, rfl⟩ := Prod.mk.inj hp
  obtain ⟨q, hq, hqp⟩ := map_ok hpacket
  cases hqp
  split at h
  · exact ⟨_, .cons (.bpfFrame h hq) .nil⟩
  · cases h

theorem parse_none {live live₁ : Macos.MacosLive}
    (h : (if live.bufPos < live.bufFilled then live.parseNextFrame endian else .ok (none, live)) =
      .ok (none, live₁)) : live₁ = live := by
  split at h
  · obtain ⟨found, -, h⟩ := bind_ok h
    split at h <;> cases h
    rfl
  · cases h
    rfl

theorem nextPacket_captures {live live' : Macos.MacosLive}
    {reads rest : List (Except IoError (List UInt8))}
    (h : live.nextPacket endian reads = some (.ok (some p), live', rest)) :
    ∃ f, Captures host endian (.macos live) [(f, p)] (.macos live') := by
  induction reads generalizing live with
  | nil =>
    unfold Macos.MacosLive.nextPacket at h
    simp only at h
    split at h
    · cases h
    · rename_i m live₁ hparse
      obtain ⟨hres, hrest⟩ := Prod.mk.inj (Option.some.inj h)
      exact parse_captures hparse (Prod.ext hres (Prod.mk.inj hrest).1)
    · cases h
  | cons r reads ih =>
    unfold Macos.MacosLive.nextPacket at h
    simp only at h
    split at h
    · cases h
    · rename_i m live₁ hparse
      obtain ⟨hres, hrest⟩ := Prod.mk.inj (Option.some.inj h)
      exact parse_captures hparse (Prod.ext hres (Prod.mk.inj hrest).1)
    · rename_i live₁ hparse
      obtain rfl := parse_none hparse
      cases r with
      | error e =>
        cases e with
        | interrupted => exact ih h
        | wouldBlock => cases h
        | permissionDenied => cases h
        | other code => cases h
      | ok bytes =>
        obtain ⟨f, hc⟩ := ih h
        exact ⟨f, .cons (.bpfRead bytes) hc⟩

theorem file_captures {f f' : File.FileCapture} (h : f.nextPacket = (.ok (some p), f')) :
    ∃ fr, Captures host endian (.file f) [(fr, p)] (.file f') := by
  obtain ⟨hres, hrest, -⟩ := f.nextPacket_eq
  rw [h] at hres hrest
  have hnext : File.FileCapture.next f.filter f.rest = (.ok (some p), f'.rest) :=
    Prod.ext hres.symm hrest.symm
  obtain ⟨before, hcs⟩ := File.FileCapture.next_ok hnext
  have hframes : f.frames = ((before.filterMap Except.toOption).map fun p =>
      (⟨p.data, p.origLen⟩ : Frame)) ++ ⟨p.data, p.origLen⟩ :: f'.frames := by
    rw [File.FileCapture.frames_eq, File.FileCapture.frames_eq, hcs, List.filterMap_append,
      List.map_append]
    rfl
  exact ⟨_, .cons (.filePacket h hframes) .nil⟩

end Snaplen

/-- A call of `next` that yields a packet. -/
inductive Next (host : Host) (endian : Endian) : Capture → PacketRef → Capture → Prop where
  | ring {live : Linux.LinuxLive} {r r' : LinuxRing.Ring} {p : PacketRef} {fuel : Nat}
      {wait : LinuxRing.Ring → Except Error LinuxRing.Ring}
      (hwait : ∀ r r', wait r = .ok r' → ∃ map, r' = { r with map }) (hrx : live.rx = .ring r)
      (h : r.nextPacket host wait fuel live.linkType = some (.ok (some p, r'))) :
      Next host endian (.linux live) p (.linux { live with rx := .ring r' })
  | recv {live : Linux.LinuxLive} {buf buf' : List UInt8} {p : PacketRef}
      {msgs rest : List (Except IoError Linux.Message)} (hrx : live.rx = .recv buf)
      (h : Linux.recvPacket buf live.snaplen live.linkType msgs =
        some (.ok (some p), buf', rest)) :
      Next host endian (.linux live) p (.linux { live with rx := .recv buf' })
  | bpf {live live' : Macos.MacosLive} {p : PacketRef}
      {reads rest : List (Except IoError (List UInt8))}
      (h : live.nextPacket endian reads = some (.ok (some p), live', rest)) :
      Next host endian (.macos live) p (.macos live')
  | file {f f' : File.FileCapture} {p : PacketRef} (h : f.nextPacket = (.ok (some p), f')) :
      Next host endian (.file f) p (.file f')

/-- Such a call is a run of turns of which the last yields the packet. -/
theorem Next.captures {host : Host} {endian : Endian} {cap cap' : Capture} {p : PacketRef}
    (h : Next host endian cap p cap') : ∃ f, Captures host endian cap [(f, p)] cap' := by
  cases h with
  | @ring live r r' p fuel wait hwait hrx h =>
    obtain ⟨rx, snaplen, linkType⟩ := live
    cases hrx
    obtain ⟨m, hm, hp⟩ := LinuxRing.Ring.nextPacket_some h
    exact nextFrame_captures hwait hm hp
  | @recv live buf buf' p msgs rest hrx h =>
    obtain ⟨rx, snaplen, linkType⟩ := live
    cases hrx
    exact recvPacket_captures h
  | bpf h => exact nextPacket_captures h
  | file h => exact file_captures h

/-- Whatever source the builder opens, and however its loops, its callers and the system take
turns: exactly the frames within the limit of the source are yielded cut to the snaplen, with their
own bytes and their length on the wire. A file has the snaplen for its limit, a socket the length
of the receive buffer; a ring and a BPF device have none. -/
theorem snaplen_bounds_iff {platform : Platform} {files : File.Readers} {b : CaptureBuilder}
    {host : Host} {endian : Endian} {cap cap' : Capture} {ys : List (Frame × PacketRef)}
    (ho : b.open_ platform files = .ok cap) (hr : Captures host endian cap ys cap') :
    (∀ y ∈ ys, Faithful b.snaplen.toNat y.1 y.2) ↔ ∀ y ∈ ys, Fits b.snaplen.toNat cap y.1 := by
  have hiff := hr.faithful_iff (open_bound ho) b.snaplen.toNat_lt
  constructor
  · intro h y hy
    exact (hiff y hy).mp (h y hy)
  · intro h y hy
    exact (hiff y hy).mpr (h y hy)

/-- A pcap file with one record of six bytes. -/
def smallFile : File.Readers where
  Handle := Unit
  openFile _ := .ok ()
  fillBuf _ := .ok [0xd4, 0xc3, 0xb2, 0xa1]
  pcap _ := .ok (.ethernet, [.ok ⟨.zero, 6, [1, 2, 3, 4, 5, 6]⟩])
  pcapNg _ := .error ⟨""⟩

/-- A system where every call succeeds. -/
def plainLinux : Linux.Sys where
  host := ⟨64, .little⟩
  queryLinkType _ := .ok .ethernet
  socket := .ok ()
  attachFilter _ := .ok ()
  setVersion := .ok ()
  pageSize := 4096
  setRing _ := .ok ()
  mmap _ := .ok fun _ => 0
  setTimestamping _ := .ok ()
  ifaceIndex _ := .ok ()
  addMembership := .ok ()
  bind := .ok ()
  setFlags := .ok ()

/-- The packet of the record, and the capture in front of it and behind it. -/
def smallPacket : PacketRef := ⟨[1, 2, 3, 4, 5, 6], 0, 6, .ethernet⟩

def smallCapture (records : File.Stream File.PcapPacket) (scratch : List UInt8) :
    File.FileCapture := ⟨.pcap records, none, .ethernet, [], scratch⟩

theorem smallFile_captures (host : Host) (endian : Endian) :
    Captures host endian
      (.file (smallCapture [.ok ⟨.zero, 6, [1, 2, 3, 4, 5, 6]⟩] []))
      [(⟨[1, 2, 3, 4, 5, 6], 6⟩, smallPacket)]
      (.file (smallCapture [] [1, 2, 3, 4, 5, 6])) :=
  .cons (.filePacket rfl (show _ = [] ++ _ from rfl)) .nil

theorem snaplen_bounds_small : ∃ cap cap' f p,
    ((CaptureBuilder.new (.file [])).withSnaplen 6).open_ (.linux plainLinux) smallFile = .ok cap ∧
      Captures ⟨64, .little⟩ .little cap [(f, p)] cap' ∧ Faithful 6 f p := by
  refine ⟨_, _, _, _, rfl, smallFile_captures _ _, ?_⟩
  have hopen : ((CaptureBuilder.new (.file [])).withSnaplen 6).open_ (.linux plainLinux)
      smallFile = .ok _ := rfl
  refine (snaplen_bounds_iff hopen (smallFile_captures ⟨64, .little⟩ .little)).mpr ?_ _
    List.mem_cons_self
  intro y hy l hl
  obtain rfl := List.mem_singleton.mp hy
  cases hl
  decide

/-- With a snaplen of 4 all six bytes of the record are yielded. -/
theorem snaplen_ignored : ∃ cap cap' f p,
    ((CaptureBuilder.new (.file [])).withSnaplen 4).open_ (.linux plainLinux) smallFile = .ok cap ∧
      Captures ⟨64, .little⟩ .little cap [(f, p)] cap' ∧ ¬ Faithful 4 f p := by
  refine ⟨_, _, _, _, rfl, smallFile_captures _ _, ?_⟩
  intro h
  exact absurd h.cut (by decide)

end PktBaffle.Pkttap
