import PktBaffle.Proofs.Pkttap.RingWalk

namespace PktBaffle.Pkttap.LinuxRing
open Classic (LinkType)

/-- A frame as the kernel stores it. -/
structure KernelFrame where
  tsSec : Nat
  tsNsec : Nat
  origLen : Nat
  bytes : List UInt8

/-- The packet the reader makes of it. -/
def KernelFrame.packet (snaplen : Nat) (linkType : LinkType) (f : KernelFrame) : PacketRef :=
  ⟨f.bytes.take snaplen, f.tsSec * 10 ^ 9 + f.tsNsec, f.origLen, linkType⟩

/-- At `offset` of the block stands the header of `f`, its bytes behind it. -/
structure FrameAt (host : Host) (block : List UInt8) (offset : Nat) (f : KernelFrame) : Prop where
  header : offset + tpacket3HdrSize ≤ block.length
  tsSec : (readTpacket3Hdr host block offset).tpSec = f.tsSec
  tsNsec : (readTpacket3Hdr host block offset).tpNsec = f.tsNsec
  origLen : (readTpacket3Hdr host block offset).tpLen = f.origLen
  stored : (readTpacket3Hdr host block offset).tpSnaplen = f.bytes.length
  inside : offset + (readTpacket3Hdr host block offset).tpMac + f.bytes.length ≤ block.length
  bytes : (block.drop (offset + (readTpacket3Hdr host block offset).tpMac)).take f.bytes.length =
    f.bytes

/-- From `offset` on the frames are chained by their next offsets; the last one has 0 there. -/
def Chained (host : Host) (block : List UInt8) : Nat → List KernelFrame → Prop
  | _, [] => True
  | offset, f :: fs => FrameAt host block offset f ∧
    ((readTpacket3Hdr host block offset).tpNextOffset = 0 ↔ fs = []) ∧
    Chained host block (offset + (readTpacket3Hdr host block offset).tpNextOffset) fs

/-- A block as the kernel hands it over: `num_pkts` frames in a chain, or none. -/
structure WellFormed (host : Host) (block : List UInt8) (frames : List KernelFrame) : Prop where
  numPkts : host.field block 12 4 = frames.length
  chained : Chained host block (host.field block 16 4) frames

section Frames

variable {host : Host} {block : List UInt8} {offset snaplen : Nat} {f : KernelFrame}
  {fs : List KernelFrame}

/-- The frame's metadata, its offset counted from the block. -/
def KernelFrame.metaAt (host : Host) (block : List UInt8) (offset snaplen : Nat)
    (f : KernelFrame) : FrameMeta :=
  ⟨offset + (readTpacket3Hdr host block offset).tpMac, min f.bytes.length snaplen, f.tsSec,
    f.tsNsec, f.origLen⟩

/-- The next offset of a frame as the reader takes it. -/
def nextAt (host : Host) (block : List UInt8) (offset : Nat) (fs : List KernelFrame) :
    Option Nat :=
  if fs = [] then none else some (offset + (readTpacket3Hdr host block offset).tpNextOffset)

theorem parseFrame_chained (hlen : block.length < 2 ^ host.width)
    (h : Chained host block offset (f :: fs)) :
    parseFrame host block offset snaplen =
      some (f.metaAt host block offset snaplen, nextAt host block offset fs) := by
  obtain ⟨hf, hlast, hrest⟩ := h
  have := hf.header
  have := hf.inside
  have hadd : ∀ {a b : Nat}, a + b ≤ block.length →
      Usize.checkedAdd host.width a b = some (a + b) := by
    intro a b hab
    exact Usize.checkedAdd_of_lt (by omega)
  unfold parseFrame
  simp only [Option.bind_eq_bind]
  rw [hadd (by omega), Option.bind_some, if_neg (by omega)]
  simp only [Option.pure_def, Option.bind_some]
  rw [hadd (by omega), Option.bind_some, hf.stored, hadd (by omega), Option.bind_some,
    if_neg (by omega), hf.tsSec, hf.tsNsec, hf.origLen]
  unfold nextAt KernelFrame.metaAt
  cases fs with
  | nil =>
    rw [hlast.mpr rfl, if_pos rfl]
    rfl
  | cons g gs =>
    have hnext : offset + (readTpacket3Hdr host block offset).tpNextOffset + 48 ≤ block.length :=
      hrest.1.header
    rw [if_neg (List.cons_ne_nil g gs)]
    cases hn : (readTpacket3Hdr host block offset).tpNextOffset with
    | zero => exact absurd (hlast.mp hn) (List.cons_ne_nil g gs)
    | succ n =>
      rw [hn] at hnext
      simp only [hadd (show offset + (n + 1) ≤ block.length by omega)]
      rfl

end Frames

/-- The reader's ring, and what has been handed over in it so far. -/
structure Protocol where
  ring : Ring
  /-- The frames of the blocks the kernel has filled, the first block first. -/
  filled : List (List KernelFrame)
  returned : List PacketRef
  /-- The blocks given back, each with the number of packets returned by then. -/
  released : List (Nat × Nat)

/-- Outside block `j` the memory is the same. -/
def Outside (geom : Geometry) (j : Nat) (map map' : Memory) : Prop :=
  ∀ i, i < j * geom.blockSize ∨ j * geom.blockSize + geom.blockSize ≤ i → map' i = map i

/-- The kernel writes to a block that is its own, or completes the next one in turn and hands it
over. -/
inductive KernelStep (host : Host) : Protocol → Protocol → Prop where
  | write {s : Protocol} {j : Nat} {map : Memory} (hj : j < s.ring.geom.blockCount)
      (hown : ¬ Ring.UserIn host s.ring.map s.ring.geom j)
      (hout : Outside s.ring.geom j s.ring.map map)
      (hstill : ¬ Ring.UserIn host map s.ring.geom j) :
      KernelStep host s { s with ring := { s.ring with map } }
  | fill {s : Protocol} {j : Nat} {map : Memory} {frames : List KernelFrame}
      (hj : j = s.filled.length % s.ring.geom.blockCount)
      (hown : ¬ Ring.UserIn host s.ring.map s.ring.geom j)
      (hout : Outside s.ring.geom j s.ring.map map)
      (hwf : WellFormed host (map.slice (j * s.ring.geom.blockSize) s.ring.geom.blockSize) frames)
      (huser : Ring.UserIn host map s.ring.geom j) :
      KernelStep host s
        { s with ring := { s.ring with map }, filled := s.filled ++ [frames] }

/-- One turn of the reader's loop; `some p` when it ends a call with a packet. -/
inductive ReaderStep (host : Host) (linkType : LinkType) :
    Protocol → Option PacketRef → Protocol → Prop where
  | take {s : Protocol} {r : Ring} (h : s.ring.turn host = .ok (.take r)) :
      ReaderStep host linkType s none { s with ring := r }
  | release {s : Protocol} {r : Ring} (h : s.ring.turn host = .ok (.release r)) :
      ReaderStep host linkType s none
        { s with
          ring := r
          released := s.released ++ [(s.ring.curBlock, s.returned.length)] }
  | frame {s : Protocol} {r : Ring} {m : FrameMeta} {p : PacketRef}
      (h : s.ring.turn host = .ok (.frame m r)) (hp : r.packet m linkType = .ok p) :
      ReaderStep host linkType s (some p) { s with ring := r, returned := s.returned ++ [p] }

namespace Protocol

variable (host : Host) (linkType : LinkType) (s : Protocol)

/-- The packets of frames, each cut to the snaplen. -/
def packets (frames : List KernelFrame) : List PacketRef :=
  frames.map (KernelFrame.packet s.ring.snaplen linkType)

/-- How far the reader has come in the block it walks. -/
structure InBlock (walk : Walk) (done rest : List KernelFrame) : Prop where
  held : s.ring.walk = some walk
  block : s.filled[s.released.length]? = some (done ++ rest)
  remaining : walk.remaining = rest.length
  chained : Chained host (s.ring.blockBytes s.ring.curBlock) walk.offset rest
  returned : s.returned = s.packets linkType ((s.filled.take s.released.length).flatten ++ done)

/-- The blocks that are filled and not released are with the reader, the others with the kernel;
what has been returned is what the released blocks and the part walked of the current one held. -/
structure Inv : Prop where
  valid : s.ring.Valid host
  nonblocking : s.ring.nonblocking = true
  cur : s.ring.curBlock = s.released.length % s.ring.geom.blockCount
  room : s.filled.length ≤ s.released.length + s.ring.geom.blockCount
  le : s.released.length ≤ s.filled.length
  user : ∀ j, j < s.ring.geom.blockCount → (Ring.UserIn host s.ring.map s.ring.geom j ↔
    ∃ k, s.released.length ≤ k ∧ k < s.filled.length ∧ k % s.ring.geom.blockCount = j)
  wellFormed : ∀ k frames, s.released.length ≤ k → s.filled[k]? = some frames →
    WellFormed host (s.ring.blockBytes (k % s.ring.geom.blockCount)) frames
  log : s.released = (List.range s.released.length).map fun k =>
    (k % s.ring.geom.blockCount, (s.filled.take (k + 1)).flatten.length)
  walk : (s.ring.walk = none ∧
      s.returned = s.packets linkType (s.filled.take s.released.length).flatten) ∨
    ∃ walk done rest, s.InBlock host linkType walk done rest

end Protocol

section Blocks

variable {host : Host} {geom : Geometry} {map map' : Memory} {i j : Nat}

theorem block_apart (h : i ≠ j) (size : Nat) :
    i * size + size ≤ j * size ∨ j * size + size ≤ i * size := by
  have hstep : ∀ {a b : Nat}, a < b → a * size + size ≤ b * size := by
    intro a b hlt
    calc a * size + size = (a + 1) * size := by rw [Nat.add_mul, Nat.one_mul]
      _ ≤ b * size := Nat.mul_le_mul_right _ hlt
  rcases Nat.lt_or_gt_of_ne h with hlt | hgt
  · exact .inl (hstep hlt)
  · exact .inr (hstep hgt)

theorem Outside.slice (h : Outside geom j map map') (hij : i ≠ j) :
    map'.slice (i * geom.blockSize) geom.blockSize =
      map.slice (i * geom.blockSize) geom.blockSize := by
  apply slice_congr
  intro x hx
  apply h
  rcases block_apart hij geom.blockSize with hb | hb
  · exact .inl (by omega)
  · exact .inr (by omega)

theorem Outside.userIn (h : Outside geom j map map') (hs : 48 ≤ geom.blockSize) (hij : i ≠ j) :
    Ring.UserIn host map' geom i ↔ Ring.UserIn host map geom i := by
  have hslice : map'.slice (i * geom.blockSize + blockStatusOffset) 4 =
      map.slice (i * geom.blockSize + blockStatusOffset) 4 := by
    apply slice_congr
    intro x hx
    apply h
    unfold blockStatusOffset
    rcases block_apart hij geom.blockSize with hb | hb
    · exact .inl (by omega)
    · exact .inr (by omega)
  unfold Ring.UserIn Ring.statusIn
  rw [hslice]

/-- A release writes to its own block only. -/
theorem Ring.released_outside (r : Ring) (hs : 48 ≤ r.geom.blockSize) :
    Outside r.geom r.curBlock r.map (r.released host).map := by
  intro i hi
  apply write_frame
  rw [kernelStatus_length]
  unfold blockStatusOffset
  omega

/-- Among as many fills in a row as there are blocks no two go to the same one. -/
theorem fill_unique {t c k k' : Nat} (h₁ : t ≤ k) (h₂ : k < t + c) (h₁' : t ≤ k')
    (h₂' : k' < t + c) (h : k % c = k' % c) : k = k' := by
  have hle : ∀ {a b : Nat}, a ≤ b → b - a < c → a % c = b % c → a = b := by
    intro a b hab hlt hmod
    have hz := Nat.sub_mod_eq_zero_of_mod_eq hmod.symm
    rw [Nat.mod_eq_of_lt hlt] at hz
    omega
  rcases Nat.le_total k k' with hk | hk
  · exact hle hk (by omega) h
  · exact (hle hk (by omega) h.symm).symm

end Blocks

namespace Protocol

variable {host : Host} {linkType : LinkType} {s s' : Protocol}

/-- The blocks the reader has not released yet are not the kernel's. -/
theorem Inv.apart (h : s.Inv host linkType) {j k : Nat} (hj : j < s.ring.geom.blockCount)
    (hown : ¬ Ring.UserIn host s.ring.map s.ring.geom j) (h₁ : s.released.length ≤ k)
    (h₂ : k < s.filled.length) : k % s.ring.geom.blockCount ≠ j := by
  intro hk
  exact hown ((h.user j hj).mpr ⟨k, h₁, h₂, hk⟩)

/-- Bytes outside a block of the kernel's are as they were for the reader. -/
theorem Inv.kept (h : s.Inv host linkType) {j k : Nat} {map : Memory}
    (hj : j < s.ring.geom.blockCount) (hown : ¬ Ring.UserIn host s.ring.map s.ring.geom j)
    (hout : Outside s.ring.geom j s.ring.map map) (h₁ : s.released.length ≤ k)
    (h₂ : k < s.filled.length) :
    Ring.blockBytes { s.ring with map } (k % s.ring.geom.blockCount) =
      s.ring.blockBytes (k % s.ring.geom.blockCount) :=
  hout.slice (h.apart hj hown h₁ h₂)

theorem InBlock.lt {walk : Walk} {done rest : List KernelFrame}
    (h : s.InBlock host linkType walk done rest) : s.released.length < s.filled.length :=
  (List.getElem?_eq_some_iff.mp h.block).1

/-- The reader's place in its block outlives what the kernel does to another one. -/
theorem InBlock.kept (h : s.Inv host linkType) {walk : Walk} {done rest : List KernelFrame}
    (hb : s.InBlock host linkType walk done rest) {j : Nat} {map : Memory}
    (hj : j < s.ring.geom.blockCount) (hown : ¬ Ring.UserIn host s.ring.map s.ring.geom j)
    (hout : Outside s.ring.geom j s.ring.map map) {filled : List (List KernelFrame)}
    (hfilled : s.filled <+: filled) :
    InBlock host linkType { s with ring := { s.ring with map }, filled } walk done rest := by
  obtain ⟨more, rfl⟩ := hfilled
  have hkept := h.kept hj hown hout (Nat.le_refl _) hb.lt
  rw [← h.cur] at hkept
  refine ⟨hb.held, (List.getElem?_append_left hb.lt).trans hb.block, hb.remaining, ?_, ?_⟩
  · change Chained host (Ring.blockBytes { s.ring with map } s.ring.curBlock) _ _
    rw [hkept]
    exact hb.chained
  · have htake : (s.filled ++ more).take s.released.length = s.filled.take s.released.length :=
      List.take_append_of_le_length (Nat.le_of_lt hb.lt)
    change _ = packets linkType _ (((s.filled ++ more).take s.released.length).flatten ++ _)
    rw [htake]
    exact hb.returned

theorem Inv.write (h : s.Inv host linkType) {j : Nat} {map : Memory}
    (hj : j < s.ring.geom.blockCount) (hown : ¬ Ring.UserIn host s.ring.map s.ring.geom j)
    (hout : Outside s.ring.geom j s.ring.map map)
    (hstill : ¬ Ring.UserIn host map s.ring.geom j) :
    Inv host linkType { s with ring := { s.ring with map } } where
  valid := ⟨h.valid.blockSize, h.valid.blockCount, h.valid.mapped, h.valid.addressed, h.valid.cur⟩
  nonblocking := h.nonblocking
  cur := h.cur
  room := h.room
  le := h.le
  user := by
    intro i hi
    by_cases hij : i = j
    · subst hij
      exact iff_of_false hstill fun hk => hown ((h.user i hi).mpr hk)
    · exact (hout.userIn h.valid.blockSize hij).trans (h.user i hi)
  wellFormed := by
    intro k frames hk hframes
    have hlt := (List.getElem?_eq_some_iff.mp hframes).1
    rw [h.kept hj hown hout hk hlt]
    exact h.wellFormed k frames hk hframes
  log := h.log
  walk := by
    rcases h.walk with hw | ⟨walk, done, rest, hw⟩
    · exact .inl hw
    · exact .inr ⟨walk, done, rest, hw.kept h hj hown hout (List.prefix_refl _)⟩

theorem Inv.fill (h : s.Inv host linkType) {j : Nat} {map : Memory} {frames : List KernelFrame}
    (hj : j = s.filled.length % s.ring.geom.blockCount)
    (hown : ¬ Ring.UserIn host s.ring.map s.ring.geom j)
    (hout : Outside s.ring.geom j s.ring.map map)
    (hwf : WellFormed host (map.slice (j * s.ring.geom.blockSize) s.ring.geom.blockSize) frames)
    (huser : Ring.UserIn host map s.ring.geom j) :
    Inv host linkType
      { s with ring := { s.ring with map }, filled := s.filled ++ [frames] } := by
  have hcount := h.valid.blockCount
  have hjlt : j < s.ring.geom.blockCount := by
    rw [hj]
    exact Nat.mod_lt _ hcount
  have hle := h.le
  have htake : ∀ k, k ≤ s.filled.length → (s.filled ++ [frames]).take k = s.filled.take k :=
    fun k hk => List.take_append_of_le_length hk
  -- the block was the kernel's, so not all blocks were with the reader
  have hroom : s.filled.length < s.released.length + s.ring.geom.blockCount := by
    by_contra hfull
    have heq : s.filled.length = s.released.length + s.ring.geom.blockCount :=
      Nat.le_antisymm h.room (Nat.le_of_not_lt hfull)
    refine h.apart hjlt hown (Nat.le_refl _) (by omega) ?_
    rw [hj, heq, Nat.add_mod_right]
  constructor
  · exact ⟨h.valid.blockSize, h.valid.blockCount, h.valid.mapped, h.valid.addressed, h.valid.cur⟩
  · exact h.nonblocking
  · exact h.cur
  · rw [List.length_append]
    exact hroom
  · rw [List.length_append]
    exact Nat.le_succ_of_le hle
  · intro i hi
    simp only [List.length_append, List.length_singleton]
    by_cases hij : i = j
    · subst hij
      exact iff_of_true huser ⟨s.filled.length, hle, Nat.lt_succ_self _, hj.symm⟩
    · refine ((hout.userIn h.valid.blockSize hij).trans (h.user i hi)).trans ?_
      constructor
      · rintro ⟨k, h₁, h₂, hk⟩
        exact ⟨k, h₁, Nat.lt_succ_of_lt h₂, hk⟩
      · rintro ⟨k, h₁, h₂, hk⟩
        refine ⟨k, h₁, Nat.lt_of_le_of_ne (Nat.le_of_lt_succ h₂) ?_, hk⟩
        rintro rfl
        exact hij (hk.symm.trans hj.symm)
  · intro k frames' hk hframes
    rcases Nat.lt_or_ge k s.filled.length with hlt | hge
    · rw [List.getElem?_append_left hlt] at hframes
      rw [h.kept hjlt hown hout hk hlt]
      exact h.wellFormed k frames' hk hframes
    · have hlast : k = s.filled.length := by
        have := (List.getElem?_eq_some_iff.mp hframes).1
        rw [List.length_append, List.length_singleton] at this
        omega
      subst hlast
      rw [List.getElem?_concat_length] at hframes
      cases hframes
      rw [← hj]
      exact hwf
  · refine h.log.trans (List.map_congr_left ?_)
    intro k hk
    have := List.mem_range.mp hk
    rw [htake (k + 1) (by omega)]
  · have hsame := htake s.released.length hle
    rcases h.walk with ⟨hw, hret⟩ | ⟨walk, done, rest, hw⟩
    · refine .inl ⟨hw, ?_⟩
      change _ = packets linkType _ (((s.filled ++ [frames]).take s.released.length).flatten)
      rw [hsame]
      exact hret
    · exact .inr ⟨walk, done, rest, hw.kept h hjlt hown hout (List.prefix_append _ _)⟩

theorem Inv.kernelStep (h : s.Inv host linkType) (hs : KernelStep host s s') :
    s'.Inv host linkType := by
  cases hs with
  | write hj hown hout hstill => exact h.write hj hown hout hstill
  | fill hj hown hout hwf huser => exact h.fill hj hown hout hwf huser

section Reader

variable {walk : Walk} {done rest fs : List KernelFrame} {f : KernelFrame}

theorem InBlock.act_last (hb : s.InBlock host linkType walk done []) :
    s.ring.act host = .release (s.ring.released host) := by
  unfold Ring.act
  rw [hb.held]
  exact if_pos hb.remaining

theorem Inv.block_length (h : s.Inv host linkType) :
    (s.ring.blockBytes s.ring.curBlock).length < 2 ^ host.width := by
  have hend := h.valid.block_end h.valid.cur
  have haddr := h.valid.addressed
  have hlen : (s.ring.blockBytes s.ring.curBlock).length = s.ring.geom.blockSize := slice_length
  omega

/-- The metadata of the frame at hand, its offset counted from the mapping. -/
def frameMeta (host : Host) (s : Protocol) (walk : Walk) (f : KernelFrame) : FrameMeta :=
  let m := f.metaAt host (s.ring.blockBytes s.ring.curBlock) walk.offset s.ring.snaplen
  { m with offset := s.ring.curBlock * s.ring.geom.blockSize + m.offset }

/-- The walk behind the frame at hand. -/
def walkOn (host : Host) (s : Protocol) (walk : Walk) (fs : List KernelFrame) : Walk :=
  Ring.nextWalk walk (nextAt host (s.ring.blockBytes s.ring.curBlock) walk.offset fs)

theorem InBlock.act_frame (h : s.Inv host linkType)
    (hb : s.InBlock host linkType walk done (f :: fs)) :
    s.ring.act host = .frame (s.frameMeta host walk f)
      { s.ring with walk := some (s.walkOn host walk fs) } := by
  have hne : walk.remaining ≠ 0 := by
    rw [hb.remaining]
    exact Nat.succ_ne_zero _
  unfold Ring.act
  rw [hb.held]
  simp only [hne, if_false, parseFrame_chained h.block_length hb.chained]
  rfl

/-- The packet the reader returns is the stored frame, cut to the snaplen. -/
theorem InBlock.packet_eq (h : s.Inv host linkType)
    (hb : s.InBlock host linkType walk done (f :: fs)) :
    Ring.packet { s.ring with walk := some (s.walkOn host walk fs) } (s.frameMeta host walk f)
      linkType = .ok (f.packet s.ring.snaplen linkType) := by
  obtain ⟨hf, -, -⟩ := hb.chained
  have hlen : (s.ring.blockBytes s.ring.curBlock).length = s.ring.geom.blockSize := slice_length
  have hin := hf.inside
  rw [hlen] at hin
  have hend := h.valid.block_end h.valid.cur
  have hstored := (slice_drop_take s.ring.map hin).symm.trans hf.bytes
  have hread : Ring.bytes { s.ring with walk := some (s.walkOn host walk fs) }
      (s.frameMeta host walk f).offset (s.frameMeta host walk f).len =
      .ok (f.bytes.take s.ring.snaplen) := by
    rw [(congrArg (List.take s.ring.snaplen) hstored).symm.trans (slice_take _ _ _ _)]
    refine Ring.Valid.bytes_eq ?_
    change s.ring.curBlock * s.ring.geom.blockSize + (walk.offset +
      (readTpacket3Hdr host (s.ring.blockBytes s.ring.curBlock) walk.offset).tpMac) +
      min f.bytes.length s.ring.snaplen ≤ s.ring.mapLen
    omega
  have hsec : f.tsSec < 256 ^ 4 := by
    rw [← hf.tsSec]
    exact host.field_lt _ _ _
  have hnsec : f.tsNsec < 256 ^ 4 := by
    rw [← hf.tsNsec]
    exact host.field_lt _ _ _
  have htime : systemTime f.tsSec f.tsNsec = .ok (f.tsSec * 10 ^ 9 + f.tsNsec) := by
    have hdiv : f.tsNsec / 10 ^ 9 ≤ f.tsNsec := Nat.div_le_self _ _
    unfold systemTime
    rw [if_neg (by omega), if_neg (by omega)]
  unfold Ring.packet
  rw [hread]
  change PacketRef.new _ f.tsSec f.tsNsec f.origLen linkType = _
  unfold PacketRef.new
  rw [htime]
  rfl

/-- The block in hand, when one is taken, is the first that is filled and not released. -/
theorem Inv.taken (h : s.Inv host linkType)
    (hu : Ring.UserIn host s.ring.map s.ring.geom s.ring.curBlock) :
    s.released.length < s.filled.length := by
  obtain ⟨k, h₁, h₂, hk⟩ := (h.user _ h.valid.cur).mp hu
  exact Nat.lt_of_le_of_lt h₁ h₂

theorem Inv.take (h : s.Inv host linkType) (hw : s.ring.walk = none)
    (hu : Ring.UserIn host s.ring.map s.ring.geom s.ring.curBlock) :
    Inv host linkType { s with ring := { s.ring with
      walk := some ⟨host.field (s.ring.blockBytes s.ring.curBlock) 16 4,
        host.field (s.ring.blockBytes s.ring.curBlock) 12 4⟩ } } := by
  have hlt := h.taken hu
  have hblock : s.filled[s.released.length]? = some s.filled[s.released.length] :=
    List.getElem?_eq_getElem hlt
  have hwf := h.wellFormed _ _ (Nat.le_refl _) hblock
  rw [← h.cur] at hwf
  have hret : s.returned = s.packets linkType (s.filled.take s.released.length).flatten := by
    rcases h.walk with ⟨-, hret⟩ | ⟨walk, done, rest, hb⟩
    · exact hret
    · exact absurd (hw.symm.trans hb.held) (by simp)
  refine ⟨⟨h.valid.blockSize, h.valid.blockCount, h.valid.mapped, h.valid.addressed,
    h.valid.cur⟩, h.nonblocking, h.cur, h.room, h.le, h.user, h.wellFormed, h.log, .inr ?_⟩
  refine ⟨_, [], _, rfl, hblock, hwf.numPkts, hwf.chained, ?_⟩
  rw [List.append_nil]
  exact hret

theorem Inv.frame (h : s.Inv host linkType)
    (hb : s.InBlock host linkType walk done (f :: fs)) :
    Inv host linkType
      { s with
        ring := { s.ring with walk := some (s.walkOn host walk fs) }
        returned := s.returned ++ [f.packet s.ring.snaplen linkType] } := by
  obtain ⟨-, hlast, hrest⟩ := hb.chained
  refine ⟨⟨h.valid.blockSize, h.valid.blockCount, h.valid.mapped, h.valid.addressed,
    h.valid.cur⟩, h.nonblocking, h.cur, h.room, h.le, h.user, h.wellFormed, h.log, .inr ?_⟩
  refine ⟨s.walkOn host walk fs, done ++ [f], fs, rfl, ?_, ?_, ?_, ?_⟩
  · rw [List.append_assoc]
    exact hb.block
  · cases fs with
    | nil => rfl
    | cons g gs =>
      have hrem := hb.remaining
      simp only [List.length_cons] at hrem
      simp only [walkOn, nextAt, List.cons_ne_nil, if_false, Ring.nextWalk]
      rw [if_pos (by omega), List.length_cons]
      exact Nat.sub_eq_of_eq_add hrem
  · cases fs with
    | nil => trivial
    | cons g gs =>
      have hrem := hb.remaining
      simp only [List.length_cons] at hrem
      simp only [walkOn, nextAt, List.cons_ne_nil, if_false, Ring.nextWalk]
      rw [if_pos (by omega)]
      exact hrest
  · have hret : s.returned ++ [f.packet s.ring.snaplen linkType] = s.packets linkType
        ((s.filled.take s.released.length).flatten ++ (done ++ [f])) := by
      rw [hb.returned, ← List.append_assoc]
      simp only [packets, List.map_append, List.map_cons, List.map_nil]
    exact hret

theorem Inv.release (h : s.Inv host linkType) (hb : s.InBlock host linkType walk done []) :
    Inv host linkType
      { s with
        ring := s.ring.released host
        released := s.released ++ [(s.ring.curBlock, s.returned.length)] } := by
  have hsize := h.valid.blockSize
  have hlt := hb.lt
  have hroom := h.room
  have hlen : (s.released ++ [(s.ring.curBlock, s.returned.length)]).length =
      s.released.length + 1 := List.length_append
  -- what the released blocks held, with this one
  have hheld : (s.filled.take (s.released.length + 1)).flatten =
      (s.filled.take s.released.length).flatten ++ done := by
    rw [List.take_add_one, hb.block, List.append_nil]
    exact (List.flatten_append).trans (congrArg _ (List.append_nil done))
  have hret : s.returned = s.packets linkType
      (s.filled.take (s.released.length + 1)).flatten := by
    rw [hheld]
    exact hb.returned
  have hlog : s.released ++ [(s.ring.curBlock, s.returned.length)] =
      (List.range (s.released.length + 1)).map fun k =>
        (k % s.ring.geom.blockCount, (s.filled.take (k + 1)).flatten.length) := by
    rw [List.range_succ, List.map_append, ← h.log, h.cur, hret]
    simp only [packets, List.length_map, List.map_cons, List.map_nil]
  have hfirst : ∀ k, s.released.length + 1 ≤ k → k < s.filled.length →
      k % s.ring.geom.blockCount ≠ s.ring.curBlock := by
    intro k h₁ h₂ hk
    rw [h.cur] at hk
    have := fill_unique (Nat.le_of_succ_le h₁) (by omega) (Nat.le_refl _)
      (Nat.lt_add_of_pos_right h.valid.blockCount) hk
    omega
  constructor
  · exact h.valid.released
  · exact h.nonblocking
  · rw [hlen]
    change (s.ring.curBlock + 1) % s.ring.geom.blockCount = _
    rw [h.cur, Nat.mod_add_mod]
    rfl
  · rw [hlen]
    change s.filled.length ≤ s.released.length + 1 + s.ring.geom.blockCount
    omega
  · rw [hlen]
    exact hlt
  · intro j hj
    rw [hlen]
    refine (Ring.userIn_released hsize j).trans ?_
    rw [h.user j hj]
    constructor
    · rintro ⟨hne, k, h₁, h₂, hk⟩
      refine ⟨k, Nat.lt_of_le_of_ne h₁ ?_, h₂, hk⟩
      rintro rfl
      exact hne (hk.symm.trans h.cur.symm)
    · rintro ⟨k, h₁, h₂, hk⟩
      refine ⟨?_, k, Nat.le_of_succ_le h₁, h₂, hk⟩
      rw [← hk]
      exact hfirst k h₁ h₂
  · intro k frames hk hframes
    rw [hlen] at hk
    have hklt := (List.getElem?_eq_some_iff.mp hframes).1
    have hkept := (@Ring.released_outside host s.ring hsize).slice (hfirst k hk hklt)
    change WellFormed host ((s.ring.released host).map.slice
      (k % s.ring.geom.blockCount * s.ring.geom.blockSize) s.ring.geom.blockSize) frames
    rw [hkept]
    exact h.wellFormed k frames (Nat.le_of_succ_le hk) hframes
  · rw [hlen]
    exact hlog
  · refine .inl ⟨rfl, ?_⟩
    rw [hlen]
    exact hret

/-- The reader's turns keep the invariant. -/
theorem Inv.readerStep (h : s.Inv host linkType) {o : Option PacketRef}
    (hs : ReaderStep host linkType s o s') : s'.Inv host linkType := by
  have hact := Ring.act_spec h.valid
  cases hs with
  | @take r ht =>
    rw [h.valid.turn_eq, Except.ok.injEq] at ht
    rw [ht] at hact
    obtain ⟨hw, hu, rfl⟩ := hact
    exact h.take hw hu
  | @release r ht =>
    rw [h.valid.turn_eq, Except.ok.injEq] at ht
    rw [ht] at hact
    obtain ⟨hw, rfl⟩ := hact
    rcases h.walk with ⟨hnone, -⟩ | ⟨walk, done, rest, hb⟩
    · exact absurd hnone hw
    · cases rest with
      | nil => exact h.release hb
      | cons f fs =>
        rw [hb.act_frame h] at ht
        cases ht
  | @frame r m p ht hp =>
    rw [h.valid.turn_eq, Except.ok.injEq] at ht
    rw [ht] at hact
    obtain ⟨-, walk', next, hw, -⟩ := hact
    rcases h.walk with ⟨hnone, -⟩ | ⟨walk, done, rest, hb⟩
    · rw [hnone] at hw
      cases hw
    · cases rest with
      | nil =>
        rw [hb.act_last] at ht
        cases ht
      | cons f fs =>
        rw [hb.act_frame h] at ht
        cases ht
        rw [hb.packet_eq h] at hp
        cases hp
        exact h.frame hb

/-- With nothing to take everything has been returned and released. -/
theorem Inv.idle (h : s.Inv host linkType) (ht : s.ring.act host = .idle) :
    s.returned = s.packets linkType s.filled.flatten ∧
      s.released.length = s.filled.length := by
  have hact := Ring.act_spec h.valid
  rw [ht] at hact
  obtain ⟨hw, -⟩ := hact
  have hu : ¬ Ring.UserIn host s.ring.map s.ring.geom s.ring.curBlock := by
    intro hu
    simp [Ring.act, hw, hu] at ht
  have hlen : s.released.length = s.filled.length := by
    by_contra hne
    have hlt := Nat.lt_of_le_of_ne h.le hne
    exact hu ((h.user _ h.valid.cur).mpr ⟨_, Nat.le_refl _, hlt, h.cur.symm⟩)
  refine ⟨?_, hlen⟩
  rcases h.walk with ⟨-, hret⟩ | ⟨walk, done, rest, hb⟩
  · rw [hlen, List.take_length] at hret
    exact hret
  · exact absurd (hw.symm.trans hb.held) (by simp)

theorem Inv.inOrder (h : s.Inv host linkType) :
    s.returned <+: s.packets linkType s.filled.flatten := by
  have htake : (s.filled.take s.released.length).flatten ++
      (s.filled.drop s.released.length).flatten = s.filled.flatten := by
    rw [← List.flatten_append, List.take_append_drop]
  rcases h.walk with ⟨-, hret⟩ | ⟨walk, done, rest, hb⟩
  · rw [hret, ← htake]
    exact (List.prefix_append _ _).map _
  · have hdrop : s.filled.drop s.released.length =
        (done ++ rest) :: s.filled.drop (s.released.length + 1) := by
      rw [List.drop_eq_getElem_cons hb.lt]
      congr 1
      exact Option.some.inj ((List.getElem?_eq_getElem hb.lt).symm.trans hb.block)
    rw [hb.returned, ← htake, hdrop, List.flatten_cons, List.append_assoc, ← List.append_assoc]
    exact (List.prefix_append _ _).map _

end Reader

/-- The block in hand stays as it is, whatever the kernel does. -/
theorem InBlock.kernelStep (h : s.Inv host linkType) {walk : Walk} {done rest : List KernelFrame}
    (hb : s.InBlock host linkType walk done rest) (hs : KernelStep host s s') :
    s'.InBlock host linkType walk done rest ∧
      ∃ map, s'.ring = { s.ring with map } ∧
        map.slice (s.ring.curBlock * s.ring.geom.blockSize) s.ring.geom.blockSize =
          s.ring.blockBytes s.ring.curBlock := by
  cases hs with
  | @write j map hj hown hout hstill =>
    have hne := h.apart hj hown (Nat.le_refl _) hb.lt
    rw [← h.cur] at hne
    exact ⟨hb.kept h hj hown hout (List.prefix_refl _), map, rfl, hout.slice hne⟩
  | @fill j map frames hj hown hout hwf huser =>
    have hjlt : j < s.ring.geom.blockCount := by
      rw [hj]
      exact Nat.mod_lt _ h.valid.blockCount
    have hne := h.apart hjlt hown (Nat.le_refl _) hb.lt
    rw [← h.cur] at hne
    exact ⟨hb.kept h hjlt hown hout (List.prefix_append _ _), map, rfl, hout.slice hne⟩

theorem InBlock.kernelRun (h : s.Inv host linkType) {walk : Walk} {done rest : List KernelFrame}
    (hb : s.InBlock host linkType walk done rest)
    (hr : Relation.ReflTransGen (KernelStep host) s s') :
    s'.Inv host linkType ∧ s'.InBlock host linkType walk done rest ∧
      ∃ map, s'.ring = { s.ring with map } ∧
        map.slice (s.ring.curBlock * s.ring.geom.blockSize) s.ring.geom.blockSize =
          s.ring.blockBytes s.ring.curBlock := by
  induction hr with
  | refl => exact ⟨h, hb, s.ring.map, rfl, rfl⟩
  | @tail s₁ s₂ hr hs ih =>
    obtain ⟨h₁, hb₁, map₁, hring₁, hbytes₁⟩ := ih
    obtain ⟨hb₂, map₂, hring₂, hbytes₂⟩ := hb₁.kernelStep h₁ hs
    rw [hring₁] at hring₂ hbytes₂
    exact ⟨h₁.kernelStep hs, hb₂, map₂, hring₂, hbytes₂.trans hbytes₁⟩

end Protocol

/-- A call of `next_packet`: turns of the loop up to a packet, or until nothing is ready. -/
inductive Call (host : Host) (linkType : LinkType) :
    Protocol → Option PacketRef → Protocol → Prop where
  | idle {s : Protocol} (h : s.ring.turn host = .ok .idle) : Call host linkType s none s
  | packet {s s' : Protocol} {p : PacketRef} (h : ReaderStep host linkType s (some p) s') :
      Call host linkType s (some p) s'
  | turn {s s₁ s' : Protocol} {o : Option PacketRef} (h : ReaderStep host linkType s none s₁)
      (hc : Call host linkType s₁ o s') : Call host linkType s o s'

namespace Protocol

variable {host : Host} {linkType : LinkType} {s s' : Protocol}

theorem Inv.silent (h : s.Inv host linkType) (hs : ReaderStep host linkType s none s') :
    s'.filled = s.filled ∧ s'.ring.snaplen = s.ring.snaplen ∧ s'.returned = s.returned := by
  have hact := Ring.act_spec h.valid
  cases hs with
  | @take r ht =>
    rw [h.valid.turn_eq, Except.ok.injEq] at ht
    rw [ht] at hact
    obtain ⟨-, -, rfl⟩ := hact
    exact ⟨rfl, rfl, rfl⟩
  | @release r ht =>
    rw [h.valid.turn_eq, Except.ok.injEq] at ht
    rw [ht] at hact
    obtain ⟨-, rfl⟩ := hact
    exact ⟨rfl, rfl, rfl⟩

/-- What a call that nothing interrupts does. -/
theorem Inv.call (h : s.Inv host linkType) {o : Option PacketRef}
    (hc : Call host linkType s o s') :
    s'.filled = s.filled ∧ s'.ring.snaplen = s.ring.snaplen ∧
      s'.returned = s.returned ++ o.toList ∧
      (o = none → s'.returned = s.packets linkType s.filled.flatten ∧
        s'.released.length = s.filled.length) := by
  induction hc with
  | @idle s ht =>
    rw [h.valid.turn_eq, Except.ok.injEq] at ht
    exact ⟨rfl, rfl, (List.append_nil _).symm, fun _ => h.idle ht⟩
  | @packet s s' p hs =>
    cases hs with
    | @frame r m p ht hp =>
      have hact := Ring.act_spec h.valid
      rw [h.valid.turn_eq, Except.ok.injEq] at ht
      rw [ht] at hact
      obtain ⟨-, walk, next, -, -, rfl⟩ := hact
      refine ⟨rfl, rfl, rfl, ?_⟩
      intro hnone
      cases hnone
  | @turn s s₁ s' o hs hc ih =>
    obtain ⟨hfilled, hsnap, hret, hdone⟩ := ih (h.readerStep hs)
    obtain ⟨hfilled₁, hsnap₁, hret₁⟩ := h.silent hs
    rw [hfilled₁] at hfilled hdone
    rw [hsnap₁] at hsnap
    rw [hret₁] at hret
    refine ⟨hfilled, hsnap, hret, ?_⟩
    intro hnone
    have hpackets : s₁.packets linkType s.filled.flatten = s.packets linkType s.filled.flatten := by
      unfold packets
      rw [hsnap₁]
    rw [← hpackets]
    exact hdone hnone

theorem Inv.frame_packet (h : s.Inv host linkType) {m : FrameMeta} {r : Ring}
    (ht : s.ring.act host = .frame m r) : ∃ p, r.packet m linkType = .ok p := by
  have hact := Ring.act_spec h.valid
  rw [ht] at hact
  obtain ⟨-, walk', next, hw, -⟩ := hact
  rcases h.walk with ⟨hnone, -⟩ | ⟨walk, done, rest, hb⟩
  · rw [hnone] at hw
    cases hw
  · cases rest with
    | nil =>
      rw [hb.act_last] at ht
      cases ht
    | cons f fs =>
      rw [hb.act_frame h] at ht
      cases ht
      exact ⟨_, hb.packet_eq h⟩

/-- With no write of the kernel in between a call returns. -/
theorem Inv.returns (h : s.Inv host linkType) {wait : Ring → Except Error Ring} {fuel : Nat}
    (hf : s.ring.work host < fuel) :
    ∃ o s', s.ring.nextPacket host wait fuel linkType = some (.ok (o, s'.ring)) ∧
      Call host linkType s o s' := by
  induction fuel generalizing s with
  | zero => omega
  | succ fuel ih =>
    have hact := Ring.act_spec h.valid
    unfold Ring.nextPacket Ring.nextFrame
    rw [h.valid.turn_eq]
    have hturn := h.valid.turn_eq
    cases ht : s.ring.act host with
    | take r =>
      rw [ht] at hact hturn
      obtain ⟨hw, hu, rfl⟩ := hact
      have hless := Ring.work_take h.valid hw hu ⟨host.field (s.ring.blockBytes s.ring.curBlock) 16 4,
        host.field (s.ring.blockBytes s.ring.curBlock) 12 4⟩
      have hs : ReaderStep host linkType s none _ := .take hturn
      obtain ⟨o, s', hn, hc⟩ := ih (h.readerStep hs) (Nat.lt_of_lt_of_le hless (Nat.le_of_lt_succ hf))
      exact ⟨o, s', hn, .turn hs hc⟩
    | release r =>
      rw [ht] at hact hturn
      obtain ⟨hw, rfl⟩ := hact
      have hless : (s.ring.released host).work host < s.ring.work host :=
        Ring.work_released h.valid.blockSize hw
      have hs : ReaderStep host linkType s none _ := .release hturn
      obtain ⟨o, s', hn, hc⟩ := ih (h.readerStep hs) (Nat.lt_of_lt_of_le hless (Nat.le_of_lt_succ hf))
      exact ⟨o, s', hn, .turn hs hc⟩
    | frame m r =>
      rw [ht] at hturn
      obtain ⟨p, hp⟩ := h.frame_packet ht
      refine ⟨some p, { s with ring := r, returned := s.returned ++ [p] }, ?_,
        .packet (.frame hturn hp)⟩
      simp only [Option.map_some, bind, Except.bind, hp]
      rfl
    | idle =>
      rw [ht] at hturn
      exact ⟨none, s, rfl, .idle hturn⟩
    | wait =>
      rw [ht, h.nonblocking] at hact
      cases hact.2

end Protocol

/-- One step of the kernel, or one turn of the reader. -/
def HandOverStep (host : Host) (linkType : LinkType) (s s' : Protocol) : Prop :=
  KernelStep host s s' ∨ ∃ o, ReaderStep host linkType s o s'

/-- A ring just opened, without blocking: all blocks are the kernel's. -/
structure Started (host : Host) (s : Protocol) : Prop where
  opened : Opened host s.ring
  nonblocking : s.ring.nonblocking = true
  kernel : ∀ j, j < s.ring.geom.blockCount → ¬ Ring.UserIn host s.ring.map s.ring.geom j
  filled : s.filled = []
  returned : s.returned = []
  released : s.released = []

theorem Started.inv {host : Host} {linkType : LinkType} {s : Protocol} (h : Started host s) :
    s.Inv host linkType := by
  refine ⟨h.opened.toValid, h.nonblocking, ?_, ?_, ?_, ?_, ?_, ?_, .inl ⟨h.opened.walk, ?_⟩⟩
  · rw [h.opened.start, h.released]
    exact (Nat.zero_mod _).symm
  · rw [h.filled]
    exact Nat.zero_le _
  · rw [h.released]
    exact Nat.zero_le _
  · intro j hj
    refine iff_of_false (h.kernel j hj) ?_
    rintro ⟨k, -, hk, -⟩
    rw [h.filled] at hk
    cases hk
  · intro k frames hk hframes
    rw [h.filled] at hframes
    cases hframes
  · rw [h.released]
    rfl
  · rw [h.returned, h.filled, List.take_nil]
    rfl

/-- What holds in every state the kernel and the reader can reach. -/
structure HandsOver (host : Host) (linkType : LinkType) (s : Protocol) : Prop where
  /-- The packets are the stored frames in order, from the first one on. -/
  inOrder : s.returned <+: s.packets linkType s.filled.flatten
  /-- A call returns. Either it adds a packet, or everything stored has been returned and every
  block released. -/
  calls : ∀ wait, ∃ o s',
    s.ring.nextPacket host wait (2 * s.ring.geom.blockCount + 2) linkType =
      some (.ok (o, s'.ring)) ∧ Call host linkType s o s' ∧
      s'.filled = s.filled ∧ s'.returned = s.returned ++ o.toList ∧
      (o = none → s'.returned = s.packets linkType s.filled.flatten ∧
        s'.released.length = s.filled.length)
  /-- A packet lies in the block in hand, which stays the reader's, and its bytes what they are,
  until the reader moves again. -/
  borrowed : ∀ p s₁ s₂, ReaderStep host linkType s (some p) s₁ →
    Relation.ReflTransGen (KernelStep host) s₁ s₂ → ∃ m,
      Ring.Inside m s₂.ring ∧ s₂.ring.curBlock = s₁.ring.curBlock ∧
      Ring.UserIn host s₂.ring.map s₂.ring.geom s₂.ring.curBlock ∧
      s₂.ring.blockBytes s₁.ring.curBlock = s₁.ring.blockBytes s₁.ring.curBlock ∧
      s₂.ring.map.slice m.offset m.len = p.data
  /-- The `k`-th release is of the `k`-th block filled, when the frames of the blocks up to it, and
  no others, have been returned. -/
  released : s.released.length ≤ s.filled.length ∧
    s.released = (List.range s.released.length).map fun k =>
      (k % s.ring.geom.blockCount, (s.filled.take (k + 1)).flatten.length)

theorem HandOverStep.inv {host : Host} {linkType : LinkType} {s s' : Protocol}
    (hs : HandOverStep host linkType s s') (h : s.Inv host linkType) : s'.Inv host linkType := by
  rcases hs with hs | ⟨o, hs⟩
  · exact h.kernelStep hs
  · exact h.readerStep hs

theorem Protocol.Inv.borrowed {host : Host} {linkType : LinkType} {s s₁ s₂ : Protocol}
    {p : PacketRef} (h : s.Inv host linkType) (hs : ReaderStep host linkType s (some p) s₁)
    (hr : Relation.ReflTransGen (KernelStep host) s₁ s₂) : ∃ m,
      Ring.Inside m s₂.ring ∧ s₂.ring.curBlock = s₁.ring.curBlock ∧
      Ring.UserIn host s₂.ring.map s₂.ring.geom s₂.ring.curBlock ∧
      s₂.ring.blockBytes s₁.ring.curBlock = s₁.ring.blockBytes s₁.ring.curBlock ∧
      s₂.ring.map.slice m.offset m.len = p.data := by
  have h₁ := h.readerStep hs
  have hact := Ring.act_spec h.valid
  cases hs with
  | @frame r m p ht hp =>
    rw [h.valid.turn_eq, Except.ok.injEq] at ht
    rw [ht] at hact
    obtain ⟨hin, walk, next, hw, -, rfl⟩ := hact
    rcases h₁.walk with ⟨hnone, -⟩ | ⟨walk₁, done, rest, hb⟩
    · cases hnone
    · obtain ⟨h₂, hb₂, map, hring, hbytes⟩ := hb.kernelRun h₁ hr
      have huser := (h₂.user _ h₂.valid.cur).mpr ⟨_, Nat.le_refl _, hb₂.lt, h₂.cur.symm⟩
      refine ⟨m, ?_, ?_, huser, ?_, ?_⟩
      · rw [hring]
        exact ⟨hin.owned, hin.first, hin.last, hin.mapped, hin.cut⟩
      · rw [hring]
      · rw [hring]
        exact hbytes
      · -- the packet's bytes are a stretch of the block
        obtain ⟨data, hdata, hnew⟩ := bind_ok hp
        rw [(PacketRef.new_ok hnew).1, Ring.bytes_ok hdata, hring]
        obtain ⟨d, hd⟩ : ∃ d, m.offset = s.ring.curBlock * s.ring.geom.blockSize + d :=
          ⟨_, (Nat.add_sub_cancel' hin.first).symm⟩
        have hlast : m.offset + m.len ≤ s.ring.curBlock * s.ring.geom.blockSize +
            s.ring.geom.blockSize := hin.last
        have hstretch : d + m.len ≤ s.ring.geom.blockSize := by omega
        rw [hd, ← slice_drop_take map hstretch]
        change _ = s.ring.map.slice _ m.len
        rw [← slice_drop_take s.ring.map hstretch]
        exact congrArg (fun block => (block.drop d).take m.len) hbytes

/-- Frames are handed over in order, none lost and none twice; a packet's block stays with the
reader; every block goes back once, when all its frames have been returned. -/
theorem ring_handsOver {host : Host} {linkType : LinkType} {s₀ s : Protocol}
    (hstart : Started host s₀)
    (hr : Relation.ReflTransGen (HandOverStep host linkType) s₀ s) :
    HandsOver host linkType s := by
  have h : s.Inv host linkType := by
    induction hr with
    | refl => exact hstart.inv
    | tail _ hs ih => exact hs.inv ih
  refine ⟨h.inOrder, ?_, fun p s₁ s₂ hs hk => h.borrowed hs hk, h.le, h.log⟩
  intro wait
  obtain ⟨o, s', hn, hc⟩ := h.returns (Nat.lt_succ_of_le (Ring.work_le h.valid))
  obtain ⟨hfilled, -, hret, hdone⟩ := h.call hc
  exact ⟨o, s', hn, hc, hfilled, hret, hdone⟩

/-- A ring of one small block that is the kernel's. -/
def oneBlock : Protocol where
  ring := ⟨fun _ => 0, 128, ⟨128, 1, 128, 1, 128⟩, 0, none, 65535, true⟩
  filled := []
  returned := []
  released := []

theorem oneBlock_started : Started ⟨64, .little⟩ oneBlock where
  opened := ⟨⟨by decide, by decide, by decide, by decide, by decide⟩, rfl, rfl⟩
  nonblocking := rfl
  kernel := by
    intro j hj
    obtain rfl : j = 0 := Nat.lt_one_iff.mp hj
    decide
  filled := rfl
  returned := rfl
  released := rfl

/-- The frame in the block of `oneFrameRing`. -/
def oneFrame : KernelFrame := ⟨0, 0, 2, [170, 187]⟩

set_option maxRecDepth 4000 in
theorem oneFrame_wellFormed :
    WellFormed ⟨64, .little⟩ (oneFrameRing.map.slice (0 * 128) 128) [oneFrame] :=
  ⟨by decide, ⟨by decide, by decide, by decide, by decide, by decide, by decide, by decide⟩,
    by decide, trivial⟩

theorem oneFrame_outside : Outside oneBlock.ring.geom 0 oneBlock.ring.map oneFrameRing.map := by
  intro i hi
  have hbig : 128 ≤ i := by
    rcases hi with hi | hi
    · exact absurd hi (Nat.not_lt_zero i)
    · exact hi
  have hnone : ([(8, 1), (12, 1), (16, 48), (60, 2), (64, 2), (72, 48), (96, 170), (97, 187)] :
      List (Nat × UInt8)).lookup i = none := by
    rw [List.lookup_eq_none_iff]
    simp
    omega
  exact congrArg (Option.getD · 0) hnone

/-- The kernel fills the only block with one frame. -/
theorem oneBlock_handsOver : ∃ s, Relation.ReflTransGen
    (HandOverStep ⟨64, .little⟩ .ethernet) oneBlock s ∧ s.filled = [[oneFrame]] ∧
      HandsOver ⟨64, .little⟩ .ethernet s := by
  have hfill : HandOverStep ⟨64, .little⟩ .ethernet oneBlock _ :=
    .inl (.fill rfl (by decide) oneFrame_outside oneFrame_wellFormed (by decide))
  exact ⟨_, .single hfill, rfl, ring_handsOver oneBlock_started (.single hfill)⟩

end PktBaffle.Pkttap.LinuxRing
