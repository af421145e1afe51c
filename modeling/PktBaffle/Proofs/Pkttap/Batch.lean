import PktBaffle.Proofs.Pkttap.BpfFrames

namespace PktBaffle.Pkttap.Macos
open Classic (LinkType)

/-- A frame as the kernel lays it out in the read buffer. -/
structure BatchFrame where
  sec : Nat
  usec : Nat
  datalen : Nat
  /-- What the header holds behind its fields. -/
  rest : List UInt8
  payload : List UInt8
  pad : List UInt8
  sec_lt : sec < 2 ^ 63
  usec_lt : usec < 10 ^ 6
  datalen_lt : datalen < 2 ^ 32
  rest_ge : 6 ≤ rest.length
  hdrlen_lt : 26 + rest.length < 2 ^ 16
  caplen_lt : payload.length < 2 ^ 32
  pad_lt : pad.length < 4
  padded : 4 ∣ 26 + rest.length + payload.length + pad.length

namespace BatchFrame

variable (endian : Endian) (f : BatchFrame)

def hdrlen : Nat := 26 + f.rest.length

def header : List UInt8 :=
  endian.bytes 8 f.sec ++ (endian.bytes 8 f.usec ++ (endian.bytes 4 f.payload.length ++
    (endian.bytes 4 f.datalen ++ (endian.bytes 2 f.hdrlen ++ f.rest))))

/-- The frame without its padding. -/
def stored : List UInt8 := f.header endian ++ f.payload

theorem header_length : (f.header endian).length = f.hdrlen := by
  simp [header, hdrlen]
  omega

theorem stored_length : (f.stored endian).length = f.hdrlen + f.payload.length := by
  rw [stored, List.length_append, header_length]

/-- The reader finds the fields where they were put. -/
theorem read_header (pre post : List UInt8) :
    readBpfHdr endian (pre ++ (f.stored endian ++ post)) pre.length =
      ⟨f.sec, f.usec, f.payload.length, f.datalen, f.hdrlen⟩ := by
  have hsec := f.sec_lt
  have husec := f.usec_lt
  have hhdr := f.hdrlen_lt
  unfold readBpfHdr stored header
  simp only [List.append_assoc]
  congr 1
  · exact (host endian).field_bytes rfl (hsec.trans (by decide))
  · rw [← List.append_assoc pre]
    exact (host endian).field_bytes (by simp) (husec.trans (by decide))
  · rw [← List.append_assoc pre, ← List.append_assoc (pre ++ _)]
    exact (host endian).field_bytes (by simp) f.caplen_lt
  · rw [← List.append_assoc pre, ← List.append_assoc (pre ++ _), ← List.append_assoc (_ ++ _)]
    exact (host endian).field_bytes (by simp) f.datalen_lt
  · rw [← List.append_assoc pre, ← List.append_assoc (pre ++ _), ← List.append_assoc (_ ++ _),
      ← List.append_assoc (_ ++ _)]
    exact (host endian).field_bytes (by simp) hhdr

/-- Aligning the length of a frame adds its padding. -/
theorem aligned : clearLow (f.hdrlen + f.payload.length + 3) 4 =
    f.hdrlen + f.payload.length + f.pad.length := by
  have hpad := f.pad_lt
  have hdvd := f.padded
  unfold clearLow hdrlen
  omega

end BatchFrame

section Drain

variable (endian : Endian)

/-- The frames one after the other. Whether the padding of the last one is there is up to the
kernel. -/
def batch (lastPadded : Bool) : List BatchFrame → List UInt8
  | [] => []
  | [f] => f.stored endian ++ if lastPadded then f.pad else []
  | f :: fs => f.stored endian ++ f.pad ++ batch lastPadded fs

/-- `parse_next_frame` returns these frames one after the other, and then none. -/
inductive Drains : MacosLive → List FrameMeta → MacosLive → Prop where
  | done {live : MacosLive} (h : live.parseNextFrame endian = .ok (none, live)) :
      Drains live [] live
  | next {live live₁ live' : MacosLive} {m : FrameMeta} {ms : List FrameMeta}
      (h : live.parseNextFrame endian = .ok (some m, live₁)) (hr : Drains live₁ ms live') :
      Drains live (m :: ms) live'

/-- The packet a frame makes: the bytes up to the snaplen, the timestamp and the length on the
wire. -/
def BatchFrame.packet (f : BatchFrame) (snaplen : Nat) (linkType : LinkType) : PacketRef :=
  ⟨f.payload.take (min f.payload.length snaplen), f.sec * 10 ^ 9 + f.usec * 1000, f.datalen,
    linkType⟩

/-- Where the reader finds the frame that starts at `pos`. -/
def BatchFrame.found (f : BatchFrame) (pos snaplen : Nat) : FrameMeta :=
  ⟨pos + f.hdrlen, pos + f.hdrlen + min f.payload.length snaplen, f.sec, f.usec * 1000,
    f.datalen⟩

variable {endian} {live : MacosLive} {f : BatchFrame} {pre post : List UInt8}

theorem parse_stored (hbuf : live.buf = pre ++ (f.stored endian ++ post))
    (hpos : live.bufPos = pre.length) (hlen : pre.length < 2 ^ 63)
    (hfilled : pre.length + (f.stored endian).length ≤ live.bufFilled) :
    live.parseNextFrame endian = .ok (some (f.found pre.length live.snaplen),
      { live with
        bufPos := pre.length + (f.hdrlen + f.payload.length + f.pad.length) }) := by
  have husec := f.usec_lt
  have hrest := f.rest_ge
  have hhdr : f.hdrlen = 26 + f.rest.length := rfl
  have hmin := Nat.min_le_left f.payload.length live.snaplen
  have hmod : f.usec % 2 ^ 32 = f.usec := Nat.mod_eq_of_lt (husec.trans (by decide))
  rw [f.stored_length] at hfilled
  have hparse : parseBpfFrame endian live.buf live.bufPos live.bufFilled live.snaplen =
      .ok (some (f.found pre.length live.snaplen,
        pre.length + (f.hdrlen + f.payload.length + f.pad.length))) := by
    have hcut : ¬ live.bufFilled < pre.length + f.hdrlen + min f.payload.length live.snaplen := by
      omega
    have hnanos : nanos f.usec = .ok (f.usec % 2 ^ 32 * 1000) := nanos_eq (by rw [hmod]; omega)
    rw [parseBpfFrame_eq (by omega), hbuf, hpos, f.read_header, if_neg (by omega), if_neg hcut,
      hnanos, hmod, f.aligned]
    rfl
  rw [MacosLive.parseNextFrame, hparse]
  rfl

theorem parse_end (hlen : live.bufPos < 2 ^ 63 + 4) (hfilled : live.bufFilled ≤ live.bufPos) :
    live.parseNextFrame endian = .ok (none, live) := by
  rw [MacosLive.parseNextFrame, parseBpfFrame_end hlen hfilled]
  rfl

/-- What is returned for a frame makes its packet. -/
theorem packet_found (hbuf : live.buf = pre ++ (f.stored endian ++ post)) :
    live.packet (f.found pre.length live.snaplen) =
      .ok (f.packet live.snaplen live.linkType) := by
  have hlen : live.buf.length =
      pre.length + (f.hdrlen + f.payload.length + post.length) := by
    rw [hbuf, List.length_append, List.length_append, f.stored_length]
  have hmin := Nat.min_le_left f.payload.length live.snaplen
  have hdrop : live.buf.drop (pre.length + f.hdrlen) = f.payload ++ post := by
    rw [hbuf, ← List.drop_drop, List.drop_left, BatchFrame.stored, List.append_assoc,
      ← f.header_length endian, List.drop_left]
  have hslice : live.slice (pre.length + f.hdrlen)
      (pre.length + f.hdrlen + min f.payload.length live.snaplen) =
        .ok (f.payload.take (min f.payload.length live.snaplen)) := by
    unfold MacosLive.slice
    rw [if_neg (by omega), if_neg (by omega), hdrop, Nat.add_sub_cancel_left,
      List.take_append_of_le_length hmin]
  have htime : systemTime f.sec (f.usec * 1000) = .ok (f.sec * 10 ^ 9 + f.usec * 1000) := by
    have hsec := f.sec_lt
    have husec := f.usec_lt
    have hzero : f.usec * 1000 / 10 ^ 9 = 0 := Nat.div_eq_of_lt (by omega)
    unfold systemTime
    rw [hzero, if_neg (by omega), if_neg (by omega)]
  simp only [MacosLive.packet, BatchFrame.found, hslice, PacketRef.new, htime, bind, Except.bind]
  rfl

end Drain

section Batch

variable {endian : Endian} {lastPadded : Bool}

/-- The walk over a batch, from any position at which a frame starts: by induction on the frames
that are left. -/
theorem drains_from {fs : List BatchFrame} {live : MacosLive} {pre tail : List UInt8}
    (hbuf : live.buf = pre ++ (batch endian lastPadded fs ++ tail))
    (hpos : live.bufPos = pre.length)
    (hfilled : live.bufFilled = pre.length + (batch endian lastPadded fs).length)
    (hlen : live.buf.length < 2 ^ 63) :
    ∃ ms live', Drains endian live ms live' ∧
      List.Forall₂ (fun m f => live.packet m = .ok (f.packet live.snaplen live.linkType)) ms fs := by
  have hpre : pre.length < 2 ^ 63 := by
    rw [hbuf, List.length_append] at hlen
    omega
  induction fs generalizing live pre with
  | nil =>
    have hend : live.bufFilled ≤ live.bufPos := by
      rw [hfilled, hpos]
      exact Nat.le_refl _
    exact ⟨[], live, .done (parse_end (by omega) hend), .nil⟩
  | cons f fs ih =>
    cases fs with
    | nil =>
      have hpad := f.pad_lt
      have hparts : live.buf = pre ++ (f.stored endian ++
          ((if lastPadded then f.pad else []) ++ tail)) := by
        rw [hbuf, batch, List.append_assoc]
      have hstored := f.stored_length endian
      have htotal : pre.length + (f.stored endian).length ≤ live.buf.length := by
        rw [hparts, List.length_append, List.length_append]
        omega
      have hless : live.bufFilled ≤ pre.length + (f.hdrlen + f.payload.length + f.pad.length) := by
        rw [hfilled, batch, List.length_append, hstored]
        cases lastPadded <;> simp
      have hparse := parse_stored hparts hpos hpre (by
        rw [hfilled, batch, List.length_append]
        omega)
      -- with or without its padding, nothing is left behind the last frame
      exact ⟨_, _, .next hparse (.done (parse_end (by change pre.length + _ < _; omega) hless)),
        .cons (packet_found hparts) .nil⟩
    | cons g fs =>
      have hparts : live.buf = pre ++ (f.stored endian ++
          (f.pad ++ (batch endian lastPadded (g :: fs) ++ tail))) := by
        rw [hbuf, batch, List.append_assoc, List.append_assoc]
        exact List.cons_ne_nil _ _
      have hstored := f.stored_length endian
      have hbatch : (batch endian lastPadded (f :: g :: fs)).length =
          (f.stored endian).length + f.pad.length + (batch endian lastPadded (g :: fs)).length := by
        rw [batch, List.length_append, List.length_append]
        exact List.cons_ne_nil _ _
      have hparse := parse_stored hparts hpos hpre (by omega)
      have hskip : (pre ++ (f.stored endian ++ f.pad)).length =
          pre.length + (f.hdrlen + f.payload.length + f.pad.length) := by
        rw [List.length_append, List.length_append, hstored]
      obtain ⟨ms, live', hdrains, hpackets⟩ := @ih { live with bufPos := _ }
        (pre ++ (f.stored endian ++ f.pad))
        (by rw [hparts]; simp only [List.append_assoc]) hskip.symm
        (by change live.bufFilled = _; omega) hlen (by
          rw [hparts] at hlen
          simp only [List.length_append] at hlen ⊢
          omega)
      exact ⟨_, live', .next hparse hdrains, .cons (packet_found hparts) hpackets⟩

end Batch

/-- A batch is drained frame by frame, each up to the snaplen, and nothing is found behind it,
whatever follows in the buffer. -/
theorem batch_drains {endian : Endian} {lastPadded : Bool} {fs : List BatchFrame}
    {tail : List UInt8} {snaplen : Nat} {linkType : LinkType}
    (hlen : (batch endian lastPadded fs ++ tail).length < 2 ^ 63) :
    let live : MacosLive :=
      ⟨batch endian lastPadded fs ++ tail, (batch endian lastPadded fs).length, 0, snaplen,
        linkType⟩
    ∃ ms live', Drains endian live ms live' ∧
      List.Forall₂ (fun m f => live.packet m = .ok (f.packet snaplen linkType)) ms fs := by
  intro live
  exact @drains_from _ _ _ live [] tail rfl rfl (Nat.zero_add _).symm hlen

/-- Two frames of three and five bytes. -/
theorem two_frames_drain :
    let f : BatchFrame := ⟨10, 0, 3, List.replicate 6 0, [1, 2, 3], [0], by decide, by decide,
      by decide, by decide, by decide, by decide, by decide, by decide⟩
    let g : BatchFrame := ⟨20, 999999, 9, List.replicate 6 0, [9, 8, 7, 6, 5], [0, 0, 0],
      by decide, by decide, by decide, by decide, by decide, by decide, by decide, by decide⟩
    let live : MacosLive :=
      ⟨batch .little false [f, g] ++ [0, 0, 0], (batch .little false [f, g]).length, 0, 4,
        .ethernet⟩
    ∃ ms live', Drains .little live ms live' ∧
      List.Forall₂ (fun m f => live.packet m = .ok (f.packet 4 .ethernet)) ms [f, g] :=
  batch_drains (by decide)

end PktBaffle.Pkttap.Macos
