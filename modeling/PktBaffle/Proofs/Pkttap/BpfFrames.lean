import PktBaffle.Pkttap.Macos

namespace PktBaffle.Pkttap.Macos
open Classic (LinkType)

section Parse

variable {endian : Endian} {buf : List UInt8} {pos filled snaplen : Nat}

theorem add_eq {a b : Nat} (h : a + b < 2 ^ 64) : (host endian).add a b = .ok (a + b) := by
  rw [Host.add, host, Usize.checkedAdd_of_lt h]
  rfl

theorem wordAlign_eq {n : Nat} (h : n + 3 < 2 ^ 64) :
    wordAlign endian n = .ok (clearLow (n + 3) 4) := by
  rw [wordAlign, add_eq h]
  rfl

theorem nanos_eq {usec : Nat} (h : usec % 2 ^ 32 * 1000 < 2 ^ 32) :
    nanos usec = .ok (usec % 2 ^ 32 * 1000) := by
  rw [nanos, Usize.checkedMul, if_pos h]
  rfl

theorem nanos_overflows {usec : Nat} (h : ¬ usec % 2 ^ 32 * 1000 < 2 ^ 32) :
    nanos usec = .error (.panic "attempt to multiply with overflow") := by
  rw [nanos, Usize.checkedMul, if_neg h]
  rfl

/-- No buffer is longer than `isize::MAX`, so of the arithmetic only the nanoseconds can
overflow. -/
theorem parseBpfFrame_eq (hpos : pos < 2 ^ 63 + 4) :
    let hdr := readBpfHdr endian buf pos
    parseBpfFrame endian buf pos filled snaplen =
      if filled < pos + 32 then .ok none
      else if filled < pos + hdr.bhHdrlen + min hdr.bhCaplen snaplen then .ok none
      else (nanos hdr.bhTstampUsec).map fun tsNsec =>
        some (⟨pos + hdr.bhHdrlen, pos + hdr.bhHdrlen + min hdr.bhCaplen snaplen,
          hdr.bhTstampSec, tsNsec, hdr.bhDatalen⟩,
          pos + clearLow (hdr.bhHdrlen + hdr.bhCaplen + 3) 4) := by
  intro hdr
  have hhdr : hdr.bhHdrlen < 2 ^ 16 := (host endian).field_lt buf (pos + 24) 2
  have hcap : hdr.bhCaplen < 2 ^ 32 := (host endian).field_lt buf (pos + 16) 4
  have hmin : min hdr.bhCaplen snaplen ≤ hdr.bhCaplen := Nat.min_le_left _ _
  have hclear : clearLow (hdr.bhHdrlen + hdr.bhCaplen + 3) 4 ≤ hdr.bhHdrlen + hdr.bhCaplen + 3 :=
    Nat.sub_le _ _
  unfold parseBpfFrame bpfHdrSize
  rw [add_eq (by omega)]
  by_cases h₁ : filled < pos + 32
  · rw [if_pos h₁]
    simp only [bind, Except.bind, h₁, if_true]
    rfl
  rw [if_neg h₁]
  simp only [bind, Except.bind, h₁, if_false]
  rw [add_eq (show pos + hdr.bhHdrlen < 2 ^ 64 by omega)]
  simp only
  rw [add_eq (show pos + hdr.bhHdrlen + min hdr.bhCaplen snaplen < 2 ^ 64 by omega)]
  by_cases h₂ : filled < pos + hdr.bhHdrlen + min hdr.bhCaplen snaplen
  · rw [if_pos h₂]
    simp only [h₂, if_true]
    rfl
  rw [if_neg h₂]
  simp only [h₂, if_false]
  rw [add_eq (show hdr.bhHdrlen + hdr.bhCaplen < 2 ^ 64 by omega)]
  simp only
  rw [wordAlign_eq (by omega)]
  simp only
  rw [add_eq (by omega)]
  cases nanos hdr.bhTstampUsec <;> rfl

/-- Nothing is left at or behind the end of the filled bytes. -/
theorem parseBpfFrame_end (hpos : pos < 2 ^ 63 + 4) (h : filled ≤ pos) :
    parseBpfFrame endian buf pos filled snaplen = .ok none := by
  rw [parseBpfFrame_eq hpos, if_pos (by omega)]

theorem wordAlign_gt {n : Nat} (h : 0 < n) : 0 < clearLow (n + 3) 4 := by
  unfold clearLow
  omega

end Parse

/-- Without overflow, and a frame that is returned lies complete in the filled bytes, behind its
header, and leads to a later position. -/
def ParsesSoundly (endian : Endian) (buf : List UInt8) (pos filled snaplen : Nat) : Prop :=
  match parseBpfFrame endian buf pos filled snaplen with
  | .error _ => False
  | .ok none => True
  | .ok (some (m, next)) =>
    let hdr := readBpfHdr endian buf pos
    pos + hdr.bhHdrlen + hdr.bhCaplen ≤ filled ∧ pos + bpfHdrSize ≤ m.start ∧ m.start ≤ m.stop ∧
      m.stop ≤ filled ∧ pos < next

instance (endian : Endian) (buf : List UInt8) (pos filled snaplen : Nat) :
    Decidable (ParsesSoundly endian buf pos filled snaplen) :=
  match h : parseBpfFrame endian buf pos filled snaplen with
  | .error _ => isFalse (by simp [ParsesSoundly, h])
  | .ok none => isTrue (by simp [ParsesSoundly, h])
  | .ok (some (m, next)) =>
    let hdr := readBpfHdr endian buf pos
    decidable_of_iff (pos + hdr.bhHdrlen + hdr.bhCaplen ≤ filled ∧ pos + bpfHdrSize ≤ m.start ∧
      m.start ≤ m.stop ∧ m.stop ≤ filled ∧ pos < next) (by simp [ParsesSoundly, h, hdr])

/-- The header is cut off, or the payload is, as far as the snaplen wants it; or the header
counts its own length, the payload is there up to `bh_caplen`, and the microseconds fit a `u32`
as nanoseconds. -/
def HeaderSound (endian : Endian) (buf : List UInt8) (pos filled snaplen : Nat) : Prop :=
  let hdr := readBpfHdr endian buf pos
  filled < pos + bpfHdrSize ∨ filled < pos + hdr.bhHdrlen + min hdr.bhCaplen snaplen ∨
    bpfHdrSize ≤ hdr.bhHdrlen ∧ pos + hdr.bhHdrlen + hdr.bhCaplen ≤ filled ∧
      hdr.bhTstampUsec % 2 ^ 32 ≤ 4294967

instance (endian : Endian) (buf : List UInt8) (pos filled snaplen : Nat) :
    Decidable (HeaderSound endian buf pos filled snaplen) :=
  inferInstanceAs (Decidable (_ ∨ _))

/-- The parser is sound on exactly the positions with a sound header. -/
theorem parsesSoundly_iff {endian : Endian} {buf : List UInt8} {pos filled snaplen : Nat}
    (hbuf : buf.length < 2 ^ 63) (hfilled : filled ≤ buf.length) (hpos : pos ≤ filled) :
    ParsesSoundly endian buf pos filled snaplen ↔ HeaderSound endian buf pos filled snaplen := by
  unfold ParsesSoundly HeaderSound bpfHdrSize
  rw [parseBpfFrame_eq (by omega)]
  generalize readBpfHdr endian buf pos = hdr
  by_cases h₁ : filled < pos + 32
  · rw [if_pos h₁]
    exact iff_of_true trivial (.inl h₁)
  rw [if_neg h₁]
  by_cases h₂ : filled < pos + hdr.bhHdrlen + min hdr.bhCaplen snaplen
  · rw [if_pos h₂]
    exact iff_of_true trivial (.inr (.inl h₂))
  rw [if_neg h₂]
  by_cases h₃ : hdr.bhTstampUsec % 2 ^ 32 * 1000 < 2 ^ 32
  · have hnext : 32 ≤ hdr.bhHdrlen → 0 < clearLow (hdr.bhHdrlen + hdr.bhCaplen + 3) 4 :=
      fun h => wordAlign_gt (by omega)
    rw [nanos_eq h₃]
    change (_ ∧ pos + 32 ≤ pos + hdr.bhHdrlen ∧ pos + hdr.bhHdrlen ≤ pos + hdr.bhHdrlen + _ ∧
      pos + hdr.bhHdrlen + min hdr.bhCaplen snaplen ≤ filled ∧ _) ↔ _
    constructor
    · rintro ⟨hcomplete, hstart, -⟩
      exact .inr (.inr ⟨by omega, hcomplete, by omega⟩)
    · rintro (h | h | ⟨hstart, hcomplete, -⟩)
      · exact absurd h h₁
      · exact absurd h h₂
      · exact ⟨hcomplete, by omega, Nat.le_add_right _ _, by omega,
          Nat.lt_add_of_pos_right (hnext hstart)⟩
  · rw [nanos_overflows h₃]
    apply iff_of_false
    · exact id
    · rintro (h | h | ⟨-, -, h⟩)
      · exact h₁ h
      · exact h₂ h
      · omega

/-- An empty frame behind a header of 32 bytes. -/
theorem parsesSoundly_empty :
    HeaderSound .little (List.replicate 24 0 ++ 32 :: List.replicate 7 0) 0 32 65535 ∧
      ParsesSoundly .little (List.replicate 24 0 ++ 32 :: List.replicate 7 0) 0 32 65535 :=
  have h : HeaderSound .little (List.replicate 24 0 ++ 32 :: List.replicate 7 0) 0 32 65535 := by
    decide
  ⟨h, (parsesSoundly_iff (by decide) (by decide) (by decide)).mpr h⟩

/-- A header of zeros does not move the position; of a frame of 100 bytes the first 20 are enough
when no more are wanted; and 5 000 000 microseconds do not fit. -/
theorem unsound_headers :
    ¬ ParsesSoundly .little (List.replicate 32 0) 0 32 65535 ∧
    ¬ ParsesSoundly .little ([0, 0, 0, 0, 0, 0, 0, 0, 0, 0, 0, 0, 0, 0, 0, 0, 100, 0, 0, 0, 100,
      0, 0, 0, 32] ++ List.replicate 27 0) 0 52 20 ∧
    ¬ ParsesSoundly .little ([0, 0, 0, 0, 0, 0, 0, 0, 64, 75, 76, 0, 0, 0, 0, 0, 0, 0, 0, 0, 0,
      0, 0, 0, 32] ++ List.replicate 7 0) 0 32 65535 := by
  decide

end PktBaffle.Pkttap.Macos
