import PktBaffle.Pkttap.LinuxRing

namespace PktBaffle.Pkttap.LinuxRing

section Sizes

variable {host : Host} {n m : Nat}

theorem add_eq (h : n + m < 2 ^ host.width) : host.add n m = .ok (n + m) := by
  rw [Host.add, Usize.checkedAdd_of_lt h]
  rfl

theorem add_overflows (h : 2 ^ host.width ≤ n + m) :
    host.add n m = .error (.panic "attempt to add with overflow") := by
  rw [Host.add, Usize.checkedAdd_of_le h]
  rfl

theorem tpacketAlign_eq (h : n + 16 < 2 ^ host.width) :
    tpacketAlign host n = .ok (clearLow (n + 15) 16) := by
  unfold tpacketAlign tpacketAlignment
  rw [add_eq h]
  rfl

theorem tpacketAlign_overflows (h : 2 ^ host.width ≤ n + 16) :
    tpacketAlign host n = .error (.panic "attempt to add with overflow") := by
  unfold tpacketAlign tpacketAlignment
  rw [add_overflows h]
  rfl

theorem clearLow_spec (n : Nat) {size : Nat} (hs : 0 < size) :
    size ∣ clearLow n size ∧ clearLow n size ≤ n ∧ n < clearLow n size + size := by
  have hlt := Nat.mod_lt n hs
  have hle := Nat.mod_le n size
  refine ⟨Nat.dvd_sub_mod n, Nat.sub_le _ _, ?_⟩
  unfold clearLow
  omega

/-- Rounding up to a divisor of `2 ^ w` stays below `2 ^ w` as long as a whole step fits. -/
theorem divCeil_mul_lt_iff {w : Nat} (hm : 0 < m) (hd : m ∣ 2 ^ w) :
    Usize.divCeil n m * m < 2 ^ w ↔ n ≤ 2 ^ w - m := by
  obtain ⟨c, hc⟩ := hd
  have hge := Usize.divCeil_mul_ge (a := n) hm
  have hlt := Usize.divCeil_mul_lt (a := n) hm
  have hsub : 2 ^ w - m = (c - 1) * m := by
    rw [hc, Nat.sub_one_mul, Nat.mul_comm]
  have hpos : 0 < c := by
    rcases Nat.eq_zero_or_pos c with h0 | h
    · have : 0 < 2 ^ w := by positivity
      rw [h0, Nat.mul_zero] at hc
      omega
    · exact h
  rw [hsub]
  constructor
  · intro h
    rw [hc, Nat.mul_comm m c] at h
    have hq : Usize.divCeil n m ≤ c - 1 := by
      have := Nat.lt_of_mul_lt_mul_right h
      omega
    exact hge.trans (Nat.mul_le_mul_right m hq)
  · intro h
    have hq : Usize.divCeil n m < c - 1 + 1 := by
      apply Nat.lt_of_mul_lt_mul_right (a := m)
      rw [Nat.add_mul, Nat.one_mul]
      omega
    rw [hc, Nat.mul_comm m c]
    exact Nat.mul_lt_mul_of_pos_right (by omega) hm

theorem roundUp_eq (hm : 0 < m) (h : Usize.divCeil n m * m < 2 ^ host.width) :
    roundUp host n m = .ok (Usize.divCeil n m * m) := by
  unfold roundUp Host.mul Usize.checkedMul
  rw [if_neg (by omega), if_pos h]
  rfl

theorem roundUp_overflows (hm : 0 < m) (h : 2 ^ host.width ≤ Usize.divCeil n m * m) :
    roundUp host n m = .error (.panic "attempt to multiply with overflow") := by
  unfold roundUp Host.mul Usize.checkedMul
  rw [if_neg (by omega), if_neg (by omega)]
  rfl

theorem tpacket3Hdrlen_eq (hw : 32 ≤ host.width) : tpacket3Hdrlen host = .ok 68 := by
  have hbig : 2 ^ 32 ≤ 2 ^ host.width := Nat.pow_le_pow_right (by omega) hw
  unfold tpacket3Hdrlen tpacket3HdrSize sockaddrLlSize
  rw [tpacketAlign_eq (by omega)]
  exact add_eq (by simp only [clearLow]; omega)

end Sizes

/-- What the kernel and the reader ask of a geometry. -/
structure Fits (host : Host) (cfg : RingConfig) (snaplen pageSize : Nat) (g : Geometry) :
    Prop where
  pages : pageSize ∣ g.blockSize
  nonempty : 0 < g.blockSize
  covers : cfg.blockSize ≤ g.blockSize
  aligned : tpacketAlignment ∣ g.frameSize
  holds : ∃ hdrlen, tpacket3Hdrlen host = .ok hdrlen ∧ snaplen + hdrlen ≤ g.frameSize
  oneFrame : g.frameSize ≤ g.blockSize
  count : g.blockCount = cfg.blockCount
  frames : g.frameCount = g.blockSize / g.frameSize * g.blockCount
  everyBlock : g.blockCount ≤ g.frameCount
  mapped : g.mapLen = g.blockSize * g.blockCount
  addressed : g.mapLen < 2 ^ host.width
  words : g.blockSize ≤ u32Max ∧ g.blockCount ≤ u32Max ∧ g.frameSize ≤ u32Max ∧
    g.frameCount ≤ u32Max

/-- An error without a panic, or a geometry that fits. -/
def SizesRing (host : Host) (cfg : RingConfig) (snaplen pageSize : Nat) : Prop :=
  match ringGeometry host cfg snaplen pageSize with
  | .ok g => Fits host cfg snaplen pageSize g
  | .error e => ∀ message, e ≠ .panic message

/-- The sizes asked for can be rounded up to whole pages, unless the configuration is one
that is refused before. -/
def Roundable (host : Host) (cfg : RingConfig) (snaplen pageSize : Nat) : Prop :=
  cfg.blockCount = 0 ∨ cfg.blockSize = 0 ∨
    cfg.blockSize ≤ 2 ^ host.width - pageSize ∧ snaplen + 68 ≤ 2 ^ host.width - pageSize

section Geometry

variable {host : Host} {cfg : RingConfig} {snaplen pageSize : Nat}

/-- The frame size for a snaplen. -/
def frameSizeFor (snaplen : Nat) : Nat := max (clearLow (snaplen + 83) 16) minFrameSize

theorem frameSizeFor_spec (snaplen : Nat) : 16 ∣ frameSizeFor snaplen ∧
    snaplen + 68 ≤ frameSizeFor snaplen ∧ 2048 ≤ frameSizeFor snaplen := by
  obtain ⟨hd, -, hlt⟩ := clearLow_spec (snaplen + 83) (show 0 < 16 by omega)
  refine ⟨?_, ?_, Nat.le_max_right _ _⟩
  · unfold frameSizeFor minFrameSize
    rcases Nat.le_total (clearLow (snaplen + 83) 16) 2048 with h | h
    · rw [Nat.max_eq_right h]
      decide
    · rw [Nat.max_eq_left h]
      exact hd
  · exact le_trans (by omega) (Nat.le_max_left _ _)

/-- A multiple of 16 is below the bound exactly when the unaligned size is. -/
theorem frameSizeFor_le {bound : Nat} (hd : 16 ∣ bound) (hb : 2048 ≤ bound) :
    frameSizeFor snaplen ≤ bound ↔ snaplen + 68 ≤ bound := by
  constructor
  · intro h
    exact (frameSizeFor_spec snaplen).2.1.trans h
  · intro h
    obtain ⟨hd', hle, -⟩ := clearLow_spec (snaplen + 83) (show 0 < 16 by omega)
    apply max_le _ hb
    omega

/-- The checks and the result behind the two roundings. -/
def finish (host : Host) (cfg : RingConfig) (frameSize blockSize : Nat) :
    Except Error Geometry := do
  let frameCount ← okOr "ring frame count overflows"
    (Usize.checkedMul host.width (blockSize / frameSize) cfg.blockCount)
  let mapLen ← okOr "ring size overflows" (Usize.checkedMul host.width blockSize cfg.blockCount)
  if u32Max < blockSize ∨ u32Max < cfg.blockCount ∨ u32Max < frameCount then
    throw (tooLarge cfg.blockCount blockSize)
  return ⟨blockSize, cfg.blockCount, frameSize, frameCount, mapLen⟩

theorem ringGeometry_eq (hw : 32 ≤ host.width) (hc : cfg.blockCount ≠ 0)
    (hb : cfg.blockSize ≠ 0) (hs : snaplen + 84 < 2 ^ host.width) :
    ringGeometry host cfg snaplen pageSize =
      roundUp host (max cfg.blockSize (frameSizeFor snaplen)) pageSize >>=
        finish host cfg (frameSizeFor snaplen) := by
  have hsat : Usize.saturatingAdd host.width snaplen 68 = snaplen + 68 :=
    Nat.min_eq_left (by omega)
  have halign : tpacketAlign host (snaplen + 68) = .ok (clearLow (snaplen + 83) 16) :=
    tpacketAlign_eq (by omega)
  unfold ringGeometry
  rw [if_neg hc, if_neg hb]
  simp only [tpacket3Hdrlen_eq hw, hsat, halign, bind, Except.bind, pure, Except.pure]
  rfl

theorem ringGeometry_overflows (hw : 32 ≤ host.width) (hc : cfg.blockCount ≠ 0)
    (hb : cfg.blockSize ≠ 0) (hs : 2 ^ host.width ≤ snaplen + 84) :
    ringGeometry host cfg snaplen pageSize =
      .error (.panic "attempt to add with overflow") := by
  have hbig : 2 ^ 32 ≤ 2 ^ host.width := Nat.pow_le_pow_right (by omega) hw
  have hsat : 2 ^ host.width ≤ Usize.saturatingAdd host.width snaplen 68 + 16 := by
    unfold Usize.saturatingAdd
    omega
  unfold ringGeometry
  rw [if_neg hc, if_neg hb]
  simp only [tpacket3Hdrlen_eq hw, tpacketAlign_overflows hsat, bind, Except.bind]

/-- Behind the roundings nothing panics, and every field has been checked. -/
theorem finish_sizes {blockSize : Nat} (hw : 32 ≤ host.width)
    (hp : pageSize ∣ blockSize) (hle : cfg.blockSize ≤ blockSize)
    (hf : frameSizeFor snaplen ≤ blockSize) :
    match finish host cfg (frameSizeFor snaplen) blockSize with
    | .ok g => Fits host cfg snaplen pageSize g
    | .error e => ∀ message, e ≠ .panic message := by
  obtain ⟨halign, hholds, hmin⟩ := frameSizeFor_spec snaplen
  unfold finish
  cases hfc : Usize.checkedMul host.width (blockSize / frameSizeFor snaplen) cfg.blockCount with
  | none => exact fun message h => by cases h
  | some frameCount =>
    cases hml : Usize.checkedMul host.width blockSize cfg.blockCount with
    | none => exact fun message h => by cases h
    | some mapLen =>
      obtain ⟨rfl, hflt⟩ := Usize.checkedMul_eq_some.mp hfc
      obtain ⟨rfl, hmlt⟩ := Usize.checkedMul_eq_some.mp hml
      by_cases hbig : u32Max < blockSize ∨ u32Max < cfg.blockCount ∨
          u32Max < blockSize / frameSizeFor snaplen * cfg.blockCount
      · simp only [okOr, bind, Except.bind, hbig, if_true, throw, throwThe, MonadExceptOf.throw]
        exact fun message h => by cases h
      · have hsmall := hbig
        simp only [not_or, Nat.not_lt] at hsmall
        simp only [okOr, bind, Except.bind, hbig, if_false, pure, Except.pure]
        have hone : 1 ≤ blockSize / frameSizeFor snaplen :=
          (Nat.one_le_div_iff (by omega)).mpr hf
        exact {
          pages := hp
          nonempty := by change 0 < blockSize; omega
          covers := hle
          aligned := halign
          holds := ⟨68, tpacket3Hdrlen_eq hw, hholds⟩
          oneFrame := hf
          count := rfl
          frames := rfl
          everyBlock := Nat.le_mul_of_pos_left _ hone
          mapped := rfl
          addressed := hmlt
          words := ⟨hsmall.1, hsmall.2.1, hf.trans hsmall.1, hsmall.2.2⟩ }

end Geometry

/-- The sizes are worked out without overflow exactly when they can be rounded up. -/
theorem ringGeometry_sizes_iff {host : Host} {cfg : RingConfig} {snaplen k : Nat}
    (hw : 32 ≤ host.width) (hk : 12 ≤ k) (hkw : k < host.width) :
    SizesRing host cfg snaplen (2 ^ k) ↔ Roundable host cfg snaplen (2 ^ k) := by
  have hpage : 2 ^ 12 ≤ 2 ^ k := Nat.pow_le_pow_right (by omega) hk
  have hroom : 2 * 2 ^ k ≤ 2 ^ host.width := by
    rw [← Nat.pow_succ']
    exact Nat.pow_le_pow_right (by omega) hkw
  have hd : 2 ^ k ∣ 2 ^ host.width := Nat.pow_dvd_pow 2 hkw.le
  have hd16 : 16 ∣ 2 ^ host.width - 2 ^ k :=
    Nat.dvd_sub (Nat.pow_dvd_pow 2 (show 4 ≤ host.width by omega))
      (Nat.pow_dvd_pow 2 (show 4 ≤ k by omega))
  have hmin : 2048 ≤ 2 ^ host.width - 2 ^ k := by omega
  unfold SizesRing Roundable
  by_cases hc : cfg.blockCount = 0
  · unfold ringGeometry
    rw [if_pos hc]
    exact iff_of_true (fun message h => by cases h) (.inl hc)
  by_cases hb : cfg.blockSize = 0
  · unfold ringGeometry
    rw [if_neg hc, if_pos hb]
    exact iff_of_true (fun message h => by cases h) (.inr (.inl hb))
  by_cases hs : snaplen + 84 < 2 ^ host.width
  · rw [ringGeometry_eq hw hc hb hs]
    have hfit := divCeil_mul_lt_iff (n := max cfg.blockSize (frameSizeFor snaplen))
      (by omega) hd
    rw [max_le_iff, frameSizeFor_le hd16 hmin] at hfit
    by_cases hlt : Usize.divCeil (max cfg.blockSize (frameSizeFor snaplen)) (2 ^ k) * 2 ^ k <
        2 ^ host.width
    · rw [roundUp_eq (by omega) hlt]
      have hge := Usize.divCeil_mul_ge (a := max cfg.blockSize (frameSizeFor snaplen))
        (b := 2 ^ k) (by omega)
      exact iff_of_true (finish_sizes hw (Nat.dvd_mul_left _ _)
        (le_trans (Nat.le_max_left _ _) hge) (le_trans (Nat.le_max_right _ _) hge))
        (.inr (.inr (hfit.mp hlt)))
    · rw [roundUp_overflows (by omega) (by omega)]
      apply iff_of_false
      · intro h
        exact h _ rfl
      · rintro (h | h | h)
        · exact hc h
        · exact hb h
        · exact hlt (hfit.mpr h)
  · rw [ringGeometry_overflows hw hc hb (by omega)]
    apply iff_of_false
    · intro h
      exact h _ rfl
    · rintro (h | h | h)
      · exact hc h
      · exact hb h
      · omega

/-- The default sizes on the usual machine. -/
theorem default_sizes : SizesRing ⟨64, .little⟩ ⟨2 ^ 20, 64⟩ 65535 (2 ^ 12) ∧
    Roundable ⟨64, .little⟩ ⟨2 ^ 20, 64⟩ 65535 (2 ^ 12) :=
  have h : SizesRing ⟨64, .little⟩ ⟨2 ^ 20, 64⟩ 65535 (2 ^ 12) ↔ _ :=
    ringGeometry_sizes_iff (by decide) (by decide) (by decide)
  have hr : Roundable ⟨64, .little⟩ ⟨2 ^ 20, 64⟩ 65535 (2 ^ 12) := .inr (.inr (by decide))
  ⟨h.mpr hr, hr⟩

/-- A block size one page from the top of `usize` is rounded past it. -/
theorem largest_block_overflows :
    ¬ SizesRing ⟨64, .little⟩ ⟨2 ^ 64 - 1, 1⟩ 65535 4096 := by
  intro h
  have heq : ringGeometry ⟨64, .little⟩ ⟨2 ^ 64 - 1, 1⟩ 65535 4096 =
      .error (.panic "attempt to multiply with overflow") := by decide
  rw [SizesRing, heq] at h
  exact h _ rfl

end PktBaffle.Pkttap.LinuxRing
