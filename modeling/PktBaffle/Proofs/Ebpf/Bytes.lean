import PktBaffle.Proofs.Ebpf.Steps

namespace PktBaffle.Proofs.Ebpf
open PktBaffle.Ebpf Forward Interp PktBaffle.Extended
open Vm (Packet fromBe2 fromBe4)

/-- A byte shifted in at the end of a number. -/
theorem push_byte {v : UInt64} {b : UInt8} (h : v.toNat < 2 ^ 56) :
    ((v <<< 8) ||| b.toUInt64).toNat = v.toNat * 2 ^ 8 + b.toNat := by
  have hb := b.toNat_lt
  rw [UInt64.toNat_or, UInt64.toNat_shiftLeft, UInt8.toNat_toUInt64]
  have h8 : (8 : UInt64).toNat % 64 = 8 := rfl
  rw [h8, Nat.mod_eq_of_lt (by rw [Nat.shiftLeft_eq]; omega),
    ← Nat.shiftLeft_add_eq_or_of_lt (by omega), Nat.shiftLeft_eq]

theorem read_one (host : Endian) (a : UInt8) : host.read [a] = a.toUInt64 := by
  have h : ((0 : UInt64) <<< 8) ||| a.toUInt64 = a.toUInt64 := by
    apply UInt64.toNat_inj.mp
    rw [push_byte (by decide)]
    simp
  cases host <;> exact h

theorem read_big_two (a b : UInt8) : Endian.big.read [a, b] = (fromBe2 a b).toUInt64 := by
  have ha := a.toNat_lt
  have hb := b.toNat_lt
  have h1 : Endian.big.read [a] = a.toUInt64 := read_one .big a
  apply UInt64.toNat_inj.mp
  show ((Endian.big.read [a]) <<< 8 ||| b.toUInt64).toNat = _
  rw [h1, push_byte (by simp; omega)]
  simp [fromBe2]
  omega

theorem read_big_four (a b c d : UInt8) :
    Endian.big.read [a, b, c, d] = (fromBe4 a b c d).toUInt64 := by
  have ha := a.toNat_lt
  have hb := b.toNat_lt
  have hc := c.toNat_lt
  have hd := d.toNat_lt
  have h2 : (Endian.big.read [a, b]).toNat = a.toNat * 2 ^ 8 + b.toNat := by
    rw [read_big_two]
    simp [fromBe2]
    omega
  have h3 : (Endian.big.read [a, b, c]).toNat = (a.toNat * 2 ^ 8 + b.toNat) * 2 ^ 8 + c.toNat := by
    show ((Endian.big.read [a, b]) <<< 8 ||| c.toUInt64).toNat = _
    rw [push_byte (by omega), h2]
  apply UInt64.toNat_inj.mp
  show ((Endian.big.read [a, b, c]) <<< 8 ||| d.toUInt64).toNat = _
  rw [push_byte (by omega), h3]
  simp [fromBe4]
  omega

theorem read_little (bytes : List UInt8) :
    Endian.little.read bytes = Endian.big.read bytes.reverse := rfl

theorem swap16 (a b : UInt8) :
    (swapBytes16 (fromBe2 b a).toUInt64.toUInt16).toUInt64 = (fromBe2 a b).toUInt64 := by
  have ha := a.toNat_lt
  have hb := b.toNat_lt
  have hlow : (fromBe2 b a).toUInt64.toUInt16.toUInt8 = a := by
    apply UInt8.toNat_inj.mp
    simp [fromBe2]
  have hhigh : ((fromBe2 b a).toUInt64.toUInt16 >>> 8).toUInt8 = b := by
    apply UInt8.toNat_inj.mp
    simp [fromBe2, Nat.shiftRight_eq_div_pow]
    omega
  unfold swapBytes16
  rw [hlow, hhigh]
  apply UInt64.toNat_inj.mp
  simp [fromBe2]
  omega

theorem swap32 (a b c d : UInt8) :
    (swapBytes32 (fromBe4 d c b a).toUInt64.toUInt32).toUInt64 = (fromBe4 a b c d).toUInt64 := by
  have ha := a.toNat_lt
  have hb := b.toNat_lt
  have hc := c.toNat_lt
  have hd := d.toNat_lt
  have h0 : (fromBe4 d c b a).toUInt64.toUInt32 = fromBe4 d c b a := by simp
  rw [h0]
  have h1 : (fromBe4 d c b a).toUInt8 = a := by
    apply UInt8.toNat_inj.mp
    simp [fromBe4]
  have h2 : (fromBe4 d c b a >>> 8).toUInt8 = b := by
    apply UInt8.toNat_inj.mp
    simp [fromBe4, Nat.shiftRight_eq_div_pow]
    omega
  have h3 : (fromBe4 d c b a >>> 16).toUInt8 = c := by
    apply UInt8.toNat_inj.mp
    simp [fromBe4, Nat.shiftRight_eq_div_pow]
    omega
  have h4 : (fromBe4 d c b a >>> 24).toUInt8 = d := by
    apply UInt8.toNat_inj.mp
    simp [fromBe4, Nat.shiftRight_eq_div_pow]
    omega
  unfold swapBytes32
  rw [h1, h2, h3, h4]
section Swap

variable {pkt : Packet} {host : Endian} {pc : Nat} {s : Regs}

theorem act_end {r : UInt8} {d : Fin 11} {imm : Int32} {v x : UInt64}
    (h : decodes r 0 d 0 = true) (hten : d ≠ 10) (hd : s.get d = some v)
    (hx : endian imm (match host with | .little => true | .big => false) v pc = .ok x) :
    act pkt host pc (.new (bpfAlu ||| bpfEnd ||| bpfToBe) r 0 0 imm) s = .ok (.next (s.set d x)) := by
  rw [act_new h]
  have h7 : (bpfAlu ||| bpfEnd ||| bpfToBe) &&& 0x07 = bpfAlu := by decide
  simp only [h7]
  show actAlu host pc (.new (bpfAlu ||| bpfEnd ||| bpfToBe) r 0 0 imm) d 0 s = _
  unfold actAlu
  have hcode : (Insn.new (bpfAlu ||| bpfEnd ||| bpfToBe) r 0 0 imm).code =
      bpfAlu ||| bpfEnd ||| bpfToBe := rfl
  have himm : (Insn.new (bpfAlu ||| bpfEnd ||| bpfToBe) r 0 0 imm).imm = imm := rfl
  have h64 : (bpfAlu == bpfAlu64) = false := by decide
  have hop : (bpfAlu ||| bpfEnd ||| bpfToBe) &&& 0xf0 = bpfEnd := by decide
  have hmem : bpfEnd ∈ aluOps := by decide
  simp only [hcode, himm, h7, hop, h64]
  simp only [hmem, not_true, if_false, if_true, Bool.false_eq_true]
  refine reads hd ?_
  cases host with
  | little =>
    show (endian imm true v pc >>= _) = _
    rw [hx]
    exact writes hten _
  | big =>
    show (endian imm false v pc >>= _) = _
    rw [hx]
    exact writes hten _

theorem act_be16 {a b : UInt8} (h : s.get 4 = some (host.read [a, b])) :
    act pkt host pc (.be16 r4) s = .ok (.next (s.set 4 (fromBe2 a b).toUInt64)) := by
  refine act_end (by decide) (by decide) h ?_
  cases host with
  | little =>
    rw [read_little]
    show Except.ok (swapBytes16 (Endian.big.read [b, a]).toUInt16).toUInt64 = _
    rw [read_big_two, swap16]
  | big =>
    rw [read_big_two]
    show Except.ok (fromBe2 a b).toUInt64.toUInt16.toUInt64 = _
    have ha := a.toNat_lt
    have hb := b.toNat_lt
    congr 1
    apply UInt64.toNat_inj.mp
    simp [fromBe2]
    omega

theorem act_be32 {a b c d : UInt8} (h : s.get 4 = some (host.read [a, b, c, d])) :
    act pkt host pc (.be32 r4) s = .ok (.next (s.set 4 (fromBe4 a b c d).toUInt64)) := by
  refine act_end (by decide) (by decide) h ?_
  cases host with
  | little =>
    rw [read_little]
    show Except.ok (swapBytes32 (Endian.big.read [d, c, b, a]).toUInt32).toUInt64 = _
    rw [read_big_four, swap32]
  | big =>
    rw [read_big_four]
    show Except.ok (fromBe4 a b c d).toUInt64.toUInt32.toUInt64 = _
    simp

end Swap

section Packet

variable (pkt : Packet)

/-- The address of byte `n` of the packet. -/
def addr (n : Nat) : UInt64 := pktBase + UInt64.ofNat n

/-- `data_end` as the context gives it. -/
def dataEnd : UInt64 := (pktBase + UInt64.ofNat pkt.length).toUInt32.toUInt64

/-- The bounds check of `size` bytes at `off` passes. -/
def fits (off size : Nat) : Bool := decide (pktBase.toNat + (off + size) ≤ (dataEnd pkt).toNat)

theorem pktBase_toNat : pktBase.toNat = 0x10000002 := rfl

theorem addr_toNat {n : Nat} (h : n < 2 ^ 32) : (addr n).toNat = 0x10000002 + n := by
  simp only [addr, UInt64.toNat_add, pktBase_toNat, UInt64.toNat_ofNat']
  omega

/-- `data_end` never lies behind the last byte. -/
theorem dataEnd_le : (dataEnd pkt).toNat ≤ 0x10000002 + pkt.length := by
  simp only [dataEnd, UInt32.toNat_toUInt64, UInt64.toNat_toUInt32, UInt64.toNat_add,
    pktBase_toNat, UInt64.toNat_ofNat']
  omega

theorem length_of_fits {off size : Nat} (h : fits pkt off size = true) :
    off + size ≤ pkt.length := by
  have hle := dataEnd_le pkt
  have hf := of_decide_eq_true h
  rw [pktBase_toNat] at hf
  omega

/-- A load behind its bounds check reads the bytes of the packet. -/
theorem load_packet {ctx : List UInt8} {n size pc : Nat} (hn : n < 2 ^ 20)
    (h : n + size ≤ pkt.length) :
    load ctx pkt (addr n) size pc = .ok ((pkt.drop n).take size) := by
  have ha := addr_toNat (n := n) (by omega)
  have hctx : ¬(ctxBase ≤ addr n ∧ addr n < ctxBase + 8) := by
    rintro ⟨hle, -⟩
    rw [UInt64.le_iff_toNat_le, ha] at hle
    have : ctxBase.toNat = 0x20000000 := rfl
    omega
  have hsub : (addr n - pktBase).toNat = n := by
    have : addr n - pktBase = UInt64.ofNat n := by
      simp [addr]
    rw [this, UInt64.toNat_ofNat']
    omega
  have hin : pktBase ≤ addr n ∧ (addr n - pktBase).toNat + size ≤ pkt.length := by
    refine ⟨?_, by omega⟩
    rw [UInt64.le_iff_toNat_le, ha, pktBase_toNat]
    omega
  unfold load
  rw [if_neg hctx, if_pos hin, hsub]

theorem sext_natCast {n : Nat} (h : n < 2 ^ 64) : sext (n : Int) = UInt64.ofNat n := by
  unfold sext UInt64.ofInt
  congr 1
  omega

/-- Sign extension of a small displacement. -/
theorem sext_off {n : Nat} (h : n ≤ 32767) : sext (Int16.ofNat n).toInt = UInt64.ofNat n := by
  have hn : (Int16.ofNat n).toInt = (n : Int) := Int16.toInt_ofNat_of_lt (by omega)
  rw [hn, sext_natCast (by omega)]

theorem sext_imm {n : Nat} (h : n < 2 ^ 31) : sext (Int32.ofNat n).toInt = UInt64.ofNat n := by
  have hn : (Int32.ofNat n).toInt = (n : Int) := Int32.toInt_ofNat_of_lt (by omega)
  rw [hn, sext_natCast (by omega)]

end Packet

theorem mask32 (a : UInt64) : a &&& 0xffffffff = a.toUInt32.toUInt64 := by
  apply UInt64.toNat_inj.mp
  rw [UInt64.toNat_and]
  simp only [UInt32.toNat_toUInt64, UInt64.toNat_toUInt32]
  exact Nat.and_two_pow_sub_one_eq_mod _ 32

/-- The 32-bit arithmetic of the source's operators, where a shift may be too wide. -/
def arith (op : ArithOp) (x k : UInt32) : Option UInt32 :=
  match op with
  | .add => some (x + k)
  | .sub => some (x - k)
  | .mul => some (x * k)
  | .div => some (x / k)
  | .mod => some (x % k)
  | .and => some (x &&& k)
  | .or => some (x ||| k)
  | .xor => some (x ^^^ k)
  | .shl => if k < 32 then some (x <<< k) else none
  | .shr => if k < 32 then some (x >>> k) else none

section Arith

variable {pkt : Packet} {host : Endian} {pc : Nat} {s : Regs}

theorem toUInt32_toInt32 (k : UInt32) : k.toInt32.toUInt32 = k := by simp

/-- What an arithmetic instruction of the generator does to R4. -/
theorem act_arith {op : ArithOp} {x k : UInt32} {i : Insn} (hi : ebpfAlu32 op r4 k.toInt32 = .ok i)
    (h : s.get 4 = some x.toUInt64) :
    act pkt host pc i s = match arith op x k with
      | some y => .ok (.next (s.set 4 y.toUInt64))
      | none => .error (.badShift pc) := by
  have hact : ∀ code op, (code &&& 0x07 = bpfAlu ∧ code &&& 0xf0 = op ∧ code &&& bpfX = 0 ∧
      op ∈ aluOps ∧ op ≠ bpfEnd ∧ op ≠ bpfMov) →
      act pkt host pc (.new code r4 0 0 k.toInt32) s =
        (alu false op x.toUInt64 k.toUInt64 pc code).map
          (fun r => .next (s.set 4 r.toUInt32.toUInt64)) := by
    intro code op hc
    rw [act_alu32 (d := 4) (q := 0) (by decide) hc (by decide) h]
    simp only [mask32, toUInt32_toInt32, UInt32.toUInt32_toUInt64]
  have hgo : ∀ code op, (code &&& 0x07 = bpfAlu ∧ code &&& 0xf0 = op ∧ code &&& bpfX = 0 ∧
      op ∈ aluOps ∧ op ≠ bpfEnd ∧ op ≠ bpfMov) → ∀ r,
      alu false op x.toUInt64 k.toUInt64 pc code = .ok r → ∀ y, r.toUInt32 = y →
      act pkt host pc (.new code r4 0 0 k.toInt32) s = .ok (.next (s.set 4 y.toUInt64)) := by
    intro code op hc r hr y hy
    rw [hact code op hc, hr, ← hy]
    rfl
  have hshift : ∀ op, ¬k < 32 → (op = bpfLsh ∨ op = bpfRsh) →
      alu false op x.toUInt64 k.toUInt64 pc (bpfAlu ||| op ||| bpfK) = .error (.badShift pc) := by
    intro op hk ho
    have hs : shift false k.toUInt64 pc = .error (.badShift pc) := by
      unfold shift
      rw [if_neg]
      intro hlt
      apply hk
      rw [UInt32.lt_iff_toNat_lt]
      rw [UInt64.lt_iff_toNat_lt] at hlt
      simpa using hlt
    rcases ho with rfl | rfl
    · show (shift false k.toUInt64 pc).map _ = _
      rw [hs]
      rfl
    · show (shift false k.toUInt64 pc).map _ = _
      rw [hs]
      rfl
  have hfits : k < 32 → shift false k.toUInt64 pc = .ok k.toUInt64 := by
    intro hk
    unfold shift
    rw [if_pos]
    rw [UInt32.lt_iff_toNat_lt] at hk
    rw [UInt64.lt_iff_toNat_lt]
    simpa using hk
  cases op with
  | add => cases hi; exact hgo _ bpfAdd (by decide) _ rfl _ (by simp)
  | sub => cases hi; exact hgo _ bpfSub (by decide) _ rfl _ (by simp)
  | mul => cases hi; exact hgo _ bpfMul (by decide) _ rfl _ (by simp)
  | and => cases hi; exact hgo _ bpfAnd (by decide) _ rfl _ (by simp)
  | or => cases hi; exact hgo _ bpfOr (by decide) _ rfl _ (by simp)
  | xor => cases hi; exact hgo _ bpfXor (by decide) _ rfl _ (by simp)
  | mod => cases hi
  | div =>
    have hk : ¬k.toInt32 = 0 := by
      intro hz
      simp [ebpfAlu32, hz] at hi
    simp only [ebpfAlu32, hk, if_false, Except.ok.injEq] at hi
    subst hi
    have hk' : ¬k.toUInt64 = 0 := by
      intro hz
      apply hk
      have : k = 0 := by
        apply UInt32.toNat_inj.mp
        simpa using congrArg UInt64.toNat hz
      rw [this]
      rfl
    refine hgo _ bpfDiv (by decide) (x.toUInt64 / k.toUInt64) ?_ (x / k) ?_
    · show (if k.toUInt64 = 0 then _ else _) = _
      rw [if_neg hk']
    · apply UInt32.toNat_inj.mp
      have hle := Nat.div_le_self x.toNat k.toNat
      have hx := x.toNat_lt
      simp only [UInt64.toNat_toUInt32, UInt64.toNat_div, UInt32.toNat_toUInt64, UInt32.toNat_div]
      exact Nat.mod_eq_of_lt (lt_of_le_of_lt hle hx)
  | shl =>
    cases hi
    by_cases hk : k < 32
    · simp only [arith, hk, if_true]
      refine hgo _ bpfLsh (by decide) (x.toUInt64 <<< k.toUInt64) ?_ _ ?_
      · show (shift false k.toUInt64 pc).map _ = _
        rw [hfits hk]
        rfl
      · have hk' : k.toNat < 32 := by simpa [UInt32.lt_iff_toNat_lt] using hk
        apply UInt32.toNat_inj.mp
        simp only [UInt64.toNat_toUInt32, UInt64.toNat_shiftLeft, UInt32.toNat_toUInt64,
          UInt32.toNat_shiftLeft, Nat.mod_eq_of_lt hk', Nat.mod_eq_of_lt (show k.toNat < 64 by omega)]
        omega
    · simp only [arith, hk, if_false]
      rw [Insn.lsh32Imm, hact _ bpfLsh (by decide), hshift bpfLsh hk (.inl rfl)]
      rfl
  | shr =>
    cases hi
    by_cases hk : k < 32
    · simp only [arith, hk, if_true]
      refine hgo _ bpfRsh (by decide) (x.toUInt64 >>> k.toUInt64) ?_ _ ?_
      · show (shift false k.toUInt64 pc).map _ = _
        rw [hfits hk]
        rfl
      · have hk' : k.toNat < 32 := by simpa [UInt32.lt_iff_toNat_lt] using hk
        have hx := x.toNat_lt
        have hle : x.toNat >>> k.toNat ≤ x.toNat := Nat.shiftRight_le ..
        apply UInt32.toNat_inj.mp
        simp only [UInt64.toNat_toUInt32, UInt64.toNat_shiftRight, UInt32.toNat_toUInt64,
          UInt32.toNat_shiftRight, Nat.mod_eq_of_lt hk', Nat.mod_eq_of_lt (show k.toNat < 64 by omega)]
        exact Nat.mod_eq_of_lt (lt_of_le_of_lt hle hx)
    · simp only [arith, hk, if_false]
      rw [Insn.rsh32Imm, hact _ bpfRsh (by decide), hshift bpfRsh hk (.inr rfl)]
      rfl

end Arith

end PktBaffle.Proofs.Ebpf
