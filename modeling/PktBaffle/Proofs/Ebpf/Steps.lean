import PktBaffle.EbpfCodegen
import PktBaffle.EbpfInterp
import PktBaffle.Forward.Branch

namespace PktBaffle.Ebpf
open Forward
open Vm (Packet)

namespace Regs

@[simp] theorem get_set_same (s : Regs) (r : Fin 11) (x : UInt64) : (s.set r x).get r = some x := by
  simp [get, set]

@[simp] theorem get_set_other (s : Regs) {r q : Fin 11} (x : UInt64) (h : r ≠ q) :
    (s.set r x).get q = s.get q := by
  have hv : r.val ≠ q.val := fun he => h (Fin.ext he)
  simp [get, set, hv]

theorem rd_of_get {s : Regs} {r : Fin 11} {x : UInt64} (h : s.get r = some x) (pc : Nat) :
    s.rd r pc = .ok x := by
  unfold get at h
  unfold rd
  split at h
  · rename_i hi
    simp only [Option.some.injEq] at h
    rw [if_pos hi, h]
  · cases h

end Regs

namespace Interp

variable {pkt : Packet} {host : Endian} {pc : Nat} {s : Regs} {v w : UInt64}

theorem and_full (x : UInt64) : x &&& 0xffffffffffffffff = x := by
  apply UInt64.toBitVec_inj.mp
  exact BitVec.and_allOnes

/-- What an instruction does if the register it reads holds `v`. -/
theorem reads {r : Fin 11} {α : Type} {f : UInt64 → Except Fault α} {x : Except Fault α}
    (h : s.get r = some v) (hf : f v = x) : (s.rd r pc >>= f) = x := by
  rw [Regs.rd_of_get h pc]
  exact hf

section Decode

variable {insn : Insn} {code dst src op : UInt8} {d q : Fin 11} {off : Int16} {imm : Int32}

/-- The two register numbers of an instruction, packed and unpacked. -/
def decodes (dst src : UInt8) (d q : Fin 11) : Bool :=
  let regs := (dst &&& 0xf) ||| ((src &&& (0xf : UInt8)) <<< (4 : UInt8))
  (regs &&& 0xf).toNat == d.val && ((regs >>> 4) &&& 0xf).toNat == q.val

theorem act_new (h : decodes dst src d q = true) :
    act pkt host pc (.new code dst src off imm) s =
      let insn := Insn.new code dst src off imm
      if code &&& 0x07 = bpfLdx then actLdx pkt host pc insn d q s
      else if code &&& 0x07 = bpfAlu ∨ code &&& 0x07 = bpfAlu64 then actAlu host pc insn d q s
      else if code &&& 0x07 = bpfJmp ∨ code &&& 0x07 = bpfJmp32 then actJmp pc insn d q s
      else .error (.unknownOpcode pc code) := by
  simp only [decodes, Bool.and_eq_true, beq_iff_eq] at h
  have hd : (Insn.new code dst src off imm).dst.toNat = d.val := h.1
  have hq : (Insn.new code dst src off imm).src.toNat = q.val := h.2
  have hlt : (Insn.new code dst src off imm).dst.toNat < 11 ∧
      (Insn.new code dst src off imm).src.toNat < 11 := by
    rw [hd, hq]
    exact ⟨d.isLt, q.isLt⟩
  unfold act
  rw [dif_pos hlt]
  have e₁ : (⟨(Insn.new code dst src off imm).dst.toNat, hlt.1⟩ : Fin 11) = d := Fin.ext hd
  have e₂ : (⟨(Insn.new code dst src off imm).src.toNat, hlt.2⟩ : Fin 11) = q := Fin.ext hq
  simp only [e₁, e₂]
  rfl

/-- A conditional jump that compares a register with its immediate. -/
theorem act_cond (h : decodes dst src d q = true)
    (hc : code &&& 0x07 = bpfJmp ∧ code &&& 0xf0 = op ∧ code &&& bpfX = 0 ∧ op ∈ condOps ∧
      op ≠ bpfExit ∧ op ≠ bpfJa)
    (hd : s.get d = some v) :
    act pkt host pc (.new code dst src off imm) s =
      .ok (if taken op v (sext imm.toInt) v.toInt64 (sext imm.toInt).toInt64 then .jump () s
        else .next s) := by
  obtain ⟨h7, hop, hx, hmem, he, hj⟩ := hc
  rw [act_new h]
  simp only [h7]
  show actJmp pc (Insn.new code dst src off imm) d q s = _
  unfold actJmp
  have hcode : (Insn.new code dst src off imm).code = code := rfl
  have himm : (Insn.new code dst src off imm).imm = imm := rfl
  have h32 : (bpfJmp == bpfJmp32) = false := by decide
  simp only [hcode, himm, h7, hop, hx, h32]
  simp only [hmem, true_or, not_true, if_false, he, hj, and_false]
  exact reads hd rfl

theorem writes {r : Fin 11} (hr : r ≠ 10) (x : UInt64) :
    (s.wr r x pc >>= fun s' => (pure (.next s') : Except Fault (Move Unit Regs UInt64))) =
      .ok (.next (s.set r x)) := by
  unfold Regs.wr
  rw [if_neg hr]
  rfl

/-- 32-bit arithmetic with an immediate. -/
theorem act_alu32 (h : decodes dst src d q = true)
    (hc : code &&& 0x07 = bpfAlu ∧ code &&& 0xf0 = op ∧ code &&& bpfX = 0 ∧ op ∈ aluOps ∧
      op ≠ bpfEnd ∧ op ≠ bpfMov)
    (hten : d ≠ 10) (hd : s.get d = some v) :
    act pkt host pc (.new code dst src off imm) s =
      (alu false op (v &&& 0xffffffff) (imm.toUInt32.toUInt64 &&& 0xffffffff) pc code).map
        (fun r => .next (s.set d (r &&& 0xffffffff))) := by
  obtain ⟨h7, hop, hx, hmem, he, hm⟩ := hc
  rw [act_new h]
  have hl : ¬bpfAlu = bpfLdx := by decide
  simp only [h7, hl, if_false, true_or, if_true]
  unfold actAlu
  have hcode : (Insn.new code dst src off imm).code = code := rfl
  have himm : (Insn.new code dst src off imm).imm = imm := rfl
  have h64 : (bpfAlu == bpfAlu64) = false := by decide
  simp only [hcode, himm, h7, hop, hx, h64]
  simp only [hmem, not_true, if_false, he, hm, ne_eq, Bool.false_eq_true]
  refine reads hd ?_
  cases alu false op (v &&& 0xffffffff) (imm.toUInt32.toUInt64 &&& 0xffffffff) pc code with
  | error e => rfl
  | ok r => exact writes hten _

/-- 64-bit arithmetic with an immediate. -/
theorem act_alu64_imm (h : decodes dst src d q = true)
    (hc : code &&& 0x07 = bpfAlu64 ∧ code &&& 0xf0 = op ∧ code &&& bpfX = 0 ∧ op ∈ aluOps ∧
      op ≠ bpfEnd ∧ op ≠ bpfMov)
    (hten : d ≠ 10) (hd : s.get d = some v) :
    act pkt host pc (.new code dst src off imm) s =
      (alu true op v (sext imm.toInt) pc code).map (fun r => .next (s.set d r)) := by
  obtain ⟨h7, hop, hx, hmem, he, hm⟩ := hc
  rw [act_new h]
  have hl : ¬bpfAlu64 = bpfLdx := by decide
  simp only [h7, hl, if_false, or_true, if_true]
  unfold actAlu
  have hcode : (Insn.new code dst src off imm).code = code := rfl
  have himm : (Insn.new code dst src off imm).imm = imm := rfl
  have h64 : (bpfAlu64 == bpfAlu64) = true := by decide
  simp only [hcode, himm, h7, hop, hx, h64]
  simp only [hmem, not_true, if_false, if_true, he, hm, ne_eq, and_full]
  refine reads hd ?_
  cases alu true op v (sext imm.toInt) pc code with
  | error e => rfl
  | ok r => exact writes hten _

/-- 64-bit arithmetic between two registers. -/
theorem act_alu64_reg (h : decodes dst src d q = true)
    (hc : code &&& 0x07 = bpfAlu64 ∧ code &&& 0xf0 = op ∧ code &&& bpfX ≠ 0 ∧ op ∈ aluOps ∧
      op ≠ bpfEnd ∧ op ≠ bpfMov)
    (hten : d ≠ 10) (hq : s.get q = some w) (hd : s.get d = some v) :
    act pkt host pc (.new code dst src off imm) s =
      (alu true op v w pc code).map (fun r => .next (s.set d r)) := by
  obtain ⟨h7, hop, hx, hmem, he, hm⟩ := hc
  rw [act_new h]
  have hl : ¬bpfAlu64 = bpfLdx := by decide
  simp only [h7, hl, if_false, or_true, if_true]
  unfold actAlu
  have hcode : (Insn.new code dst src off imm).code = code := rfl
  have h64 : (bpfAlu64 == bpfAlu64) = true := by decide
  simp only [hcode, h7, hop, h64]
  simp only [hmem, not_true, if_false, if_true, he, hm, ne_eq, hx, not_false_iff, and_full]
  refine reads hq (reads hd ?_)
  cases alu true op v w pc code with
  | error e => rfl
  | ok r => exact writes hten _

/-- A 64-bit move. -/
theorem act_mov64 (h : decodes dst src d q = true)
    (hc : code &&& 0x07 = bpfAlu64 ∧ code &&& 0xf0 = bpfMov) (hten : d ≠ 10)
    (hv : (if code &&& bpfX ≠ 0 then s.get q else some (sext imm.toInt)) = some v) :
    act pkt host pc (.new code dst src off imm) s = .ok (.next (s.set d v)) := by
  obtain ⟨h7, hop⟩ := hc
  rw [act_new h]
  have hl : ¬bpfAlu64 = bpfLdx := by decide
  simp only [h7, hl, if_false, or_true, if_true]
  unfold actAlu
  have hcode : (Insn.new code dst src off imm).code = code := rfl
  have himm : (Insn.new code dst src off imm).imm = imm := rfl
  have h64 : (bpfAlu64 == bpfAlu64) = true := by decide
  have hmem : bpfMov ∈ aluOps := by decide
  have he : ¬bpfMov = bpfEnd := by decide
  simp only [hcode, himm, h7, hop, h64]
  simp only [hmem, not_true, if_false, if_true, he, and_full]
  by_cases hx : code &&& bpfX = 0
  · simp only [hx, ne_eq, not_true, if_false, Option.some.injEq] at hv ⊢
    subst hv
    exact writes hten _
  · simp only [hx, ne_eq, not_false_iff, if_true] at hv ⊢
    exact reads hv (writes hten _)

/-- A conditional jump that compares two registers. -/
theorem act_cond_reg (h : decodes dst src d q = true)
    (hc : code &&& 0x07 = bpfJmp ∧ code &&& 0xf0 = op ∧ code &&& bpfX ≠ 0 ∧ op ∈ condOps ∧
      op ≠ bpfExit ∧ op ≠ bpfJa)
    (hd : s.get d = some v) (hq : s.get q = some w) :
    act pkt host pc (.new code dst src off imm) s =
      .ok (if taken op v w v.toInt64 w.toInt64 then .jump () s else .next s) := by
  obtain ⟨h7, hop, hx, hmem, he, hj⟩ := hc
  rw [act_new h]
  simp only [h7]
  show actJmp pc (Insn.new code dst src off imm) d q s = _
  unfold actJmp
  have hcode : (Insn.new code dst src off imm).code = code := rfl
  have h32 : (bpfJmp == bpfJmp32) = false := by decide
  simp only [hcode, h7, hop, h32]
  simp only [hmem, true_or, not_true, if_false, he, hj, and_false, ne_eq, hx, not_false_iff,
    if_true]
  exact reads hd (reads hq rfl)

theorem act_ldx (h : decodes dst src d q = true)
    (hc : code &&& 0x07 = bpfLdx ∧ code &&& 0xe0 = bpfMem) (hten : d ≠ 10)
    (hq : s.get q = some w) :
    act pkt host pc (.new code dst src off imm) s =
      (load (context pkt host) pkt (w + sext off.toInt) (accessSize code) pc).map
        (fun bytes => .next (s.set d (host.read bytes))) := by
  obtain ⟨h7, hm⟩ := hc
  rw [act_new h]
  simp only [h7, if_true]
  unfold actLdx
  have hcode : (Insn.new code dst src off imm).code = code := rfl
  have hoff : (Insn.new code dst src off imm).off = off := rfl
  simp only [hcode, hoff, hm]
  refine reads hq ?_
  cases load (context pkt host) pkt (w + sext off.toInt) (accessSize code) pc with
  | error e => rfl
  | ok bytes => exact writes hten _

end Decode

section Moves

variable (imm : Int32) (off : Int16)

theorem act_add64_imm {r : UInt8} {d : Fin 11} (h : decodes r 0 d 0 = true) (hten : d ≠ 10)
    (hd : s.get d = some v) :
    act pkt host pc (.add64Imm r imm) s = .ok (.next (s.set d (v + sext imm.toInt))) :=
  @act_alu64_imm _ _ _ _ _ _ _ _ bpfAdd _ _ _ _ h (by decide) hten hd

theorem act_add64_reg (h : s.get 4 = some w) (h' : s.get 6 = some v) :
    act pkt host pc (.add64Reg r6 r4) s = .ok (.next (s.set 6 (v + w))) :=
  @act_alu64_reg _ _ _ _ _ _ _ _ _ bpfAdd _ 4 _ _ (by decide) (by decide) (by decide) h h'

theorem act_sub64_reg (h : s.get 2 = some w) (h' : s.get 4 = some v) :
    act pkt host pc (.sub64Reg r4 r2) s = .ok (.next (s.set 4 (v - w))) :=
  @act_alu64_reg _ _ _ _ _ _ _ _ _ bpfSub _ 2 _ _ (by decide) (by decide) (by decide) h h'

theorem act_mov64_reg {dst src : UInt8} {d q : Fin 11} (h : decodes dst src d q = true)
    (hten : d ≠ 10) (hq : s.get q = some w) :
    act pkt host pc (.mov64Reg dst src) s = .ok (.next (s.set d w)) :=
  act_mov64 h (by decide) hten hq

theorem act_mov64_imm :
    act pkt host pc (.mov64Imm r0 imm) s = .ok (.next (s.set 0 (sext imm.toInt))) :=
  act_mov64 (q := 0) (by decide) (by decide) (by decide) rfl

theorem act_ja : act pkt host pc (.ja off) s = .ok (.jump () s) := by
  have hcode : (Insn.new (bpfJmp ||| bpfJa) 0 0 off 0).code = bpfJmp ||| bpfJa := rfl
  rw [Insn.ja, act_new (d := 0) (q := 0) (by decide)]
  show actJmp pc (Insn.new (bpfJmp ||| bpfJa) 0 0 off 0) 0 0 s = _
  unfold actJmp
  simp only [hcode]
  rfl

theorem act_exit (h : s.get 0 = some v) : act pkt host pc .exit s = .ok (.halt v) :=
  reads h rfl

theorem act_jgt_r5_r3 (h : s.get 5 = some v) (h' : s.get 3 = some w) :
    act pkt host pc (.jgtReg r5 r3 off) s =
      .ok (if decide (w < v) then .jump () s else .next s) :=
  @act_cond_reg _ _ _ _ _ _ _ _ _ bpfJgt _ _ _ _ (by decide) (by decide) h h'

theorem act_jeq_imm (h : s.get 4 = some v) : act pkt host pc (.jeqImm r4 imm off) s =
    .ok (if v == sext imm.toInt then .jump () s else .next s) :=
  @act_cond _ _ _ _ _ _ _ _ bpfJeq _ 0 _ _ (by decide) (by decide) h

theorem act_jne_imm (h : s.get 4 = some v) : act pkt host pc (.jneImm r4 imm off) s =
    .ok (if v != sext imm.toInt then .jump () s else .next s) :=
  @act_cond _ _ _ _ _ _ _ _ bpfJne _ 0 _ _ (by decide) (by decide) h

theorem act_jgt_imm (h : s.get 4 = some v) : act pkt host pc (.jgtImm r4 imm off) s =
    .ok (if decide (sext imm.toInt < v) then .jump () s else .next s) :=
  @act_cond _ _ _ _ _ _ _ _ bpfJgt _ 0 _ _ (by decide) (by decide) h

theorem act_jge_imm (h : s.get 4 = some v) : act pkt host pc (.jgeImm r4 imm off) s =
    .ok (if decide (sext imm.toInt ≤ v) then .jump () s else .next s) :=
  @act_cond _ _ _ _ _ _ _ _ bpfJge _ 0 _ _ (by decide) (by decide) h

theorem act_jlt_imm (h : s.get 4 = some v) : act pkt host pc (.jltImm r4 imm off) s =
    .ok (if decide (v < sext imm.toInt) then .jump () s else .next s) :=
  @act_cond _ _ _ _ _ _ _ _ bpfJlt _ 0 _ _ (by decide) (by decide) h

theorem act_jle_imm (h : s.get 4 = some v) : act pkt host pc (.jleImm r4 imm off) s =
    .ok (if decide (v ≤ sext imm.toInt) then .jump () s else .next s) :=
  @act_cond _ _ _ _ _ _ _ _ bpfJle _ 0 _ _ (by decide) (by decide) h

theorem act_jset_imm (h : s.get 4 = some v) : act pkt host pc (.jsetImm r4 imm off) s =
    .ok (if v &&& sext imm.toInt != 0 then .jump () s else .next s) :=
  @act_cond _ _ _ _ _ _ _ _ bpfJset _ 0 _ _ (by decide) (by decide) h

end Moves

end Interp

end PktBaffle.Ebpf
