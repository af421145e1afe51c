import PktBaffle.Forward.Lockstep
import PktBaffle.Proofs.Classic.Valid
import PktBaffle.Proofs.Classic.Vocabulary

namespace PktBaffle.Proofs.Classic
open Bpf Forward PktBaffle.Classic PktBaffle.Optimizer PktBaffle.Proofs.Optimizer

section Loads

variable {pkt whole : Vm.Packet} {i : Insn} {s : Vm.Regs}

/-- What a load finds in the captured bytes it finds in the whole packet. -/
theorem word_extends (h : pkt <+: whole) {off v : UInt32} (hv : Vm.word pkt off = some v) :
    Vm.word whole off = some v := by
  obtain ⟨more, hmore⟩ := h.drop off.toNat
  unfold Vm.word at hv ⊢
  rw [← hmore]
  split at hv
  · rename_i b0 b1 b2 b3 rest hd
    rw [hd]
    exact hv
  · cases hv

theorem half_extends (h : pkt <+: whole) {off v : UInt32} (hv : Vm.half pkt off = some v) :
    Vm.half whole off = some v := by
  obtain ⟨more, hmore⟩ := h.drop off.toNat
  unfold Vm.half at hv ⊢
  rw [← hmore]
  split at hv
  · rename_i b0 b1 rest hd
    rw [hd]
    exact hv
  · cases hv

theorem byte_extends (h : pkt <+: whole) {off v : UInt32} (hv : Vm.byte pkt off = some v) :
    Vm.byte whole off = some v := by
  obtain ⟨more, hmore⟩ := h.drop off.toNat
  unfold Vm.byte at hv ⊢
  rw [← hmore]
  split at hv
  · rename_i b0 rest hd
    rw [hd]
    exact hv
  · cases hv

theorem sizedLoad_extends (h : pkt <+: whole) {off v : UInt32} {size : UInt16}
    (hv : Vm.sizedLoad pkt off size = some v) : Vm.sizedLoad whole off size = some v := by
  unfold Vm.sizedLoad at hv ⊢
  split at hv
  · rename_i hw
    rw [if_pos hw]
    exact word_extends h hv
  · rename_i hw
    rw [if_neg hw]
    split at hv
    · rename_i hh
      rw [if_pos hh]
      exact half_extends h hv
    · rename_i hh
      rw [if_neg hh]
      split at hv
      · rename_i hb
        rw [if_pos hb]
        exact byte_extends h hv
      · cases hv

theorem orStop_ok {e : Vm.Stop} {x : Option UInt32} {v : UInt32} :
    Vm.orStop e x = .ok v ↔ x = some v := by
  cases x <;> simp [Vm.orStop]

theorem loadA_extends (h : pkt <+: whole) (hm : i.code &&& 0xe0 ≠ bpfLen) {v : UInt32}
    (hv : Vm.loadA pkt i s = .ok v) : Vm.loadA whole i s = .ok v := by
  unfold Vm.loadA at hv ⊢
  dsimp only at hv ⊢
  split at hv
  · rename_i ha
    rw [if_pos ha]
    exact orStop_ok.mpr (sizedLoad_extends h (orStop_ok.mp hv))
  · rename_i ha
    rw [if_neg ha]
    split at hv
    · rename_i hi
      rw [if_pos hi]
      exact orStop_ok.mpr (sizedLoad_extends h (orStop_ok.mp hv))
    · rename_i hi
      rwa [if_neg hi, if_neg hm]

theorem loadX_extends (h : pkt <+: whole) (hm : i.code &&& 0xe0 ≠ bpfLen) {v : UInt32}
    (hv : Vm.loadX pkt i s = .ok v) : Vm.loadX whole i s = .ok v := by
  unfold Vm.loadX at hv ⊢
  dsimp only at hv ⊢
  rw [if_neg hm] at hv ⊢
  split at hv
  · rename_i hb
    rw [if_pos hb]
    cases hbyte : Vm.byte pkt i.k with
    | none =>
      rw [hbyte] at hv
      cases hv
    | some b =>
      rw [byte_extends h hbyte]
      rwa [hbyte] at hv
  · rename_i hb
    rwa [if_neg hb]

/-- The instruction loads the length of the packet. -/
def readsLen (i : Insn) : Bool :=
  (i.code &&& 0x07 == bpfLd || i.code &&& 0x07 == bpfLdx) && i.code &&& 0xe0 == bpfLen

/-- An instruction that does not ask for the length does on the whole packet what it does on the
captured bytes, unless they end too early for it. -/
theorem act_extends (h : pkt <+: whole) (hi : readsLen i = false) {m : Move Slot Vm.Regs Bool}
    (hm : Vm.act pkt i s = .ok m) : Vm.act whole i s = .ok m := by
  have hmap : ∀ {x y : Except Vm.Stop UInt32} (f : UInt32 → Move Slot Vm.Regs Bool),
      (∀ v, x = .ok v → y = .ok v) → x.map f = .ok m → y.map f = .ok m := by
    intro x y f hxy hx
    cases x with
    | error e => cases hx
    | ok v => rwa [hxy v rfl]
  simp only [readsLen, Bool.and_eq_false_iff, Bool.or_eq_false_iff, beq_eq_false_iff_ne, ne_eq] at hi
  by_cases hld : i.code &&& 0x07 = bpfLd
  · have hmode := hi.resolve_left fun hne => hne.1 hld
    simp only [Vm.act, hld, if_true] at hm ⊢
    exact hmap _ (fun v => loadA_extends h hmode) hm
  · by_cases hldx : i.code &&& 0x07 = bpfLdx
    · have hmode := hi.resolve_left fun hne => hne.2 hldx
      simp +decide only [Vm.act, hldx, if_true, if_false] at hm ⊢
      exact hmap _ (fun v => loadX_extends h hmode) hm
    · have hsame : Vm.act whole i s = Vm.act pkt i s := by
        simp only [Vm.act, hld, hldx, if_false]
      rw [hsame, hm]

/-- A program that never asks for the length gives the whole packet the verdict it gives the
captured bytes, if it gives them one. -/
theorem inner_extends (h : pkt <+: whole) {insns : List Insn}
    (hi : ∀ i ∈ insns, readsLen i = false) {b : Bool} (hb : Vm.inner insns pkt = some b) :
    Vm.inner insns whole = some b := by
  have hact : ∀ i ∈ insns, ∀ s m, (Vm.machine pkt).act i s = .ok m →
      (Vm.machine whole).act i s = .ok m := fun i hm s m ha => act_extends h (hi i hm) ha
  rcases Machine.run_covers hact rfl 0 .start with ⟨e, he⟩ | hsame
  · have hexec : Vm.exec insns pkt = .stop e := he
    unfold Vm.inner at hb
    rw [hexec] at hb
    cases hb
  · have hexec : Vm.exec insns whole = Vm.exec insns pkt := hsame
    unfold Vm.inner at hb ⊢
    rwa [hexec]

end Loads

section Lengthless

def testsLength : Primitive → Bool
  | .len .. => true
  | _ => false

theorem common_lengthless {i : Insn} (h : common i = true) : i.code ≠ lenCode := by
  intro hc
  simp +decide only [common, hc] at h

theorem loadCode_lengthless (ba : ByteAccess) (rhs : ByteLoad) (net : Nat) :
    ∀ a ∈ loadCode ba rhs net, a.insn.code ≠ lenCode := by
  have hfix : (Insn.st 0).code ≠ lenCode ∧ (Insn.ldxMem 0).code ≠ lenCode ∧
      Insn.tax.code ≠ lenCode := by decide
  have hside : ∀ layer off size msh, ∀ i ∈ loadSide layer off size net msh, i.code ≠ lenCode :=
    fun layer off size msh i hi => common_lengthless (common_loadSide layer off size net msh i hi)
  have halu : ∀ i ∈ aluCode ba.aluOps, i.code ≠ lenCode :=
    fun i hi => common_lengthless (common_aluCode _ i hi)
  have hsized : ∀ off size, (sizedInsn off size false).code ≠ lenCode :=
    fun off size => common_lengthless (common_sized off size false)
  have hcmp : (cmpCell (cmpXInsn ba.op)).insn.code ≠ lenCode := common_lengthless (common_cmpX _)
  have hops : ∀ l : List Insn, (∀ i ∈ l, i.code ≠ lenCode) → ∀ a ∈ ops l, a.insn.code ≠ lenCode := by
    intro l hl a ha
    obtain ⟨i, hi, rfl⟩ := List.mem_map.mp ha
    exact hl i hi
  refine List.forall_mem_append.mpr ⟨hops _ ?_, List.forall_mem_singleton.mpr hcmp⟩
  split
  · simp only [List.forall_mem_append, List.forall_mem_singleton]
    exact ⟨⟨⟨⟨hside _ _ _ _, halu⟩, hfix.1⟩, hside _ _ _ _⟩, hfix.2.1⟩
  · simp only [List.forall_mem_append, List.forall_mem_singleton]
    exact ⟨⟨⟨hsized _ _, halu⟩, hfix.2.2⟩, hsized _ _⟩

theorem body_lengthless {p : Primitive} (h : testsLength p = false) (link : LinkType) (depth : Nat) :
    ∀ a ∈ body p link depth, a.insn.code ≠ lenCode := by
  by_cases hp : singular p = true
  · cases p with
    | len op value => cases h
    | byteAccess ba =>
      simp only [body]
      cases ba.rhs with
      | const value => exact fun a ha => common_lengthless (common_constCode _ _ _ a ha)
      | load rhs => exact loadCode_lengthless _ _ _
    | _ => cases hp
  · have hp' : singular p = false := Bool.not_eq_true _ ▸ hp
    exact fun a ha => common_lengthless (common_body hp' link depth a ha)

theorem lengthless_lasting : Lasting fun i => i.code ≠ lenCode := ⟨fun hc _ h => hc ▸ h⟩

theorem plainCodes_lengthless : ([divCode, bpfSt, ldxMemCode] ++ plainCodes.erase lenCode).all
    (fun c => !((c &&& 0x07 == bpfLd || c &&& 0x07 == bpfLdx) && c &&& 0xe0 == bpfLen)) = true := by
  decide

/-- The generator loads the length in one way only. -/
theorem benign_lengthless {i : Insn} (h : benign i) (hl : i.code ≠ lenCode) :
    readsLen i = false := by
  have jump : i.code &&& 0x07 = bpfJmp ∨ i.code &&& 0x07 = bpfRet → readsLen i = false := by
    intro hc
    unfold readsLen
    rcases hc with hc | hc <;> rw [hc] <;> rfl
  rcases h with h | h | h | h
  · have hmem : i.code ∈ [divCode, bpfSt, ldxMemCode] ++ plainCodes.erase lenCode := by
      simp only [plain, Bool.or_eq_true, Bool.and_eq_true, beq_iff_eq] at h
      rcases h with (h | ⟨h, -⟩) | ⟨h | h, -⟩
      · have hp : i.code ∈ plainCodes := by simpa using h
        exact List.mem_append_right _ ((List.mem_erase_of_ne hl).mpr hp)
      · simp [h]
      · simp [h]
      · simp [h]
    have hall := List.all_eq_true.mp plainCodes_lengthless i.code hmem
    exact Bool.not_eq_true' _ ▸ hall
  · have hcond := (branch_code h).2
    simp only [isCondJump, Bool.and_eq_true, beq_iff_eq] at hcond
    exact jump (.inl hcond.1)
  · refine jump (.inl ?_)
    simp only [isJa, Bool.and_eq_true, beq_iff_eq] at h
    exact h.1
  · refine jump (.inr ?_)
    simpa [isRet] using h

theorem assembled_lengthless {e : Expr} (h : ∀ p ∈ e.leaves, testsLength p = false) (mode : HoistMode)
    (link : LinkType) : ∀ i ∈ assembled mode e link, i.code ≠ lenCode := by
  have hcode := every_asm (P := fun i => i.code ≠ lenCode) (fun i => common_lengthless) mode
    (fun p hp link depth => body_lengthless (h p hp) link depth) (Ctx.start link)
  have hblind : Blind (fun a : Cell Insn Slot => a.insn.code ≠ lenCode) := {
    fill := fun a x n h => by rwa [Cell.fill_insn]
    fold := fun a h => by rwa [Cell.fold_insn] }
  have hret : (Insn.retK bpfAccept).code ≠ lenCode ∧ (Insn.retK bpfDrop).code ≠ lenCode := by decide
  intro i hi
  obtain ⟨a, ha, rfl⟩ := List.mem_map.mp hi
  rw [raw_code]
  rcases List.mem_append.mp ha with ha | ha
  · exact hblind.resolve (hblind.resolve hcode _ _) _ _ a ha
  · obtain ⟨j, hj, rfl⟩ := List.mem_map.mp ha
    simp only [List.mem_cons, List.not_mem_nil, or_false] at hj
    rcases hj with rfl | rfl
    · exact hret.1
    · exact hret.2

/-- A filter without a length test judges a packet by what it reads of it: the verdict on the
bytes that were captured is the verdict on the whole packet. Only a load past the captured bytes
leaves it open. -/
theorem verdict_extends (e : Expr) (link : LinkType) (insns : List Insn)
    (hc : compile e link = .ok insns) (he : ∀ p ∈ e.leaves, testsLength p = false)
    (pkt whole : Vm.Packet) (h : pkt <+: whole) (b : Bool) (hb : Vm.inner insns pkt = some b) :
    Vm.inner insns whole = some b := by
  have hbenign := compiled_benign hc
  obtain ⟨-, rfl⟩ := compileWith_ok.mp hc
  have hlen := lengthless_lasting.optimize (assembled_lengthless he .hoist link)
  exact inner_extends h (fun i hi => benign_lengthless (hbenign i hi) (hlen i hi)) hb

/-- `ip and not vlan`, as the parser reads it. -/
def ipUntagged : Expr := .and (.primitive (.proto .ip)) (.not (.primitive (.vlan none)))

/-- The Ethernet header of an IPv4 packet decides it. -/
theorem verdict_extends_ip : ∃ insns, compile ipUntagged .ethernet = .ok insns ∧
    ∀ more, Vm.inner insns ([0, 0, 0, 0, 0, 0, 0, 0, 0, 0, 0, 0, 8, 0] ++ more) = some true := by
  have hrun : (compile ipUntagged .ethernet).toOption.map
      (fun insns => Vm.inner insns [0, 0, 0, 0, 0, 0, 0, 0, 0, 0, 0, 0, 8, 0]) =
        some (some true) := by decide +kernel
  have hlen : ∀ p ∈ ipUntagged.leaves, testsLength p = false := by
    simp [ipUntagged, Expr.leaves, testsLength]
  cases hc : compile ipUntagged .ethernet with
  | error err =>
    rw [hc] at hrun
    cases hrun
  | ok insns =>
    rw [hc] at hrun
    refine ⟨insns, rfl, fun more => ?_⟩
    exact verdict_extends ipUntagged .ethernet insns hc hlen _ _ (List.prefix_append _ more) true
      (Option.some.inj hrun)

end Lengthless

end PktBaffle.Proofs.Classic
