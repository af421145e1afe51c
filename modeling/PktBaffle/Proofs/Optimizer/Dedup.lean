import PktBaffle.Dedup
import PktBaffle.Proofs.Optimizer.Preserves

namespace PktBaffle.Proofs.Optimizer
open Bpf Forward PktBaffle.Optimizer

/-- Where a displacement of `n` leads once the instruction `r` further on is removed. A jump
onto it leads to the instruction in front of it. -/
def crossed (r n : Nat) : Nat := if r ≤ n then n - 1 else n

/-- An instruction after the one `r` behind its successor is removed: the same but for the
displacements it jumps by. -/
structure Adjusted (r : Nat) (insn insn' : Insn) : Prop where
  code : insn'.code = insn.code
  plain : insn.code &&& 0x07 ≠ bpfJmp → insn' = insn
  branch : isCondJump insn = true → ∃ jt jf, insn' = { insn with jt := jt, jf := jf }
  off : ∀ k, usesSlot insn k = true → insn'.off k = crossed r (insn.off k)

section Adjust

variable {removedIdx src : Nat} {insn : Insn}

theorem adjustInsn_plain (h : insn.code &&& 0x07 ≠ bpfJmp) :
    adjustInsn removedIdx src insn = .ok insn := by
  rw [adjustInsn, if_pos h]

theorem adjustInsn_behind (h : removedIdx ≤ src) : adjustInsn removedIdx src insn = .ok insn := by
  rw [adjustInsn, if_pos h, ite_self]

/-- A displacement that is decremented is not zero, and becomes one less. -/
theorem adjustField_toNat (h : src + 1 < removedIdx) (field : UInt8) :
    (adjustField removedIdx src field).toNat = crossed (removedIdx - src - 1) field.toNat := by
  unfold adjustField crossed target
  by_cases hc : removedIdx ≤ src + 1 + field.toNat
  · have hpos : 1 ≤ field.toNat := by omega
    rw [if_pos ⟨hc, hpos⟩, if_pos (by omega), UInt8.toNat_sub_of_le _ _ hpos]
    rfl
  · rw [if_neg (fun hn => hc hn.1), if_neg (by omega)]

theorem usesSlot_jmp {k : Slot} (h : usesSlot insn k = true) : insn.code &&& 0x07 = bpfJmp := by
  cases k <;> simp only [usesSlot, isJa, isCondJump, Bool.and_eq_true, beq_iff_eq] at h <;>
    exact h.1

theorem isCondJump_jmp (h : isCondJump insn = true) : insn.code &&& 0x07 = bpfJmp :=
  @usesSlot_jmp insn .jt h

/-- In front of the removed instruction no displacement underflows. -/
theorem adjustInsn_front (h : src + 1 < removedIdx) :
    ∃ insn', adjustInsn removedIdx src insn = .ok insn' ∧
      Adjusted (removedIdx - src - 1) insn insn' := by
  have hs : ¬ removedIdx ≤ src := by omega
  by_cases hj : insn.code &&& 0x07 = bpfJmp
  · have hn : ¬ insn.code &&& 0x07 ≠ bpfJmp := fun h => h hj
    by_cases ha : insn.code &&& 0xf0 = bpfJa
    · have hc : isCondJump insn = false := by simp [isCondJump, ha]
      by_cases ht : removedIdx ≤ target src insn.k.toNat
      · have hpos : 1 ≤ insn.k.toNat := by
          unfold target at ht
          omega
        have hk : insn.k ≠ 0 := by
          intro h0
          rw [h0] at hpos
          exact absurd hpos (by decide)
        refine ⟨{ insn with k := insn.k - 1 }, ?_, rfl, fun h => absurd hj h, ?_, fun k hk => ?_⟩
        · rw [adjustInsn, if_neg hn, if_neg hs, if_pos ha, if_pos ht, if_neg hk]
        · simp [hc]
        · cases k with
          | ja =>
            show (insn.k - 1).toNat = crossed _ insn.k.toNat
            unfold target at ht
            rw [UInt32.toNat_sub_of_le _ _ hpos, crossed, if_pos (by omega)]
            rfl
          | jt => simp [usesSlot, hc] at hk
          | jf => simp [usesSlot, hc] at hk
      · refine ⟨insn, ?_, rfl, fun _ => rfl, by simp [hc], fun k hk => ?_⟩
        · rw [adjustInsn, if_neg hn, if_neg hs, if_pos ha, if_neg ht]
        · unfold target at ht
          cases k with
          | ja =>
            show insn.k.toNat = crossed _ insn.k.toNat
            rw [crossed, if_neg (by omega)]
          | jt => simp [usesSlot, hc] at hk
          | jf => simp [usesSlot, hc] at hk
    · refine ⟨{ insn with
          jt := adjustField removedIdx src insn.jt
          jf := adjustField removedIdx src insn.jf }, ?_, rfl, fun h => absurd hj h,
        fun _ => ⟨_, _, rfl⟩, fun k hk => ?_⟩
      · rw [adjustInsn, if_neg hn, if_neg hs, if_neg ha]
      cases k with
      | ja => simp [usesSlot, isJa, ha] at hk
      | jt => exact adjustField_toNat h _
      | jf => exact adjustField_toNat h _
  · refine ⟨insn, adjustInsn_plain hj, rfl, fun _ => rfl, fun h => absurd (isCondJump_jmp h) hj,
      fun k hk => absurd (usesSlot_jmp hk) hj⟩

/-- Behind the removed instruction everything stays. -/
theorem adjustFrom_behind (h : removedIdx ≤ src) (insns : List Insn) :
    adjustFrom removedIdx src insns = .ok insns := by
  induction insns generalizing src with
  | nil => rfl
  | cons insn rest ih =>
    rw [adjustFrom, adjustInsn_behind h, ih (by omega)]
    rfl

end Adjust

theorem isTwin_iff {cur nxt : Insn} : isTwin cur nxt = true ↔
    isLdAbs cur = true ∧ isLdAbs nxt = true ∧ cur.code = nxt.code ∧ cur.k = nxt.k := by
  simp [isTwin, and_assoc]

theorem isLdAbs_jmp {insn : Insn} (h : isLdAbs insn = true) : insn.code &&& 0x07 ≠ bpfJmp := by
  rw [isLdAbs_class h]
  decide

section Removal

variable {pkt : Vm.Packet} {cur nxt : Insn}

theorem act_twin (h : isTwin cur nxt = true) (s : Vm.Regs) :
    Vm.act pkt nxt s = Vm.act pkt cur s := by
  obtain ⟨hc, hn, hcode, hk⟩ := isTwin_iff.mp h
  rw [act_ldAbs pkt hc, act_ldAbs pkt hn, hcode, hk]

/-- A load faults or falls through. -/
theorem load_falls (pkt : Vm.Packet) {insn : Insn} (h : isLdAbs insn = true) (s : Vm.Regs) :
    (∃ e, (Vm.machine pkt).act insn s = .error e) ∨
      ∃ s', (Vm.machine pkt).act insn s = .ok (.next s') := by
  have hj := isLdAbs_jmp h
  refine (vm_laws pkt).plain insn s ?_ ?_ ?_
  · rw [isRet, isLdAbs_class h]
    rfl
  · simp [isJa, hj]
  · simp [isCondJump, hj]

/-- The second of two twins changes nothing, wherever the run enters. -/
theorem run_twin (h : isTwin cur nxt = true) (post : List Insn) (n : Nat) (s : Vm.Regs) :
    (Vm.machine pkt).run (cur :: nxt :: post) n s =
      (Vm.machine pkt).run (cur :: post) (crossed 1 n) s := by
  have hact : (Vm.machine pkt).act nxt = (Vm.machine pkt).act cur := funext (act_twin h)
  obtain ⟨hc, hn, hcode, hk⟩ := isTwin_iff.mp h
  match n with
  | n + 2 => rfl
  | 1 =>
    show (Vm.machine pkt).run (nxt :: post) 0 s = (Vm.machine pkt).run (cur :: post) 0 s
    rcases load_falls pkt hc s with ⟨e, he⟩ | ⟨s', hs⟩
    · rw [Machine.run_stop he, Machine.run_stop (by rw [hact, he])]
    · rw [Machine.run_next hs, Machine.run_next (by rw [hact, hs])]
  | 0 =>
    show (Vm.machine pkt).run (cur :: nxt :: post) 0 s = (Vm.machine pkt).run (cur :: post) 0 s
    rcases load_falls pkt hc s with ⟨e, he⟩ | ⟨s', hs⟩
    · rw [Machine.run_stop he, Machine.run_stop he]
    · have hl := (vm_laws pkt).load cur s s' hc hs
      rw [hcode, hk] at hl
      rw [Machine.run_next hs, Machine.run_next hs,
        Machine.run_next ((vm_laws pkt).redundant nxt s' hn hl)]

/-- An adjusted instruction in front of adjusted code acts as the original does. -/
theorem run_adjusted {insn insn' : Insn} {r : Nat} (h : Adjusted r insn insn')
    {code code' : List Insn}
    (ih : ∀ n s, (Vm.machine pkt).run code n s = (Vm.machine pkt).run code' (crossed r n) s)
    (hr : 0 < r) (n : Nat) (s : Vm.Regs) :
    (Vm.machine pkt).run (insn :: code) n s =
      (Vm.machine pkt).run (insn' :: code') (crossed (r + 1) n) s := by
  have hzero : crossed r 0 = 0 := by
    rw [crossed, if_neg (by omega)]
  have laws := vm_laws pkt
  cases n with
  | succ n =>
    have hs : crossed (r + 1) (n + 1) = crossed r n + 1 := by
      unfold crossed
      split <;> split <;> omega
    rw [hs]
    exact ih n s
  | zero =>
    have hs : crossed (r + 1) 0 = 0 := by
      rw [crossed, if_neg (by omega)]
    rw [hs]
    by_cases hja : isJa insn = true
    · have hja' : isJa insn' = true := by
        rw [isJa, h.code]
        exact hja
      rw [Machine.run_jump (laws.ja insn s hja) (laws.tgt insn .ja),
        Machine.run_jump (laws.ja insn' s hja') (laws.tgt insn' .ja), ih, h.off .ja hja]
    · by_cases hcj : isCondJump insn = true
      · obtain ⟨jt, jf, he⟩ := h.branch hcj
        have hact : (Vm.machine pkt).act insn' s = (Vm.machine pkt).act insn s := by
          rw [he, laws.branches _ _ _ _ hcj]
        rcases laws.cond insn s hcj with ⟨e, hr⟩ | ⟨s', hr | hr⟩
        · rw [Machine.run_stop hr, Machine.run_stop (hact.trans hr)]
        · rw [Machine.run_jump hr (laws.tgt insn .jt),
            Machine.run_jump (hact.trans hr) (laws.tgt insn' .jt), ih, h.off .jt hcj]
        · rw [Machine.run_jump hr (laws.tgt insn .jf),
            Machine.run_jump (hact.trans hr) (laws.tgt insn' .jf), ih, h.off .jf hcj]
      · have hplain : insn.code &&& 0x07 ≠ bpfJmp := by
          intro hj
          by_cases ha : insn.code &&& 0xf0 = bpfJa
          · exact hja (by simp [isJa, hj, ha])
          · exact hcj (by simp [isCondJump, hj, ha])
        rw [h.plain hplain]
        by_cases hret : isRet insn = true
        · obtain ⟨v, hv⟩ := laws.ret insn s hret
          rw [Machine.run_halt hv, Machine.run_halt hv]
        · rcases laws.plain insn s (by simpa using hret) (by simpa using hja)
            (by simpa using hcj) with ⟨e, he⟩ | ⟨s', hs'⟩
          · rw [Machine.run_stop he, Machine.run_stop he]
          · rw [Machine.run_next hs', Machine.run_next hs', ih, hzero]

end Removal

/-- What every removal keeps of an instruction. -/
def Kept (insn insn' : Insn) : Prop :=
  insn'.code = insn.code ∧ (insn.code &&& 0x07 ≠ bpfJmp → insn' = insn)

theorem Kept.twin {a a' b b' : Insn} (ha : Kept a a') (hb : Kept b b')
    (h : isTwin a b = false) : isTwin a' b' = false := by
  refine Bool.eq_false_iff.mpr fun ht => ?_
  obtain ⟨h₁, h₂, -, -⟩ := isTwin_iff.mp ht
  have ha' := ha.2 (ha.1 ▸ isLdAbs_jmp h₁)
  have hb' := hb.2 (hb.1 ▸ isLdAbs_jmp h₂)
  rw [ha', hb', h] at ht
  cases ht

theorem chain_kept {l l' : List Insn} (hk : List.Forall₂ Kept l l')
    (h : l.IsChain fun a b => isTwin a b = false) :
    l'.IsChain fun a b => isTwin a b = false := by
  induction hk with
  | nil => exact .nil
  | cons ha hk ih =>
    cases hk with
    | nil => exact .singleton _
    | cons hb hk =>
      rw [List.isChain_cons_cons] at h ⊢
      exact ⟨ha.twin hb h.1, ih h.2⟩

/-- Removing the second of two twins: no displacement underflows, the instructions in front
keep what matters of them, and every run stays as it was. -/
theorem adjust_twin {cur nxt : Insn} (h : isTwin cur nxt = true) (post pre : List Insn)
    {src removedIdx : Nat} (hr : removedIdx = src + pre.length + 1) :
    ∃ pre', adjustFrom removedIdx src (pre ++ cur :: post) = .ok (pre' ++ cur :: post) ∧
      List.Forall₂ Kept pre pre' ∧ ∀ pkt n s,
        (Vm.machine pkt).run (pre ++ cur :: nxt :: post) n s =
          (Vm.machine pkt).run (pre' ++ cur :: post) (crossed (pre.length + 1) n) s := by
  induction pre generalizing src with
  | nil =>
    refine ⟨[], ?_, .nil, fun pkt n s => run_twin h post n s⟩
    have hcur : adjustInsn removedIdx src cur = .ok cur :=
      adjustInsn_plain (isLdAbs_jmp (isTwin_iff.mp h).1)
    rw [List.nil_append, adjustFrom, hcur, adjustFrom_behind (by simp [hr])]
    rfl
  | cons insn pre ih =>
    rw [List.length_cons] at hr
    obtain ⟨insn', hinsn, hadj⟩ := @adjustInsn_front removedIdx src insn (by omega)
    have hgap : removedIdx - src - 1 = pre.length + 1 := by omega
    obtain ⟨pre', hpre, hkept, hrun⟩ := @ih (src + 1) (by omega)
    refine ⟨insn' :: pre', ?_, .cons ⟨hadj.code, hadj.plain⟩ hkept, fun pkt n s => ?_⟩
    · rw [List.cons_append, adjustFrom, hinsn, hpre]
      rfl
    · exact run_adjusted (hgap ▸ hadj) (hrun pkt) (Nat.succ_pos _) n s

/-- The loop with everything in front of its index already free of twins. -/
theorem dedupLoop_twinless (post : List Insn) : ∀ {fuel : Nat} {pre : List Insn} {cur : Insn},
    post.length ≤ fuel → ((pre ++ [cur]).IsChain fun a b => isTwin a b = false) →
    ∃ out, dedupLoop fuel pre.length (pre ++ cur :: post) = .ok out ∧
      (out.IsChain fun a b => isTwin a b = false) ∧
      ∀ pkt, Vm.exec out pkt = Vm.exec (pre ++ cur :: post) pkt := by
  induction post with
  | nil =>
    intro fuel pre cur _ hchain
    refine ⟨pre ++ [cur], ?_, hchain, fun _ => rfl⟩
    unfold dedupLoop
    simp
  | cons nxt post ih =>
    intro fuel pre cur hfuel hchain
    obtain ⟨fuel, rfl⟩ : ∃ n, fuel = n + 1 := ⟨fuel - 1, by simp at hfuel; omega⟩
    have hlen : post.length ≤ fuel := by simpa using hfuel
    have hcur : (pre ++ cur :: nxt :: post)[pre.length]? = some cur := by simp
    have hnxt : (pre ++ cur :: nxt :: post)[pre.length + 1]? = some nxt := by simp
    rw [dedupLoop, hcur, hnxt]
    cases ht : isTwin cur nxt with
    | true =>
      obtain ⟨pre', hadj, hkept, hrun⟩ := adjust_twin ht post pre
        (show pre.length + 1 = 0 + pre.length + 1 by omega)
      have herase : (pre ++ cur :: nxt :: post).eraseIdx (pre.length + 1) = pre ++ cur :: post := by
        rw [List.eraseIdx_append_of_length_le (by omega)]
        simp
      have hchain' := chain_kept (List.rel_append hkept (.cons ⟨rfl, fun _ => rfl⟩ .nil)) hchain
      obtain ⟨out, hout, hfree, hexec⟩ := ih hlen hchain'
      refine ⟨out, ?_, hfree, fun pkt => ?_⟩
      · simp only [ht, if_true, herase, adjustJumps, hadj]
        rw [hkept.length_eq]
        exact hout
      · rw [hexec]
        exact (hrun pkt 0 .start).symm
    | false =>
      have hchain' : ((pre ++ [cur]) ++ [nxt]).IsChain fun a b => isTwin a b = false := by
        rw [List.append_assoc, List.singleton_append, List.isChain_append_cons_cons]
        exact ⟨hchain, ht, .singleton _⟩
      obtain ⟨out, hout, hfree, hexec⟩ := ih hlen hchain'
      simp only [List.length_append, List.length_singleton, List.append_assoc,
        List.singleton_append] at hout hexec
      refine ⟨out, ?_, hfree, hexec⟩
      simpa only [ht, Bool.false_eq_true, if_false] using hout

/-- The loop of `dedup_loads` ends without an underflow, leaves no two identical absolute
loads in a row, and keeps the verdict on every packet. -/
theorem dedupLoads_preserves (insns : List Insn) : ∃ out, dedupLoads insns = .ok out ∧
    (∀ pkt, Vm.run out pkt = Vm.run insns pkt) ∧
    out.IsChain fun cur nxt => ¬ (isLdAbs cur = true ∧ isLdAbs nxt = true ∧
      cur.code = nxt.code ∧ cur.k = nxt.k) := by
  cases insns with
  | nil => exact ⟨[], rfl, fun _ => rfl, .nil⟩
  | cons cur post =>
    obtain ⟨out, hout, hfree, hexec⟩ := @dedupLoop_twinless post (post.length + 1) [] cur
      (by omega) (.singleton _)
    refine ⟨out, hout, fun pkt => run_eq_of_exec (hexec pkt), hfree.imp fun a b h ht => ?_⟩
    rw [isTwin_iff.mpr ht] at h
    cases h

end PktBaffle.Proofs.Optimizer
