import PktBaffle.Proofs.Classic.Refine
import PktBaffle.Proofs.Optimizer.Preserves

namespace PktBaffle.Proofs.Classic
open Bpf Forward PktBaffle.Classic PktBaffle.Optimizer PktBaffle.Proofs.Optimizer

section Opcodes

theorem plainCodes_opcodes : plainCodes.all (fun c => opcodes.contains c && c &&& 0x07 != bpfJmp &&
    c &&& 0x07 != bpfRet) = true := by decide

theorem branchCodes_opcodes : branchCodes.all (fun c => opcodes.contains c &&
    c &&& 0x07 == bpfJmp && c &&& 0xf0 != bpfJa) = true := by decide

variable {i : Insn}

theorem plain_code (h : plain i = true) :
    i.code ∈ opcodes ∧ i.code &&& 0x07 ≠ bpfJmp ∧ i.code &&& 0x07 ≠ bpfRet := by
  simp only [plain, Bool.or_eq_true, Bool.and_eq_true, beq_iff_eq] at h
  rcases h with (h | ⟨h, -⟩) | ⟨h | h, -⟩
  · have hc := List.all_eq_true.mp plainCodes_opcodes i.code (by simpa using h)
    simpa [and_assoc] using hc
  · rw [h]
    decide
  · rw [h]
    decide
  · rw [h]
    decide

theorem branch_code (h : branchCodes.contains i.code = true) :
    i.code ∈ opcodes ∧ isCondJump i = true := by
  have hc := List.all_eq_true.mp branchCodes_opcodes i.code (by simpa using h)
  simpa [isCondJump, and_assoc] using hc

theorem ja_code (h : (i.code == bpfJmp ||| bpfJa) = true) : i.code ∈ opcodes ∧ isJa i = true := by
  rw [beq_iff_eq] at h
  unfold isJa
  rw [h]
  decide

end Opcodes

/-- A cell of a finished program: as the generator writes it, or a return. -/
def linked (a : Cell Insn Slot) : Prop := shaped a = true ∨ ∃ k, a = .op (.retK k)

section Cells

variable {a : Cell Insn Slot}

theorem linked.opcode (h : linked a) : a.insn.code ∈ opcodes := by
  rcases h with h | ⟨k, rfl⟩
  · obtain ⟨i, _ | ⟨_ | _ | _, t⟩⟩ := a
    · exact (plain_code h).1
    · exact (branch_code (Bool.and_eq_true_iff.mp h).1).1
    · exact (branch_code (Bool.and_eq_true_iff.mp h).1).1
    · exact (ja_code h).1
  · show (Insn.retK k).code ∈ opcodes
    simp only [Insn.retK]
    decide

theorem linked.branch (h : linked a) {k : Slot} {t : Target} (hs : a.slot = some (k, t))
    (hk : k ≠ .ja) : isCondJump a.insn = true := by
  rcases h with h | ⟨_, rfl⟩
  · obtain ⟨i, _ | ⟨_ | _ | _, t⟩⟩ := a
    · cases hs
    · exact (branch_code (Bool.and_eq_true_iff.mp h).1).2
    · exact (branch_code (Bool.and_eq_true_iff.mp h).1).2
    · cases hs
      exact absurd rfl hk
  · cases hs

theorem linked.ja (h : linked a) {t : Target} (hs : a.slot = some (.ja, t)) :
    isJa a.insn = true := by
  rcases h with h | ⟨_, rfl⟩
  · obtain ⟨i, _ | ⟨_ | _ | _, t⟩⟩ := a
    · cases hs
    · cases hs
    · cases hs
    · exact (ja_code h).2
  · cases hs

/-- What falls through besides the slot: an instruction without a slot never jumps, and the
other branch of a jump has distance zero. -/
theorem linked.other (h : linked a) {k : Slot} (hu : usesSlot a.insn k = true)
    (hs : ∀ t, a.slot ≠ some (k, t)) : a.insn.off k = 0 := by
  rcases h with h | ⟨r, rfl⟩
  · obtain ⟨i, _ | ⟨_ | _ | _, t⟩⟩ := a
    · obtain ⟨-, hj, -⟩ := plain_code h
      exfalso
      cases k <;> simp [usesSlot, isJa, isCondJump, hj] at hu
    · obtain ⟨hb, hz⟩ := Bool.and_eq_true_iff.mp h
      cases k with
      | jt => exact absurd rfl (hs t)
      | jf => exact congrArg UInt8.toNat (eq_of_beq hz)
      | ja =>
        have hc := (branch_code hb).2
        exfalso
        simp only [usesSlot] at hu
        rw [isJa_not_cond hu] at hc
        cases hc
    · obtain ⟨hb, hz⟩ := Bool.and_eq_true_iff.mp h
      cases k with
      | jf => exact absurd rfl (hs t)
      | jt => exact congrArg UInt8.toNat (eq_of_beq hz)
      | ja =>
        have hc := (branch_code hb).2
        exfalso
        simp only [usesSlot] at hu
        rw [isJa_not_cond hu] at hc
        cases hc
    · have hj := (ja_code h).2
      cases k with
      | ja => exact absurd rfl (hs t)
      | jt =>
        exfalso
        simp only [usesSlot] at hu
        rw [isJa_not_cond hj] at hu
        cases hu
      | jf =>
        exfalso
        simp only [usesSlot] at hu
        rw [isJa_not_cond hj] at hu
        cases hu
  · exfalso
    cases k <;> simp +decide only [usesSlot, isJa, isCondJump, Insn.retK, Cell.op] at hu

end Cells

/-- A finished program: no exit left, and every jump leads to an instruction. -/
structure Linked (c : Code) : Prop where
  linked : ∀ a ∈ c, linked a
  within : Frag.Within 255 c
  filled : ∀ a ∈ c, ∀ k x, a.slot ≠ some (k, .exit x)

theorem put_off {i : Insn} (k : Slot) {n : Nat} (hn : n ≤ 255) : (i.put k n).off k = n := by
  have h8 : (UInt8.ofNat n).toNat = n := by
    rw [UInt8.toNat_ofNat']
    exact Nat.mod_eq_of_lt (by omega)
  cases k with
  | jt => exact h8
  | jf => exact h8
  | ja =>
    show ((UInt8.ofNat n).toUInt32).toNat = n
    rw [UInt8.toNat_toUInt32, h8]

theorem put_off_other {i : Insn} {j k : Slot} (n : Nat) (h : j ≠ k) (hk : k ≠ .ja ∨ j = .ja) :
    (i.put j n).off k = i.off k := by
  cases j <;> cases k <;> simp_all [Insn.put, Insn.off]

/-- The finished instructions run as their cells do. -/
theorem run_raw {σ ε ρ : Type} {M : Machine Insn Slot σ ε ρ}
    {holds : UInt16 → UInt32 → σ → Prop} (hM : Laws M holds) {c : Code} (h : Linked c) (n : Nat)
    (s : σ) : M.run (c.map (Cell.raw Insn.put)) n s = M.cells.run c n s := by
  refine Machine.run_map M M.cells (Cell.raw Insn.put) c (fun a ha s => ?_) n s
  have hl := h.linked a ha
  obtain ⟨i, _ | ⟨k, t | x⟩⟩ := a
  · exact ⟨rfl, fun k s' _ => rfl⟩
  · have ht : t ≤ 255 := h.within _ ha k t rfl
    have tgt_self : M.tgt (i.put k t) k = M.cells.tgt ⟨i, some (k, .skip t)⟩ k := by
      rw [hM.tgt, put_off k ht]
      simp [Machine.cells]
    by_cases hk : k = .ja
    · subst hk
      have hj := hl.ja rfl
      have hj' : isJa (i.put .ja t) = true := hj
      refine ⟨(hM.ja _ s hj').trans (hM.ja i s hj).symm, fun k' s' hact => ?_⟩
      have hact' : M.act i s = .ok (.jump k' s') := hact
      rw [hM.ja i s hj] at hact'
      cases hact'
      exact tgt_self
    · have hb : isCondJump i = true := hl.branch rfl hk
      have hact : M.act (i.put k t) s = M.act i s := by
        cases k with
        | jt => exact hM.branches i s _ i.jf hb
        | jf => exact hM.branches i s i.jt _ hb
        | ja => exact absurd rfl hk
      refine ⟨hact, fun k' s' hj => ?_⟩
      by_cases hkk : k = k'
      · subst hkk
        exact tgt_self
      · show M.tgt (i.put k t) k' = M.cells.tgt ⟨i, some (k, .skip t)⟩ k'
        have hk' : k' ≠ .ja := by
          rintro rfl
          have hj' : M.act i s = .ok (.jump .ja s') := hj
          rcases hM.cond i s hb with ⟨e, he⟩ | ⟨s₁, he | he⟩ <;> rw [he] at hj' <;> cases hj'
        rw [hM.tgt, put_off_other t hkk (.inl hk')]
        simp [Machine.cells, hkk, hM.tgt]
  · exact absurd rfl (h.filled _ ha k x)

section Program

variable {c : Code}

/-- Both exits resolved and the returns behind them. -/
theorem program_linked (h : Solid c)
    (hf : Frag.Within 255 (Frag.resolve .failure 1 (Frag.resolve .success 0 c))) :
    Linked (program c) := by
  refine ⟨fun a ha => ?_, ?_, fun a ha k x => ?_⟩
  · rcases List.mem_append.mp ha with ha | ha
    · exact .inl (shaped_blind.resolve (shaped_blind.resolve h.shaped _ _) _ _ a ha)
    · obtain ⟨i, hi, rfl⟩ := List.mem_map.mp ha
      simp only [List.mem_cons, List.not_mem_nil, or_false] at hi
      rcases hi with rfl | rfl <;> exact .inr ⟨_, rfl⟩
  · refine hf.append (fun a ha k n hn => ?_)
    obtain ⟨i, -, rfl⟩ := List.mem_map.mp ha
    cases hn
  · rcases List.mem_append.mp ha with ha | ha
    · cases x with
      | failure => exact Frag.resolve_no_exit ha k
      | success => exact Frag.resolve_keeps_no_exit (fun b hb => Frag.resolve_no_exit hb) ha k
    · obtain ⟨i, -, rfl⟩ := List.mem_map.mp ha
      simp

theorem within_both (hs : Frag.Within 255 (Frag.resolve .success 0 c))
    (hf : Frag.Within 255 (Frag.resolve .failure 1 c)) :
    Frag.Within 255 (Frag.resolve .failure 1 (Frag.resolve .success 0 c)) := by
  refine hs.resolve (b := 0) (fun q hq => ?_)
  rw [Frag.slots_resolve_other (by decide)] at hq
  obtain ⟨j, hj, he, hslot⟩ := Frag.mem_slots.mp hq
  have hget := Frag.resolve_get .failure 1 c j hj
  have hle := hf _ (List.mem_of_getElem? hget) q.1 (c.length - j - 1 + 1) (by
    simp [Cell.fill, hslot])
  rw [Frag.resolve_length]
  omega

theorem program_length (c : Code) : (program c).length = c.length + 2 := by
  simp [program, ops]

/-- Every jump of a finished program leads to an instruction. -/
theorem program_inside (h : Solid c) {j : Nat} {a : Cell Insn Slot} (ha : (program c)[j]? = some a)
    {k : Slot} {n : Nat} (hn : a.slot = some (k, .skip n)) : j + 1 + n < (program c).length := by
  have hclosed : Frag.Closed (Frag.resolve .failure 1 (Frag.resolve .success 0 c) ++
      ops [.retK bpfAccept]) := by
    refine Frag.Closed.resolve_append ?_ (Frag.closed_single (by simp)) .failure (by simp)
    have hs := Frag.Closed.resolve_append h.closed (show Frag.Closed [] from trivial) .success
      (Nat.zero_le _)
    simpa using hs
  have hsplit : program c = (Frag.resolve .failure 1 (Frag.resolve .success 0 c) ++
      ops [.retK bpfAccept]) ++ ops [.retK bpfDrop] := by
    simp [program, ops]
  rw [program_length]
  rw [hsplit] at ha
  rcases Nat.lt_or_ge j (c.length + 1) with hj | hj
  · rw [List.getElem?_append_left (by simpa [ops] using hj)] at ha
    have hle := hclosed.get ha hn
    simp only [List.length_append, Frag.resolve_length, ops, List.length_map,
      List.length_singleton] at hle
    omega
  · rw [List.getElem?_append_right (by simpa [ops] using hj)] at ha
    have hmem := List.mem_of_getElem? ha
    obtain ⟨i, -, rfl⟩ := List.mem_map.mp hmem
    cases hn

theorem raw_code (a : Cell Insn Slot) : (a.raw Insn.put).code = a.insn.code := by
  obtain ⟨i, _ | ⟨k, t | x⟩⟩ := a
  · rfl
  · cases k <;> rfl
  · rfl

/-- The displacement a slot that is used holds in the end. -/
theorem raw_off {a : Cell Insn Slot} (h : linked a) {k : Slot}
    (hu : usesSlot a.insn k = true) (hx : ∀ k x, a.slot ≠ some (k, .exit x))
    (hw : ∀ k n, a.slot = some (k, .skip n) → n ≤ 255) :
    a.slot = some (k, .skip ((a.raw Insn.put).off k)) ∨ (a.raw Insn.put).off k = 0 := by
  by_cases hs : ∃ t, a.slot = some (k, t)
  · obtain ⟨t, hs⟩ := hs
    cases t with
    | exit x => exact absurd hs (hx k x)
    | skip n =>
      refine .inl ?_
      rw [Cell.raw, hs]
      simp only [put_off k (hw k n hs)]
  · refine .inr ?_
    have hs' : ∀ t, a.slot ≠ some (k, t) := fun t ht => hs ⟨t, ht⟩
    rw [← h.other hu hs']
    obtain ⟨i, _ | ⟨j, t | x⟩⟩ := a
    · rfl
    · have hjk : j ≠ k := fun hjk => hs' _ (by rw [hjk])
      refine put_off_other t hjk ?_
      by_cases hj : j = .ja
      · exact .inr hj
      · refine .inl (fun hk => ?_)
        have hb := h.branch rfl hj
        subst hk
        rw [isJa_not_cond hu] at hb
        cases hb
    · exact absurd rfl (hx j x)

/-- The finished program is one the peephole passes accept. -/
theorem program_wellFormed (h : Solid c) (hl : Linked (program c)) :
    WellFormed ((program c).map (Cell.raw Insn.put)) where
  opcodes insn hi := by
    obtain ⟨a, ha, rfl⟩ := List.mem_map.mp hi
    rw [raw_code]
    exact (hl.linked a ha).opcode
  ret := by
    refine ⟨.retK bpfDrop, ?_, rfl⟩
    simp [program, ops, Cell.raw]
  inside j insn hj t ht := by
    rw [List.getElem?_map] at hj
    obtain ⟨a, ha, rfl⟩ := Option.map_eq_some_iff.mp hj
    have hmem := List.mem_of_getElem? ha
    obtain ⟨k, hu, rfl⟩ := mem_jumpTargets.mp ht
    rw [List.length_map]
    have hu' : usesSlot a.insn k = true := by
      rw [usesSlot_congr (raw_code a)] at hu
      exact hu
    unfold target
    rcases raw_off (hl.linked a hmem) hu' (hl.filled a hmem) (hl.within a hmem) with hs | hz
    · exact program_inside h ha hs
    · rw [hz]
      -- A jump that falls through is not the last instruction: that one returns.
      have hlt := (List.getElem?_eq_some_iff.mp ha).1
      rcases Nat.lt_or_ge (j + 1) (program c).length with hj' | hj'
      · omega
      · exfalso
        have hlast : (program c)[j]? = some (.op (.retK bpfDrop)) := by
          have hje : j = (program c).length - 1 := by omega
          rw [hje, ← List.getLast?_eq_getElem?]
          simp [program, ops]
        rw [hlast] at ha
        cases ha
        cases k <;> exact absurd hu' (by decide)

/-- How a program ends whose expression has outcome `t`. -/
def ending : Tri → Result Vm.Stop Vm.Regs Bool
  | some b => .halt b
  | none => .stop .packetLoad

/-- A finished program ends as its expression does. -/
theorem run_program {pkt : Vm.Packet} {s : Vm.Regs} {t : Tri} {S F : Vm.Regs → Prop}
    (h : ((Vm.machine pkt).cells.run c 0 s).Fits (· = .packetLoad) S F t) :
    (Vm.machine pkt).cells.run (program c) 0 s = ending t := by
  have hx : ∀ i k y, (Vm.machine pkt).tgt i k ≠ .exit y := fun i k y h => by cases h
  rw [program, Machine.run_append, Machine.run_resolve _ hx, Machine.run_resolve _ hx]
  rcases t with _ | _ | _
  · obtain ⟨e, rfl, hr⟩ := h
    rw [hr]
    rfl
  · obtain ⟨s', -, hr⟩ := h
    rw [hr]
    rfl
  · obtain ⟨s', -, hr | hr⟩ := h <;> rw [hr] <;> rfl

end Program

section Assembled

variable {mode : HoistMode} {e : Expr} {link : LinkType}

theorem assembled_linked (h : Links mode e link) :
    Linked (program (asm mode e (Ctx.start link)).1.code) :=
  program_linked (solid_asm mode e _) (within_both h.2.1 h.2.2)

theorem assembled_wellFormed (h : Links mode e link) : WellFormed (assembled mode e link) :=
  program_wellFormed (solid_asm mode e _) (assembled_linked h)

/-- What `compile` returns, and when. -/
theorem compileWith_ok {insns : List Insn} :
    compileWith mode e link = .ok insns ↔
      Links mode e link ∧ insns = optimize (assembled mode e link) := by
  unfold compileWith
  rcases emitted_or mode e link with ⟨hl, cg, he, hc, -⟩ | ⟨hl, err, he⟩
  · rw [he, ← hc]
    simp only [Except.map, Except.ok.injEq, hl, true_and]
    exact eq_comm
  · rw [he]
    simp [Except.map, hl]

/-- The outcome of a compiled program on a packet on which its expression has an outcome. -/
theorem inner_compileWith {insns : List Insn} (h : compileWith mode e link = .ok insns)
    (hj : JaFits (assembled mode e link)) {pkt : Vm.Packet} {t : Tri} {S F : Vm.Regs → Prop}
    (hrun : ((Vm.machine pkt).cells.run (asm mode e (Ctx.start link)).1.code 0 .start).Fits
      (· = .packetLoad) S F t) : Vm.inner insns pkt = t := by
  obtain ⟨hl, rfl⟩ := compileWith_ok.mp h
  have hexec : Vm.exec (optimize (assembled mode e link)) pkt =
      (Vm.machine pkt).cells.run (program (asm mode e (Ctx.start link)).1.code) 0 .start :=
    (run_optimize (assembled_wellFormed hl) hj (vm_laws pkt) .start).trans
      (run_raw (vm_laws pkt) (assembled_linked hl) 0 .start)
  rw [Vm.inner, hexec, run_program hrun]
  cases t <;> rfl

end Assembled

end PktBaffle.Proofs.Classic
