import PktBaffle.Proofs.Classic.Compositional

namespace PktBaffle.Proofs.Classic
open Bpf Forward PktBaffle.Classic PktBaffle.Optimizer PktBaffle.Proofs.Optimizer

/-- A property the peephole passes cannot break: all they change is where jumps lead. -/
structure Lasting (P : Insn → Prop) : Prop where
  congr : ∀ {i j : Insn}, j.code = i.code → (isJa i = true ∨ j.k = i.k) → P i → P j

section Lasting

variable {P : Insn → Prop} (hP : Lasting P)
include hP

theorem Lasting.raw {a : Cell Insn Slot} (hl : linked a) (h : P a.insn) : P (a.raw Insn.put) := by
  refine hP.congr (raw_code a) ?_ h
  obtain ⟨i, _ | ⟨k, t | x⟩⟩ := a
  · exact .inr rfl
  · cases k with
    | ja => exact .inl (hl.ja rfl)
    | jt => exact .inr rfl
    | jf => exact .inr rfl
  · exact .inr rfl

theorem Lasting.thread (fin : List Nat) (n : Nat) {i : Insn} (h : P i) :
    P (threadInsn fin n i) := by
  refine hP.congr (threadInsn_code fin n i) ?_ h
  unfold threadInsn
  split
  · exact .inl ‹_›
  · split <;> exact .inr rfl

theorem Lasting.renumber (keep : List Bool) (n : Nat) {i : Insn} (h : P i) :
    P (renumber keep n i) := by
  refine hP.congr (renumber_code keep n i) ?_ h
  unfold PktBaffle.Optimizer.renumber
  split
  · exact .inl ‹_›
  · split <;> exact .inr rfl

theorem Lasting.optimize {insns : List Insn} (h : ∀ i ∈ insns, P i) : ∀ i ∈ optimize insns, P i := by
  have ht : ∀ i ∈ threadJumps insns, P i := by
    intro i hi
    obtain ⟨n, hn, rfl⟩ := List.mem_mapIdx.mp hi
    exact hP.thread _ _ (h _ (List.getElem_mem hn))
  intro i hi
  simp only [PktBaffle.Optimizer.optimize, removeUnkept] at hi
  split at hi
  · exact ht i hi
  · obtain ⟨⟨j, n⟩, hj, hk⟩ := List.mem_filterMap.mp hi
    dsimp only at hk
    split at hk
    · cases hk
      exact hP.renumber _ _ (ht j (List.fst_mem_of_mem_zipIdx hj))
    · cases hk

end Lasting

section Finishes

variable {σ ε ρ : Type} {M : Machine Insn Slot σ ε ρ} {holds : UInt16 → UInt32 → σ → Prop}
  {insns : List Insn} {E : ε → Prop}

/-- A run that returns or stops with a fault in `E`. -/
def Finishes (E : ε → Prop) (r : Result ε σ ρ) : Prop := (∃ v, r = .halt v) ∨ ∃ e, E e ∧ r = .stop e

/-- Jumps go forward and stay inside, and the last instruction returns: a run can only end at
a return or at an instruction that faults. -/
theorem from_finishes (h : WellFormed insns) (hM : Laws M holds)
    (hE : ∀ i ∈ insns, ∀ s e, M.act i s = .error e → E e) (i : Nat) (hi : i < insns.length)
    (s : σ) : Finishes E (from_ M insns i s) := by
  -- by induction on what is left of the program
  obtain ⟨c, hc⟩ : ∃ c, insns.length - i = c := ⟨_, rfl⟩
  induction c using Nat.strong_induction_on generalizing i s with
  | _ c ih =>
    obtain ⟨insn, hget⟩ : ∃ insn, insns[i]? = some insn := ⟨_, List.getElem?_eq_getElem hi⟩
    have hmem := List.mem_of_getElem? hget
    have later : ∀ j s', i < j → j < insns.length → Finishes E (from_ M insns j s') := by
      intro j s' hij hj
      exact ih (insns.length - j) (by omega) j hj s' rfl
    have fault : ∀ e, M.act insn s = .error e → Finishes E (from_ M insns i s) := by
      intro e he
      exact .inr ⟨e, hE insn hmem s e he, from_stop hget he⟩
    have jump : ∀ k s', usesSlot insn k = true → M.act insn s = .ok (.jump k s') →
        Finishes E (from_ M insns i s) := by
      intro k s' hu ha
      have hin := h.inside i insn hget _ (mem_jumpTargets.mpr ⟨k, hu, rfl⟩)
      rw [from_jump hget ha (hM.tgt insn k) (Nat.le_of_lt hin)]
      exact later _ s' (by unfold target; omega) hin
    cases hr : isRet insn with
    | true =>
      obtain ⟨v, hv⟩ := hM.ret insn s hr
      exact .inl ⟨v, from_halt hget hv⟩
    | false =>
      cases hj : isJa insn with
      | true => exact jump .ja s hj (hM.ja insn s hj)
      | false =>
        cases hb : isCondJump insn with
        | true =>
          rcases hM.cond insn s hb with ⟨e, he⟩ | ⟨s', ha | ha⟩
          · exact fault e he
          · exact jump .jt s' hb ha
          · exact jump .jf s' hb ha
        | false =>
          rcases hM.plain insn s hr hj hb with ⟨e, he⟩ | ⟨s', ha⟩
          · exact fault e he
          · rw [from_next hget ha]
            exact later _ s' (Nat.lt_succ_self i) (h.next_inside hget hr)

end Finishes

/-- An instruction of a finished program: it computes, branches, jumps or returns, and only a
load from the packet can fault. -/
def benign (i : Insn) : Prop :=
  plain i = true ∨ branchCodes.contains i.code = true ∨ isJa i = true ∨ isRet i = true

section Benign

variable {i : Insn}

theorem benign_lasting : Lasting benign where
  congr := by
    intro i j hc hk h
    have hja : isJa j = isJa i := isJa_congr hc
    have hret : isRet j = isRet i := isRet_congr hc
    rcases h with h | h | h | h
    · rcases hk with hk | hk
      · exact .inr (.inr (.inl (hja.trans hk)))
      · refine .inl ?_
        unfold plain at h ⊢
        rwa [hc, hk]
    · exact .inr (.inl (hc ▸ h))
    · exact .inr (.inr (.inl (hja.trans h)))
    · exact .inr (.inr (.inr (hret.trans h)))

theorem linked.benign {a : Cell Insn Slot} (h : linked a) : benign a.insn := by
  rcases h with h | ⟨k, rfl⟩
  · obtain ⟨i, _ | ⟨_ | _ | _, t⟩⟩ := a
    · exact .inl h
    · exact .inr (.inl (Bool.and_eq_true_iff.mp h).1)
    · exact .inr (.inl (Bool.and_eq_true_iff.mp h).1)
    · exact .inr (.inr (.inl (ja_code h).2))
  · refine .inr (.inr (.inr ?_))
    simp +decide only [isRet, Insn.retK, Cell.op]

theorem Effect.apply_error {ef : Effect} {s : Vm.Regs} {e : Vm.Stop} (h : ef.apply s = .error e) :
    e = .packetLoad := by
  have load : ∀ (v : Option UInt32) (f : UInt32 → Vm.Regs),
      (Vm.orStop .packetLoad v).map f = .error e → e = .packetLoad := by
    intro v f hv
    rcases orStop_cases v with ho | ⟨w, ho⟩
    · rw [ho] at hv
      cases hv
      rfl
    · rw [ho] at hv
      cases hv
  cases ef with
  | load v => exact load v _ h
  | loadInd v => exact load (v s.x) _ h
  | loadX v => exact load v _ h
  | alu f => cases h
  | store => cases h
  | reload => cases h
  | copy => cases h

/-- A finished program has no other fault than a load past the packet's end. -/
theorem benign_faults (h : benign i) {pkt : Vm.Packet} {s : Vm.Regs} {e : Vm.Stop}
    (he : Vm.act pkt i s = .error e) : e = .packetLoad := by
  rcases h with h | h | h | h
  · obtain ⟨ef, -, hact⟩ := plain_does pkt h
    rw [hact] at he
    cases ha : ef.apply s with
    | error f =>
      rw [ha] at he
      cases he
      exact Effect.apply_error ha
    | ok t =>
      rw [ha] at he
      cases he
  · obtain ⟨b, -, hact⟩ := branch_act h s
    rw [hact] at he
    cases he
  · have hact : Vm.act pkt i s = .ok (.jump .ja s) := (vm_laws pkt).ja i s h
    rw [hact] at he
    cases he
  · obtain ⟨v, hact⟩ : ∃ v, Vm.act pkt i s = .ok (.halt v) := (vm_laws pkt).ret i s h
    rw [hact] at he
    cases he

end Benign

/-- A program fit to be loaded: jumps lead forward to an instruction, the last instruction
returns, there is no dead code, and whatever the packet a run ends at a return or at a load past
the packet's end. -/
structure Valid (insns : List Insn) : Prop where
  ret : ∃ insn, insns.getLast? = some insn ∧ isRet insn = true
  jumps : ∀ i insn, insns[i]? = some insn → ∀ t ∈ jumpTargets i insn, i < t ∧ t < insns.length
  reached : ∀ i < insns.length, Reach insns i
  ends : ∀ pkt, (∃ b, Vm.exec insns pkt = .halt b) ∨ Vm.exec insns pkt = .stop .packetLoad

theorem compiled_benign {e : Expr} {link : LinkType} {insns : List Insn}
    (hc : compile e link = .ok insns) : ∀ i ∈ insns, benign i := by
  obtain ⟨hl, rfl⟩ := compileWith_ok.mp hc
  refine benign_lasting.optimize fun i hi => ?_
  obtain ⟨a, ha, rfl⟩ := List.mem_map.mp hi
  have hlink := (assembled_linked hl).linked a ha
  exact benign_lasting.raw hlink hlink.benign

theorem compiled_wellFormed {e : Expr} {link : LinkType} {insns : List Insn}
    (hc : compile e link = .ok insns) : WellFormed insns := by
  obtain ⟨hl, rfl⟩ := compileWith_ok.mp hc
  exact (assembled_wellFormed hl).optimize

end PktBaffle.Proofs.Classic
