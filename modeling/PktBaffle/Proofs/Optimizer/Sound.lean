import PktBaffle.Proofs.Optimizer.Remove
import PktBaffle.Vm

namespace PktBaffle.Proofs.Optimizer
open Bpf Forward PktBaffle.Optimizer

variable {σ ε ρ : Type}

/-- A state agrees with what the dataflow knows about the accumulator. -/
def Agrees (holds : UInt16 → UInt32 → σ → Prop) : AState → σ → Prop
  | .unknown, _ => True
  | .load code k, s => holds code k s

theorem Covers.agrees {holds : UInt16 → UInt32 → σ → Prop} {slot : Option AState} {out : AState}
    {s : σ} (h : Covers slot out) (ha : Agrees holds out s) :
    ∃ state, slot = some state ∧ Agrees holds state s := by
  rcases h with rfl | rfl
  · exact ⟨.unknown, rfl, trivial⟩
  · exact ⟨out, rfl, ha⟩

theorem isLdAbs_class {insn : Insn} (h : isLdAbs insn = true) : insn.code &&& 0x07 = bpfLd := by
  simp only [isLdAbs, beq_iff_eq] at h
  have hm : insn.code &&& 0x07 = insn.code &&& 0xe7 &&& 0x07 := by
    rw [UInt16.and_assoc]
    rfl
  rw [hm, h]
  rfl

theorem isLdAbs_plain {insn : Insn} (h : isLdAbs insn = true) :
    isRet insn = false ∧ isJa insn = false ∧ isCondJump insn = false := by
  have hc := isLdAbs_class h
  refine ⟨?_, ?_, ?_⟩
  · simp only [isRet, hc]
    decide
  · simp only [isJa, hc]
    rfl
  · simp only [isCondJump, hc]
    rfl

section Transfer

variable {M : Machine Insn Slot σ ε ρ} {holds : UInt16 → UInt32 → σ → Prop}

theorem agrees_next (hM : Laws M holds) {insn : Insn} {state : AState} {s s' : σ}
    (ho : insn.code ∈ opcodes) (h : Agrees holds state s) (ha : M.act insn s = .ok (.next s')) :
    Agrees holds (transfer insn state) s' := by
  unfold transfer
  split
  · exact hM.load insn s s' ‹_› ha
  · split
    · trivial
    · rename_i hw
      cases state with
      | unknown => trivial
      | load code k => exact hM.keepsNext insn s s' code k ho (by simpa using hw) ha h

theorem agrees_jump (hM : Laws M holds) {insn : Insn} {state : AState} {s s' : σ} {j : Slot}
    (ho : insn.code ∈ opcodes) (h : Agrees holds state s) (ha : M.act insn s = .ok (.jump j s')) :
    Agrees holds (transfer insn state) s' := by
  unfold transfer
  split
  · rename_i hld
    obtain ⟨hr, hj, hc⟩ := isLdAbs_plain hld
    rcases hM.plain insn s hr hj hc with ⟨e, he⟩ | ⟨s'', he⟩
    · simp [he] at ha
    · simp [he] at ha
  · split
    · trivial
    · rename_i hw
      cases state with
      | unknown => trivial
      | load code k => exact hM.keepsJump insn s s' j code k ho (by simpa using hw) ha h

end Transfer

@[simp] theorem keepMarks_length (insns : List Insn) :
    (keepMarks insns).length = insns.length := by
  simp [keepMarks]

theorem keepMarks_get {insns : List Insn} {i : Nat} {insn : Insn} (h : insns[i]? = some insn) :
    (keepMarks insns)[i]? = some ((reachableMarks insns)[i]? == some true &&
      (redundantLoadMarks insns)[i]? != some true && !(isJa insn && insn.k == 0)) := by
  simp [keepMarks, h]

/-- A reachable instruction is kept, or does nothing but go on to the next one. -/
theorem kept_or_noop {insns : List Insn} (h : WellFormed insns) {i : Nat} {insn : Insn}
    (hi : insns[i]? = some insn) (hr : Reach insns i) :
    (keepMarks insns)[i]? = some true ∨ ((keepMarks insns)[i]? = some false ∧
      ((isJa insn = true ∧ insn.k = 0) ∨ (isLdAbs insn = true ∧
        (sweep insns).2[i]? = some (some (.load insn.code insn.k))))) := by
  have hg := keepMarks_get hi
  have hreach := (reachableMarks_iff h i).mpr hr
  by_cases hred : (redundantLoadMarks insns)[i]? = some true
  · right
    obtain ⟨insn', hi', _, hld, hst⟩ := (swept insns).mark i hred
    rw [hi] at hi'
    cases hi'
    exact ⟨by rw [hg]; simp [hred], .inr ⟨hld, hst⟩⟩
  · by_cases hja : isJa insn = true ∧ insn.k = 0
    · right
      exact ⟨by rw [hg]; simp [hja.1, hja.2], .inl hja⟩
    · left
      rw [hg]
      simp only [hreach, Option.some.injEq, Bool.and_eq_true, bne_iff_ne, ne_eq, beq_self_eq_true,
        hred, not_false_eq_true, true_and, Bool.not_eq_true', Bool.and_eq_false_iff]
      by_cases hj : isJa insn = true
      · exact .inr (by simpa using fun hk => hja ⟨hj, hk⟩)
      · exact .inl (by simpa using hj)

theorem mem_succs_next {i : Nat} {insn : Insn} (hr : isRet insn = false) (hj : isJa insn = false)
    (hc : isCondJump insn = false) : i + 1 ∈ succs i insn := by
  simp [succs, hr, hj, hc]

theorem mem_succs_slot {i : Nat} {insn : Insn} {k : Slot} (hu : usesSlot insn k = true) :
    target i (insn.off k) ∈ succs i insn := by
  cases k with
  | ja =>
    have hj : isJa insn = true := hu
    simp [succs, isJa_not_ret hj, hj, Insn.off]
  | jt =>
    have hc : isCondJump insn = true := hu
    simp [succs, isCond_not_ret hc, isCond_not_ja hc, hc, Insn.off]
  | jf =>
    have hc : isCondJump insn = true := hu
    simp [succs, isCond_not_ret hc, isCond_not_ja hc, hc, Insn.off]

/-- A no-op leaves control at the next instruction. -/
theorem noop_succ {i : Nat} {insn : Insn}
    (h : (isJa insn = true ∧ insn.k = 0) ∨ isLdAbs insn = true) : succs i insn = [i + 1] := by
  rcases h with ⟨hj, hk⟩ | hld
  · simp [succs, isJa_not_ret hj, hj, hk, target]
  · obtain ⟨hr, hj, hc⟩ := isLdAbs_plain hld
    simp [succs, hr, hj, hc]

section Simulation

variable {insns : List Insn}

/-- Control that gets to `i` knowing `state` gets to each successor knowing what the table
says there. -/
theorem table_step (h : WellFormed insns) {holds : UInt16 → UInt32 → σ → Prop} {i t : Nat}
    {insn : Insn} {state : AState} {s : σ} (hi : insns[i]? = some insn)
    (hs : (sweep insns).2[i]? = some (some state)) (ht : t ∈ succs i insn)
    (ha : Agrees holds (transfer insn state) s) :
    ∃ state', (sweep insns).2[t]? = some (some state') ∧ Agrees holds state' s := by
  have hlt := (List.getElem?_eq_some_iff.mp hi).1
  obtain ⟨slot, hslot, hc⟩ :=
    (swept insns).flow i insn state hlt hi hs t ht (h.succs_inside hi t ht)
  obtain ⟨state', rfl, hst⟩ := hc.agrees ha
  exact ⟨state', hslot, hst⟩

/-- The run that reaches index `i` of the program goes on alike from the new position of
`i` in the program without the instructions that are not kept. -/
theorem from_removeUnkept (h : WellFormed insns) {M : Machine Insn Slot σ ε ρ}
    {holds : UInt16 → UInt32 → σ → Prop} (hM : Laws M holds) (c i : Nat)
    (hi : i + c = insns.length) (hc : 0 < c) (s : σ) (hr : Reach insns i) (state : AState)
    (hs : (sweep insns).2[i]? = some (some state)) (ha : Agrees holds state s) :
    from_ M (removeUnkept insns (keepMarks insns)) (newPos (keepMarks insns) i) s =
      from_ M insns i s := by
  induction c using Nat.strong_induction_on generalizing i s state with
  | _ c ih =>
    have hlt : i < insns.length := by omega
    obtain ⟨insn, hg⟩ : ∃ insn, insns[i]? = some insn := ⟨_, List.getElem?_eq_getElem hlt⟩
    have hop := h.opcodes insn (List.mem_of_getElem? hg)
    have later : ∀ t s', t ∈ succs i insn → Agrees holds (transfer insn state) s' →
        from_ M (removeUnkept insns (keepMarks insns)) (newPos (keepMarks insns) t) s' =
          from_ M insns t s' := by
      intro t s' ht ha'
      obtain ⟨state', hs', hst⟩ := table_step h hg hs ht ha'
      have hgt := succ_gt ht
      have htlt := h.succs_inside hg t ht
      exact ih (insns.length - t) (by omega) t (by omega) (by omega) s' (.step hr hg ht) state'
        hs' hst
    rcases kept_or_noop h hg hr with hk | ⟨hk, hnoop⟩
    · have hg' := removeUnkept_get (by simp) h.inside hg hk
      have hcode := renumber_code (keepMarks insns) i insn
      have hnext : newPos (keepMarks insns) (i + 1) = newPos (keepMarks insns) i + 1 :=
        newPos_succ hk
      have jump : ∀ k s', usesSlot insn k = true → M.act insn s = .ok (.jump k s') →
          M.act (renumber (keepMarks insns) i insn) s = .ok (.jump k s') →
          from_ M (removeUnkept insns (keepMarks insns)) (newPos (keepMarks insns) i) s =
            from_ M insns i s := by
        intro k s' hu hact hact'
        have htlt := h.inside i insn hg _ (mem_jumpTargets.mpr ⟨k, hu, rfl⟩)
        have ht := renumber_target hk hu (by simp; omega)
        have hend : target i (insn.off k) + (insns.length - target i (insn.off k)) ≤
            (keepMarks insns).length := by
          rw [keepMarks_length]
          omega
        have hgap := newPos_gap _ _ hend
        rw [Nat.add_sub_cancel' (Nat.le_of_lt htlt)] at hgap
        rw [from_jump hg hact (hM.tgt _ k) (Nat.le_of_lt htlt),
          from_jump hg' hact' (hM.tgt _ k)
            (by rw [ht, removeUnkept_length (by simp)]; exact hgap.1), ht]
        exact later _ s' (mem_succs_slot hu) (agrees_jump hM hop ha hact)
      cases hret : isRet insn with
      | true =>
        obtain ⟨r, hact⟩ := hM.ret insn s hret
        have hj : isJa insn = false := by
          cases hj : isJa insn with
          | false => rfl
          | true => exact absurd (isJa_not_ret hj) (by simp [hret])
        have hcj : isCondJump insn = false := by
          cases hcj : isCondJump insn with
          | false => rfl
          | true => exact absurd (isCond_not_ret hcj) (by simp [hret])
        rw [show renumber (keepMarks insns) i insn = insn by simp [renumber, hj, hcj]] at hg'
        rw [from_halt hg hact, from_halt hg' hact]
      | false =>
        cases hj : isJa insn with
        | true =>
          exact jump .ja s hj (hM.ja insn s hj) (hM.ja _ s (by rw [isJa_congr hcode, hj]))
        | false =>
          cases hcj : isCondJump insn with
          | true =>
            have hsame : M.act (renumber (keepMarks insns) i insn) s = M.act insn s := by
              simp only [renumber, hj, hcj, Bool.false_eq_true, if_false, if_true]
              exact hM.branches insn s _ _ hcj
            rcases hM.cond insn s hcj with ⟨e, hact⟩ | ⟨s', hact | hact⟩
            · rw [from_stop hg hact, from_stop hg' (hsame.trans hact)]
            · exact jump .jt s' hcj hact (hsame.trans hact)
            · exact jump .jf s' hcj hact (hsame.trans hact)
          | false =>
            rw [show renumber (keepMarks insns) i insn = insn by simp [renumber, hj, hcj]] at hg'
            rcases hM.plain insn s hret hj hcj with ⟨e, hact⟩ | ⟨s', hact⟩
            · rw [from_stop hg hact, from_stop hg' hact]
            · rw [from_next hg hact, from_next hg' hact, ← hnext]
              exact later _ s' (mem_succs_next hret hj hcj) (agrees_next hM hop ha hact)
    · have hsame : newPos (keepMarks insns) (i + 1) = newPos (keepMarks insns) i :=
        newPos_succ hk
      have hsucc : i + 1 ∈ succs i insn := by
        rw [noop_succ (hnoop.imp_right And.left)]
        exact List.mem_singleton_self _
      have hone := h.succs_inside hg _ hsucc
      rw [← hsame]
      rcases hnoop with ⟨hj, hk0⟩ | ⟨hld, hst⟩
      · have hact := hM.ja insn s hj
        have ht : target i (insn.off .ja) = i + 1 := by simp [Insn.off, hk0, target]
        rw [from_jump hg hact (hM.tgt _ .ja) (by rw [ht]; omega), ht]
        exact later _ s hsucc (agrees_jump hM hop ha hact)
      · rw [hs] at hst
        cases hst
        have hact := hM.redundant insn s hld ha
        rw [from_next hg hact]
        exact later _ s hsucc (agrees_next hM hop ha hact)

/-- Whatever the machine, the optimized program runs like the program it was made from. -/
theorem run_optimize (h : WellFormed insns) (hf : JaFits insns) {M : Machine Insn Slot σ ε ρ}
    {holds : UInt16 → UInt32 → σ → Prop} (hM : Laws M holds) (s : σ) :
    M.run (optimize insns) 0 s = M.run insns 0 s := by
  have hpos : 0 < insns.length := h.reach_inside .entry
  have hrem := from_removeUnkept h.threadJumps hM insns.length 0 (by simp) hpos s .entry
    .unknown ((swept _).entry (by simpa using hpos)) trivial
  have hthr := from_threadJumps h hf hM insns.length 0 (by omega) s
  rw [newPos_zero] at hrem
  exact hrem.trans hthr

/-- Every instruction of the optimized program is reachable. -/
theorem reach_removeUnkept (h : WellFormed insns) {i : Nat} (hr : Reach insns i) :
    Reach (removeUnkept insns (keepMarks insns)) (newPos (keepMarks insns) i) := by
  induction hr with
  | entry => rw [newPos_zero]; exact .entry
  | @step i t insn hr hg ht ih =>
    rcases kept_or_noop h hg hr with hk | ⟨hk, hnoop⟩
    · have hg' := removeUnkept_get (by simp) h.inside hg hk
      refine .step ih hg' ?_
      have hcode := renumber_code (keepMarks insns) i insn
      have slot : ∀ k, usesSlot insn k = true → t = target i (insn.off k) →
          newPos (keepMarks insns) t ∈
            succs (newPos (keepMarks insns) i) (renumber (keepMarks insns) i insn) := by
        rintro k hu rfl
        have htlt := h.inside i insn hg _ (mem_jumpTargets.mpr ⟨k, hu, rfl⟩)
        rw [← renumber_target hk hu (by simp; omega)]
        exact mem_succs_slot (by rw [usesSlot_congr hcode, hu])
      cases hret : isRet insn with
      | true => simp [succs, hret] at ht
      | false =>
        cases hj : isJa insn with
        | true =>
          simp only [succs, hret, hj, Bool.false_eq_true, if_false, if_true,
            List.mem_singleton] at ht
          exact slot .ja hj ht
        | false =>
          cases hcj : isCondJump insn with
          | true =>
            simp only [succs, hret, hj, hcj, Bool.false_eq_true, if_false, if_true, List.mem_cons,
              List.not_mem_nil, or_false] at ht
            rcases ht with ht | ht
            · exact slot .jt hcj ht
            · exact slot .jf hcj ht
          | false =>
            simp only [succs, hret, hj, hcj, Bool.false_eq_true, if_false,
              List.mem_singleton] at ht
            subst ht
            rw [newPos_succ hk]
            exact mem_succs_next (by rw [isRet_congr hcode, hret])
              (by rw [isJa_congr hcode, hj]) (by rw [isCondJump_congr hcode, hcj])
    · rw [noop_succ (hnoop.imp_right And.left), List.mem_singleton] at ht
      subst ht
      rw [newPos_succ hk]
      exact ih

/-- Control that can get to `i` ends up at an instruction that is kept. -/
theorem reach_newPos_lt (h : WellFormed insns) (c i : Nat) (hi : i + c = insns.length)
    (hr : Reach insns i) :
    newPos (keepMarks insns) i < (removeUnkept insns (keepMarks insns)).length := by
  induction c generalizing i with
  | zero =>
    have := h.reach_inside hr
    omega
  | succ c ih =>
    have hlt := h.reach_inside hr
    have hg : insns[i]? = some insns[i] := List.getElem?_eq_getElem hlt
    rcases kept_or_noop h hg hr with hk | ⟨hk, hnoop⟩
    · have hg' := removeUnkept_get (by simp) h.inside hg hk
      exact (List.getElem?_eq_some_iff.mp hg').1
    · have hnext := ih (i + 1) (by omega) (.step hr hg (by
        rw [noop_succ (hnoop.imp_right And.left)]
        exact List.mem_singleton_self _))
      rwa [newPos_succ hk] at hnext

theorem kept_reach (h : WellFormed insns) {i : Nat} {insn : Insn} (hi : insns[i]? = some insn)
    (hk : (keepMarks insns)[i]? = some true) : Reach insns i := by
  rw [keepMarks_get hi] at hk
  refine (reachableMarks_iff h i).mp ?_
  simp only [Option.some.injEq, Bool.and_eq_true, beq_iff_eq] at hk
  exact hk.1.1

theorem WellFormed.removeUnkept (h : WellFormed insns) :
    WellFormed (removeUnkept insns (keepMarks insns)) where
  opcodes := by
    intro insn' hm
    obtain ⟨j, hj⟩ := List.mem_iff_getElem?.mp hm
    obtain ⟨i, insn, hi, hk, rfl⟩ := removeUnkept_origin (by simp)
      (List.getElem?_eq_some_iff.mp hj).1
    rw [removeUnkept_get (by simp) h.inside hi hk, Option.some.injEq] at hj
    rw [← hj, renumber_code]
    exact h.opcodes insn (List.mem_of_getElem? hi)
  ret := by
    have hpos := reach_newPos_lt h insns.length 0 (by omega) .entry
    rw [newPos_zero] at hpos
    have hlast : (PktBaffle.Optimizer.removeUnkept insns (keepMarks insns)).length - 1 <
        (PktBaffle.Optimizer.removeUnkept insns (keepMarks insns)).length := by omega
    obtain ⟨i, insn, hi, hk, hpos'⟩ := removeUnkept_origin (by simp) hlast
    refine ⟨renumber (keepMarks insns) i insn, ?_, ?_⟩
    · rw [List.getLast?_eq_getElem?, ← hpos']
      exact removeUnkept_get (by simp) h.inside hi hk
    · rw [isRet_congr (renumber_code _ _ _)]
      by_contra hnr
      have hreach := kept_reach h hi hk
      have hsucc : ∃ t, t ∈ succs i insn := by
        have hr : isRet insn = false := by simpa using hnr
        cases hj : isJa insn with
        | true => exact ⟨_, mem_succs_slot (k := .ja) hj⟩
        | false =>
          cases hc : isCondJump insn with
          | true => exact ⟨_, mem_succs_slot (k := .jt) hc⟩
          | false => exact ⟨_, mem_succs_next hr hj hc⟩
      obtain ⟨t, ht⟩ := hsucc
      have hit := succ_gt ht
      have htlt := h.succs_inside hi t ht
      have hnt := reach_newPos_lt h (insns.length - t) t (by omega) (.step hreach hi ht)
      have hend : i + 1 + (t - (i + 1)) ≤ (keepMarks insns).length := by
        rw [keepMarks_length]
        omega
      have hgap := newPos_gap _ _ hend
      rw [newPos_succ hk, Nat.add_sub_cancel' hit] at hgap
      simp only [Bool.toNat_true] at hgap
      omega
  inside := by
    intro j insn' hj t ht
    obtain ⟨i, insn, hi, hk, rfl⟩ := removeUnkept_origin (by simp)
      (List.getElem?_eq_some_iff.mp hj).1
    rw [removeUnkept_get (by simp) h.inside hi hk, Option.some.injEq] at hj
    obtain ⟨k, hu, rfl⟩ := mem_jumpTargets.mp ht
    rw [← hj, usesSlot_congr (renumber_code _ _ _)] at hu
    have hti := h.inside i insn hi _ (mem_jumpTargets.mpr ⟨k, hu, rfl⟩)
    rw [← hj, renumber_target hk hu (by simp; omega)]
    exact reach_newPos_lt h (insns.length - target i (insn.off k)) _ (by omega)
      (.step (kept_reach h hi hk) hi (mem_succs_slot hu))

theorem WellFormed.optimize (h : WellFormed insns) : WellFormed (optimize insns) :=
  h.threadJumps.removeUnkept

/-- Every instruction of the optimized program is reachable. -/
theorem reach_optimize (h : WellFormed insns) {j : Nat} (hj : j < (optimize insns).length) :
    Reach (optimize insns) j := by
  obtain ⟨i, insn, hi, hk, rfl⟩ := removeUnkept_origin (by simp) hj
  exact reach_removeUnkept h.threadJumps (kept_reach h.threadJumps hi hk)

/-- The place an instruction of the program moves to. -/
def position (insns : List Insn) (i : Nat) : Nat := newPos (keepMarks (threadJumps insns)) i

/-- `u` is where control that jumps to `t` gets to through nothing but unconditional jumps. -/
def Leads (insns : List Insn) (t u : Nat) : Prop := u = t ∨ JaPath insns t u

/-- The instruction at `j` of `out` is the one at `i` of `insns`, with the displacement in
slot `k` the distance to the place of the instruction it leads to. -/
structure Exact (insns out : List Insn) (j : Nat) (insn' : Insn) (i : Nat) (insn : Insn) :
    Prop where
  origin : insns[i]? = some insn
  place : position insns i = j
  code : insn'.code = insn.code
  branches : ∀ k, k ≠ .ja → usesSlot insn k = true →
    ∃ u, Leads insns (target i (insn.off k)) u ∧ target j (insn'.off k) = position insns u

theorem optimize_exact (h : WellFormed insns) {j : Nat} {insn' : Insn}
    (hj : (optimize insns)[j]? = some insn') :
    ∃ i insn, Exact insns (optimize insns) j insn' i insn := by
  obtain ⟨i, th, hth, hk, rfl⟩ := removeUnkept_origin (by simp)
    (List.getElem?_eq_some_iff.mp hj).1
  have hlt : i < insns.length := by
    have := (List.getElem?_eq_some_iff.mp hth).1
    simpa using this
  have hi : insns[i]? = some insns[i] := List.getElem?_eq_getElem hlt
  have hth' := threadJumps_get hi
  rw [hth, Option.some.injEq] at hth'
  subst hth'
  have hcode := threadInsn_code (finTable insns) i insns[i]
  have hget := removeUnkept_get (by simp) h.threadJumps.inside hth hk
  rw [PktBaffle.Optimizer.optimize, hget, Option.some.injEq] at hj
  subst hj
  refine ⟨i, insns[i], hi, rfl, by rw [renumber_code, hcode], fun k hk' hu => ?_⟩
  have hu' : usesSlot (threadInsn (finTable insns) i insns[i]) k = true := by
    rw [usesSlot_congr hcode, hu]
  have hin := h.threadJumps.inside i _ hth _ (mem_jumpTargets.mpr ⟨k, hu', rfl⟩)
  refine ⟨target i ((threadInsn (finTable insns) i insns[i]).off k), ?_,
    renumber_target hk hu' (by rw [keepMarks_length]; omega)⟩
  have hc : isCondJump insns[i] = true := by
    cases k with
    | ja => exact absurd rfl hk'
    | jt => exact hu
    | jf => exact hu
  obtain ⟨htlt, he | he⟩ := threadInsn_branch h hi hc k hk'
  · exact .inl he
  · obtain ⟨_, _, hpath, _⟩ := finalTarget_sound (σ := Unit) (ε := Unit) (ρ := Unit) h
      (insns.length - target i (insns[i].off k)) (target i (insns[i].off k)) (by omega) (by omega)
    rw [he]
    exact hpath

end Simulation

/-- The accumulator holds what the absolute load with this `(code, k)` gives. -/
def loaded (pkt : Vm.Packet) (code : UInt16) (k : UInt32) (s : Vm.Regs) : Prop :=
  Vm.sizedLoad pkt k (code &&& 0x18) = some s.a

theorem isLdAbs_mode {insn : Insn} (h : isLdAbs insn = true) : insn.code &&& 0xe0 = bpfAbs := by
  simp only [isLdAbs, beq_iff_eq] at h
  have hm : insn.code &&& 0xe0 = insn.code &&& 0xe7 &&& 0xe0 := by
    rw [UInt16.and_assoc]
    rfl
  rw [hm, h]
  rfl

theorem act_ldAbs (pkt : Vm.Packet) {insn : Insn} (h : isLdAbs insn = true) (s : Vm.Regs) :
    Vm.act pkt insn s = (Vm.orStop .packetLoad (Vm.sizedLoad pkt insn.k (insn.code &&& 0x18))).map
      (fun v => .next { s with a := v }) := by
  simp only [Vm.act, isLdAbs_class h, if_true, Vm.loadA, isLdAbs_mode h]

theorem map_next_eq {α : Type} {r : Except Vm.Stop α} {f : α → Vm.Regs} {s : Vm.Regs}
    (h : r.map (fun v => (Move.next (f v) : Move Slot Vm.Regs Bool)) = .ok (.next s)) :
    ∃ v, r = .ok v ∧ f v = s := by
  cases r with
  | error e => cases h
  | ok v =>
    refine ⟨v, rfl, ?_⟩
    simpa [Except.map] using h

theorem map_next_cases {α : Type} (r : Except Vm.Stop α) (f : α → Vm.Regs) :
    (∃ e, r.map (fun v => (Move.next (f v) : Move Slot Vm.Regs Bool)) = .error e) ∨
      ∃ s, r.map (fun v => (Move.next (f v) : Move Slot Vm.Regs Bool)) = .ok (.next s) := by
  cases r with
  | error e => exact .inl ⟨e, rfl⟩
  | ok v => exact .inr ⟨f v, rfl⟩

theorem store_a {s s' : Vm.Regs} {i v : UInt32} (h : Vm.store s i v = .ok s') : s'.a = s.a := by
  unfold Vm.store at h
  split at h
  · cases h
    rfl
  · cases h

theorem opcodes_misc : opcodes.all (fun c => c &&& 0x07 != bpfMisc || c &&& 0xf8 == bpfTxa ||
    c &&& 0x80 == 0) = true := by
  decide

/-- An instruction that does not write the accumulator leaves it alone. -/
theorem act_keeps_a (pkt : Vm.Packet) {insn : Insn} {s s' : Vm.Regs} (ho : insn.code ∈ opcodes)
    (hw : writesA insn = false) (ha : Vm.act pkt insn s = .ok (.next s')) : s'.a = s.a := by
  simp only [writesA, Bool.or_eq_false_iff, Bool.and_eq_false_iff, beq_eq_false_iff_ne] at hw
  obtain ⟨⟨hld, halu⟩, hmisc⟩ := hw
  unfold Vm.act at ha
  simp only [hld, halu, if_false] at ha
  split at ha
  · obtain ⟨v, _, rfl⟩ := map_next_eq ha
    rfl
  · split at ha
    · obtain ⟨v, hst, rfl⟩ := map_next_eq (f := id) ha
      exact store_a hst
    · split at ha
      · obtain ⟨v, hst, rfl⟩ := map_next_eq (f := id) ha
        exact store_a hst
      · split at ha
        · split at ha
          · cases ha
          · cases ht : Vm.taken (insn.code &&& 0xf0) s.a (if Vm.usesX insn then s.x else insn.k) with
            | error e => simp [ht, Except.map] at ha
            | ok b => simp [ht, Except.map] at ha
        · split at ha
          · cases ha
          · split at ha
            · rename_i hcls
              have h80 : insn.code &&& 0x80 = 0 := by
                have hall := List.all_eq_true.mp opcodes_misc insn.code ho
                simp only [hcls, bne_self_eq_false, Bool.false_or, Bool.or_eq_true,
                  beq_iff_eq] at hall
                rcases hmisc with h | h
                · exact absurd hcls h
                · exact hall.resolve_left h
              simp only [h80, ne_eq, not_true_eq_false, if_false, Except.ok.injEq,
                Move.next.injEq] at ha
              rw [← ha]
            · cases ha

/-- A jump leaves the registers alone. -/
theorem act_jump_same (pkt : Vm.Packet) {insn : Insn} {s s' : Vm.Regs} {k : Slot}
    (ha : Vm.act pkt insn s = .ok (.jump k s')) : s' = s := by
  unfold Vm.act at ha
  dsimp only at ha
  have nonext : ∀ {α : Type} (r : Except Vm.Stop α) (f : α → Vm.Regs),
      r.map (fun v => (Move.next (f v) : Move Slot Vm.Regs Bool)) ≠ .ok (.jump k s') := by
    intro α r f h
    cases r <;> simp [Except.map] at h
  split at ha
  · exact absurd ha (nonext _ _)
  · split at ha
    · exact absurd ha (nonext _ _)
    · split at ha
      · exact absurd ha (nonext _ id)
      · split at ha
        · exact absurd ha (nonext _ id)
        · split at ha
          · exact absurd ha (nonext _ _)
          · split at ha
            · split at ha
              · cases ha
                rfl
              · cases ht : Vm.taken (insn.code &&& 0xf0) s.a
                  (if Vm.usesX insn then s.x else insn.k) with
                | error e => simp [ht, Except.map] at ha
                | ok b =>
                  simp only [ht, Except.map, Except.ok.injEq, Move.jump.injEq] at ha
                  exact ha.2.symm
            · split at ha
              · cases ha
              · split at ha
                · cases ha
                · cases ha

theorem vm_laws (pkt : Vm.Packet) : Laws (Vm.machine pkt) (loaded pkt) where
  tgt _ _ := rfl
  ja i s h := by
    simp only [isJa, Bool.and_eq_true, beq_iff_eq] at h
    show Vm.act pkt i s = _
    simp only [Vm.act, h.1, h.2]
    rfl
  cond i s h := by
    simp only [isCondJump, Bool.and_eq_true, beq_iff_eq, bne_iff_ne] at h
    have hact : Vm.act pkt i s = (Vm.taken (i.code &&& 0xf0) s.a
        (if Vm.usesX i then s.x else i.k)).map
          (fun b => .jump (if b then .jt else .jf) s) := by
      simp only [Vm.act, h.1, h.2, if_false]
      rfl
    show (∃ e, Vm.act pkt i s = _) ∨ ∃ s', Vm.act pkt i s = _ ∨ Vm.act pkt i s = _
    rw [hact]
    cases Vm.taken (i.code &&& 0xf0) s.a (if Vm.usesX i then s.x else i.k) with
    | error e => exact .inl ⟨e, rfl⟩
    | ok b =>
      cases b with
      | true => exact .inr ⟨s, .inl rfl⟩
      | false => exact .inr ⟨s, .inr rfl⟩
  ret i s h := by
    simp only [isRet, beq_iff_eq] at h
    show ∃ r, Vm.act pkt i s = _
    simp only [Vm.act, h]
    exact ⟨_, rfl⟩
  plain i s hr hj hc := by
    show (∃ e, Vm.act pkt i s = _) ∨ ∃ s', Vm.act pkt i s = _
    have hjmp : ¬ i.code &&& 0x07 = bpfJmp := by
      intro h
      by_cases ha : i.code &&& 0xf0 = bpfJa
      · simp [isJa, h, ha] at hj
      · simp [isCondJump, h, ha] at hc
    have hret : ¬ i.code &&& 0x07 = bpfRet := by simpa [isRet] using hr
    unfold Vm.act
    simp only [hjmp, hret, if_false]
    split
    · exact map_next_cases _ _
    · split
      · exact map_next_cases _ _
      · split
        · exact map_next_cases _ id
        · split
          · exact map_next_cases _ id
          · split
            · exact map_next_cases _ _
            · split
              · exact .inr ⟨_, rfl⟩
              · exact .inl ⟨_, rfl⟩
  branches _ _ _ _ _ := rfl
  load i s s' h ha := by
    have ha' : Vm.act pkt i s = _ := ha
    rw [act_ldAbs pkt h] at ha'
    obtain ⟨v, hv, rfl⟩ := map_next_eq ha'
    unfold loaded
    cases hl : Vm.sizedLoad pkt i.k (i.code &&& 0x18) with
    | none => simp [hl, Vm.orStop] at hv
    | some w =>
      simp only [hl, Vm.orStop, Except.ok.injEq] at hv
      rw [hv]
  redundant i s h hl := by
    show Vm.act pkt i s = _
    rw [act_ldAbs pkt h, show Vm.sizedLoad pkt i.k (i.code &&& 0x18) = some s.a from hl]
    rfl
  keepsNext i s s' c k ho hw ha hl := by
    unfold loaded at hl ⊢
    rw [act_keeps_a pkt ho hw ha, hl]
  keepsJump i s s' j c k _ _ ha hl := by
    rw [act_jump_same pkt ha]
    exact hl

end PktBaffle.Proofs.Optimizer
