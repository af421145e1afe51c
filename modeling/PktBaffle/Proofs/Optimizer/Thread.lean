import PktBaffle.Optimizer
import PktBaffle.Forward.Machine

namespace PktBaffle.Proofs.Optimizer
open Bpf Forward PktBaffle.Optimizer

variable {σ ε ρ : Type}

/-- What the passes rely on: nothing but the control flow of the four kinds of
instruction, and that an absolute load leaves behind a value which makes the same load
a no-op until the accumulator is written again. -/
structure Laws (M : Machine Insn Slot σ ε ρ) (holds : UInt16 → UInt32 → σ → Prop) : Prop where
  tgt : ∀ i k, M.tgt i k = .skip (i.off k)
  ja : ∀ i s, isJa i = true → M.act i s = .ok (.jump .ja s)
  cond : ∀ i s, isCondJump i = true → (∃ e, M.act i s = .error e) ∨
    ∃ s', M.act i s = .ok (.jump .jt s') ∨ M.act i s = .ok (.jump .jf s')
  ret : ∀ i s, isRet i = true → ∃ r, M.act i s = .ok (.halt r)
  plain : ∀ i s, isRet i = false → isJa i = false → isCondJump i = false →
    (∃ e, M.act i s = .error e) ∨ ∃ s', M.act i s = .ok (.next s')
  branches : ∀ i s jt jf, isCondJump i = true → M.act { i with jt := jt, jf := jf } s = M.act i s
  load : ∀ i s s', isLdAbs i = true → M.act i s = .ok (.next s') → holds i.code i.k s'
  redundant : ∀ i s, isLdAbs i = true → holds i.code i.k s → M.act i s = .ok (.next s)
  keepsNext : ∀ i s s' c k, i.code ∈ opcodes → writesA i = false →
    M.act i s = .ok (.next s') → holds c k s → holds c k s'
  keepsJump : ∀ i s s' j c k, i.code ∈ opcodes → writesA i = false →
    M.act i s = .ok (.jump j s') → holds c k s → holds c k s'

/-- The run that starts at index `i`. -/
def from_ (M : Machine Insn Slot σ ε ρ) (insns : List Insn) (i : Nat) (s : σ) : Result ε σ ρ :=
  M.run (insns.drop i) 0 s

theorem drop_cons {insns : List Insn} {i : Nat} {insn : Insn} (h : insns[i]? = some insn) :
    insns.drop i = insn :: insns.drop (i + 1) := by
  obtain ⟨hi, he⟩ := List.getElem?_eq_some_iff.mp h
  rw [List.drop_eq_getElem_cons hi, he]

section Step

variable {M : Machine Insn Slot σ ε ρ} {insns : List Insn} {i : Nat} {insn : Insn} {s s' : σ}

theorem from_next (h : insns[i]? = some insn) (ha : M.act insn s = .ok (.next s')) :
    from_ M insns i s = from_ M insns (i + 1) s' := by
  rw [from_, drop_cons h, Machine.run_next ha, from_]

theorem from_halt {r : ρ} (h : insns[i]? = some insn) (ha : M.act insn s = .ok (.halt r)) :
    from_ M insns i s = .halt r := by
  rw [from_, drop_cons h, Machine.run_halt ha]

theorem from_stop {e : ε} (h : insns[i]? = some insn) (ha : M.act insn s = .error e) :
    from_ M insns i s = .stop e := by
  rw [from_, drop_cons h, Machine.run_stop ha]

theorem from_jump {k : Slot} (h : insns[i]? = some insn) (ha : M.act insn s = .ok (.jump k s'))
    (ht : M.tgt insn k = .skip (insn.off k)) (hle : target i (insn.off k) ≤ insns.length) :
    from_ M insns i s = from_ M insns (target i (insn.off k)) s' := by
  have hn : insn.off k ≤ (insns.drop (i + 1)).length := by
    rw [List.length_drop]
    unfold target at hle
    omega
  rw [from_, drop_cons h, Machine.run_jump ha ht, M.run_drop _ _ _ hn, List.drop_drop, from_]
  rfl

end Step

/-- The jump targets of an instruction at index `i`. -/
def jumpTargets (i : Nat) (insn : Insn) : List Nat :=
  if isJa insn then [target i insn.k.toNat]
  else if isCondJump insn then [target i insn.jt.toNat, target i insn.jf.toNat]
  else []

/-- A program of known opcodes that ends with a return and whose jumps stay inside it. -/
structure WellFormed (insns : List Insn) : Prop where
  opcodes : ∀ insn ∈ insns, insn.code ∈ Bpf.opcodes
  ret : ∃ insn, insns.getLast? = some insn ∧ isRet insn = true
  inside : ∀ i insn, insns[i]? = some insn → ∀ t ∈ jumpTargets i insn, t < insns.length

/-- `t` is reached from the `ja` at `i` through `ja` instructions only. -/
inductive JaPath (insns : List Insn) : Nat → Nat → Prop where
  | one (i : Nat) (insn : Insn) (h : insns[i]? = some insn) (hj : isJa insn = true) :
      JaPath insns i (target i insn.k.toNat)
  | step (i : Nat) (insn : Insn) (t : Nat) (h : insns[i]? = some insn) (hj : isJa insn = true)
      (ht : JaPath insns (target i insn.k.toNat) t) : JaPath insns i t

/-- No chain of unconditional jumps is longer than the `k` of one of them can say. -/
def JaFits (insns : List Insn) : Prop := ∀ i t, JaPath insns i t → t - i - 1 < 2 ^ 32

theorem isJa_not_cond {insn : Insn} (h : isJa insn = true) : isCondJump insn = false := by
  simp only [isJa, Bool.and_eq_true, beq_iff_eq] at h
  simp [isCondJump, h.2]

theorem isJa_not_ret {insn : Insn} (h : isJa insn = true) : isRet insn = false := by
  simp only [isJa, Bool.and_eq_true, beq_iff_eq] at h
  simp only [isRet, h.1]
  decide

theorem isCond_not_ja {insn : Insn} (h : isCondJump insn = true) : isJa insn = false := by
  simp only [isCondJump, Bool.and_eq_true, bne_iff_ne] at h
  simp [isJa, h.2]

theorem isCond_not_ret {insn : Insn} (h : isCondJump insn = true) : isRet insn = false := by
  simp only [isCondJump, Bool.and_eq_true, beq_iff_eq] at h
  simp only [isRet, h.1]
  decide

theorem WellFormed.next_inside {insns : List Insn} (h : WellFormed insns) {i : Nat} {insn : Insn}
    (hi : insns[i]? = some insn) (hr : isRet insn = false) : i + 1 < insns.length := by
  obtain ⟨last, hl, hlr⟩ := h.ret
  obtain ⟨hlt, he⟩ := List.getElem?_eq_some_iff.mp hi
  rcases Nat.lt_or_ge (i + 1) insns.length with hlt' | hge
  · exact hlt'
  · have hlast : insns.length - 1 = i := by omega
    rw [List.getLast?_eq_getElem?, hlast, hi] at hl
    cases hl
    rw [hr] at hlr
    cases hlr

theorem WellFormed.succs_inside {insns : List Insn} (h : WellFormed insns) {i : Nat} {insn : Insn}
    (hi : insns[i]? = some insn) : ∀ t ∈ succs i insn, t < insns.length := by
  intro t ht
  unfold succs at ht
  cases hr : isRet insn with
  | true => simp [hr] at ht
  | false =>
    have hj := h.inside i insn hi t
    unfold jumpTargets at hj
    cases hja : isJa insn with
    | true => exact hj (by simpa [hr, hja] using ht)
    | false =>
      cases hc : isCondJump insn with
      | true => exact hj (by simpa [hr, hja, hc] using ht)
      | false =>
        have he : t = i + 1 := by simpa [hr, hja, hc] using ht
        exact he ▸ h.next_inside hi hr

theorem succ_gt {i t : Nat} {insn : Insn} (h : t ∈ succs i insn) : i < t := by
  unfold succs target at h
  split at h
  · simp at h
  · split at h
    · have : t = i + 1 + insn.k.toNat := by simpa using h
      omega
    · split at h
      · have : t = i + 1 + insn.jt.toNat ∨ t = i + 1 + insn.jf.toNat := by simpa using h
        omega
      · have : t = i + 1 := by simpa using h
        omega

/-- What `fin[i]` has to be, read off the finished table. -/
def FinSpec (insns : List Insn) (fin : List Nat) (i : Nat) : Prop :=
  ∀ insn, insns[i]? = some insn → fin[i]? =
    some (if isJa insn then finalTarget fin (target i insn.k.toNat) else i)

theorem finStep_length (insns : List Insn) (fin : List Nat) (i : Nat) :
    (finStep insns fin i).length = fin.length := by
  unfold finStep
  split
  · split <;> simp
  · rfl

theorem finStep_other (insns : List Insn) (fin : List Nat) {i j : Nat} (h : j ≠ i) :
    (finStep insns fin i)[j]? = fin[j]? := by
  unfold finStep
  split
  · split
    · rw [List.getElem?_set]
      simp [Ne.symm h]
    · rfl
  · rfl

/-- Filling the table from the back: entries from `m` on are final, entries before it
still point at themselves. -/
theorem fin_loop (insns : List Insn) (c m : Nat) (h : m + c = insns.length) :
    let fin := (List.range' m c).foldr (fun i fin => finStep insns fin i) (List.range insns.length)
    fin.length = insns.length ∧ (∀ j, j < m → fin[j]? = some j) ∧
      ∀ j, m ≤ j → FinSpec insns fin j := by
  induction c generalizing m with
  | zero =>
    refine ⟨by simp, fun j hj => ?_, fun j hj insn hi => ?_⟩
    · have : j < insns.length := by omega
      simp [this]
    · have := (List.getElem?_eq_some_iff.mp hi).1
      omega
  | succ c ih =>
    obtain ⟨hlen, hlow, hhigh⟩ := ih (m + 1) (by omega)
    simp only [List.range'_succ, List.foldr_cons]
    set fin := (List.range' (m + 1) c).foldr (fun i fin => finStep insns fin i)
      (List.range insns.length) with hfin
    have hfinal : ∀ t, m < t → finalTarget (finStep insns fin m) t = finalTarget fin t := by
      intro t ht
      rw [finalTarget, finStep_other insns fin (by omega), finalTarget]
    refine ⟨by rw [finStep_length, hlen], fun j hj => ?_, fun j hj insn hi => ?_⟩
    · rw [finStep_other insns fin (by omega)]
      exact hlow j (by omega)
    · have htgt : m < target j insn.k.toNat := by unfold target; omega
      rw [hfinal _ htgt]
      rcases Nat.eq_or_lt_of_le hj with rfl | hlt
      · have hml : m < fin.length := by rw [hlen]; exact (List.getElem?_eq_some_iff.mp hi).1
        cases hja : isJa insn with
        | true => simp [finStep, hi, hja, hml]
        | false => simpa [finStep, hi, hja] using hlow m (by omega)
      · rw [finStep_other insns fin (by omega)]
        exact hhigh j (by omega) insn hi

theorem finTable_spec (insns : List Insn) (i : Nat) : FinSpec insns (finTable insns) i := by
  have h := fin_loop insns insns.length 0 (by omega)
  have he : finTable insns = (List.range' 0 insns.length).foldr
      (fun i fin => finStep insns fin i) (List.range insns.length) := by
    rw [finTable, List.foldl_reverse, ← List.range_eq_range']
  rw [he]
  exact h.2.2 i (Nat.zero_le i)

theorem finTable_length (insns : List Insn) : (finTable insns).length = insns.length := by
  have h := fin_loop insns insns.length 0 (by omega)
  have he : finTable insns = (List.range' 0 insns.length).foldr
      (fun i fin => finStep insns fin i) (List.range insns.length) := by
    rw [finTable, List.foldl_reverse, ← List.range_eq_range']
  rw [he]
  exact h.1

theorem finalTarget_ja {insns : List Insn} {i : Nat} {insn : Insn} (h : insns[i]? = some insn)
    (hj : isJa insn = true) : finalTarget (finTable insns) i =
      finalTarget (finTable insns) (target i insn.k.toNat) := by
  have hs := finTable_spec insns i insn h
  rw [finalTarget, hs]
  simp [hj]

theorem finalTarget_other {insns : List Insn} {i : Nat} {insn : Insn} (h : insns[i]? = some insn)
    (hj : isJa insn = false) : finalTarget (finTable insns) i = i := by
  have hs := finTable_spec insns i insn h
  rw [finalTarget, hs]
  simp [hj]

/-- The final target lies at or behind the index it is the target of, inside the program,
and is where a run from that index gets to without changing the state. -/
theorem finalTarget_sound {insns : List Insn} (h : WellFormed insns) (c i : Nat)
    (hi : i + c = insns.length) (hc : 0 < c) :
    i ≤ finalTarget (finTable insns) i ∧ finalTarget (finTable insns) i < insns.length ∧
      (finalTarget (finTable insns) i = i ∨ JaPath insns i (finalTarget (finTable insns) i)) ∧
      ∀ (M : Machine Insn Slot σ ε ρ) (holds : UInt16 → UInt32 → σ → Prop), Laws M holds → ∀ s,
        from_ M insns (finalTarget (finTable insns) i) s = from_ M insns i s := by
  induction c using Nat.strong_induction_on generalizing i with
  | _ c ih =>
    have hlt : i < insns.length := by omega
    obtain ⟨insn, hg⟩ : ∃ insn, insns[i]? = some insn := ⟨_, List.getElem?_eq_getElem hlt⟩
    cases hj : isJa insn with
    | false =>
      rw [finalTarget_other hg hj]
      exact ⟨Nat.le_refl i, hlt, .inl rfl, fun _ _ _ _ => rfl⟩
    | true =>
      have htlt : target i insn.k.toNat < insns.length :=
        h.inside i insn hg _ (by simp [jumpTargets, hj])
      have hti : i < target i insn.k.toNat := by unfold target; omega
      obtain ⟨hle, hin, hpath, hrun⟩ :=
        ih (insns.length - target i insn.k.toNat) (by omega) (target i insn.k.toNat)
          (by omega) (by omega)
      rw [finalTarget_ja hg hj]
      refine ⟨by omega, hin, .inr ?_, ?_⟩
      · rcases hpath with he | hp
        · rw [he]
          exact .one i insn hg hj
        · exact .step i insn _ hg hj hp
      · intro M holds hM s
        rw [hrun M holds hM s]
        exact (from_jump hg (hM.ja insn s hj) (hM.tgt insn .ja) (Nat.le_of_lt htlt)).symm

theorem threadJumps_get {insns : List Insn} {i : Nat} {insn : Insn} (h : insns[i]? = some insn) :
    (threadJumps insns)[i]? = some (threadInsn (finTable insns) i insn) := by
  simp [threadJumps, h]

@[simp] theorem threadJumps_length (insns : List Insn) :
    (threadJumps insns).length = insns.length := by
  simp [threadJumps]

theorem threadInsn_code (fin : List Nat) (i : Nat) (insn : Insn) :
    (threadInsn fin i insn).code = insn.code := by
  unfold threadInsn
  split
  · rfl
  · split <;> rfl

theorem isJa_congr {a b : Insn} (h : a.code = b.code) : isJa a = isJa b := by
  simp [isJa, h]

theorem isCondJump_congr {a b : Insn} (h : a.code = b.code) : isCondJump a = isCondJump b := by
  simp [isCondJump, h]

theorem isRet_congr {a b : Insn} (h : a.code = b.code) : isRet a = isRet b := by
  simp [isRet, h]

/-- Where a branch of a threaded conditional jump leads: to its old target or to the final
target of that. -/
theorem narrow_target (fin : List Nat) (i : Nat) (old : UInt8)
    (hle : target i old.toNat ≤ finalTarget fin (target i old.toNat)) :
    target i (narrow (threadDist fin i (target i old.toNat)) old).toNat = target i old.toNat ∨
    target i (narrow (threadDist fin i (target i old.toNat)) old).toNat =
      finalTarget fin (target i old.toNat) := by
  unfold narrow
  split
  · rename_i hd
    right
    unfold threadDist at hd ⊢
    have hmod : finalTarget fin (target i old.toNat) - i - 1 < 256 := by omega
    rw [UInt8.toNat_ofNat', Nat.mod_eq_of_lt (by omega)]
    unfold target at hle ⊢
    omega
  · exact .inl rfl

/-- Where a threaded `ja` leads. -/
theorem threadInsn_ja {insns : List Insn} (h : WellFormed insns) (hf : JaFits insns) {i : Nat}
    {insn : Insn} (hi : insns[i]? = some insn) (hj : isJa insn = true) :
    target i (threadInsn (finTable insns) i insn).k.toNat = finalTarget (finTable insns) i := by
  have hlt := (List.getElem?_eq_some_iff.mp hi).1
  have htlt : target i insn.k.toNat < insns.length :=
    h.inside i insn hi _ (by simp [jumpTargets, hj])
  obtain ⟨hle, _, _, _⟩ := finalTarget_sound (σ := Unit) (ε := Unit) (ρ := Unit) h
    (insns.length - target i insn.k.toNat) (target i insn.k.toNat) (by omega) (by omega)
  obtain ⟨_, _, hpath, _⟩ := finalTarget_sound (σ := Unit) (ε := Unit) (ρ := Unit) h
    (insns.length - i) i (by omega) (by omega)
  rw [finalTarget_ja hi hj] at hpath ⊢
  have hti : i < target i insn.k.toNat := by unfold target; omega
  have hfit : threadDist (finTable insns) i (target i insn.k.toNat) < 2 ^ 32 := by
    rcases hpath with he | hp
    · omega
    · exact hf i _ hp
  simp only [threadInsn, hj, if_true]
  rw [UInt32.toNat_ofNat', Nat.mod_eq_of_lt hfit]
  unfold threadDist
  unfold target at hle hti ⊢
  omega

theorem threadInsn_jt (fin : List Nat) (i : Nat) {insn : Insn} (h : isCondJump insn = true) :
    (threadInsn fin i insn).jt = narrow (threadDist fin i (target i insn.jt.toNat)) insn.jt := by
  simp [threadInsn, h, isCond_not_ja h]

theorem threadInsn_jf (fin : List Nat) (i : Nat) {insn : Insn} (h : isCondJump insn = true) :
    (threadInsn fin i insn).jf = narrow (threadDist fin i (target i insn.jf.toNat)) insn.jf := by
  simp [threadInsn, h, isCond_not_ja h]

section Threaded

variable {insns : List Insn}

/-- What `finalTarget_sound` says of an index, without a machine. -/
theorem WellFormed.finalTarget_bounds (h : WellFormed insns) {t : Nat} (ht : t < insns.length) :
    t ≤ finalTarget (finTable insns) t ∧ finalTarget (finTable insns) t < insns.length := by
  obtain ⟨hle, hlt, _, _⟩ := finalTarget_sound (σ := Unit) (ε := Unit) (ρ := Unit) h
    (insns.length - t) t (by omega) (by omega)
  exact ⟨hle, hlt⟩

theorem from_finalTarget (h : WellFormed insns) {M : Machine Insn Slot σ ε ρ}
    {holds : UInt16 → UInt32 → σ → Prop} (hM : Laws M holds) {t : Nat} (ht : t < insns.length)
    (s : σ) : from_ M insns (finalTarget (finTable insns) t) s = from_ M insns t s := by
  obtain ⟨_, _, _, hrun⟩ := finalTarget_sound (σ := σ) (ε := ε) (ρ := ρ) h
    (insns.length - t) t (by omega) (by omega)
  exact hrun M holds hM s

/-- Either branch of a threaded conditional jump leads to its old target or to the final
target of that. -/
theorem threadInsn_branch (h : WellFormed insns) {i : Nat} {insn : Insn}
    (hi : insns[i]? = some insn) (hc : isCondJump insn = true) (k : Slot) (hk : k ≠ .ja) :
    target i (insn.off k) < insns.length ∧
    (target i ((threadInsn (finTable insns) i insn).off k) = target i (insn.off k) ∨
      target i ((threadInsn (finTable insns) i insn).off k) =
        finalTarget (finTable insns) (target i (insn.off k))) := by
  have hj := isCond_not_ja hc
  cases k with
  | ja => exact absurd rfl hk
  | jt =>
    have hlt : target i insn.jt.toNat < insns.length :=
      h.inside i insn hi _ (by simp [jumpTargets, hj, hc])
    refine ⟨hlt, ?_⟩
    simp only [Insn.off]
    rw [threadInsn_jt _ _ hc]
    exact narrow_target _ _ _ (h.finalTarget_bounds hlt).1
  | jf =>
    have hlt : target i insn.jf.toNat < insns.length :=
      h.inside i insn hi _ (by simp [jumpTargets, hj, hc])
    refine ⟨hlt, ?_⟩
    simp only [Insn.off]
    rw [threadInsn_jf _ _ hc]
    exact narrow_target _ _ _ (h.finalTarget_bounds hlt).1

/-- A branch of a threaded conditional jump still leads into the program. -/
theorem threadInsn_branch_inside (h : WellFormed insns) {i : Nat} {insn : Insn}
    (hi : insns[i]? = some insn) (hc : isCondJump insn = true) (k : Slot) (hk : k ≠ .ja) :
    target i ((threadInsn (finTable insns) i insn).off k) < insns.length := by
  obtain ⟨hlt, he | he⟩ := threadInsn_branch h hi hc k hk
  · omega
  · have := (h.finalTarget_bounds hlt).2
    omega

/-- A `ja` whose distance no longer fits in `k` goes less far, never further. -/
theorem threadInsn_ja_inside (h : WellFormed insns) {i : Nat} {insn : Insn}
    (hi : insns[i]? = some insn) (hj : isJa insn = true) :
    target i (threadInsn (finTable insns) i insn).k.toNat < insns.length := by
  have htlt : target i insn.k.toNat < insns.length :=
    h.inside i insn hi _ (by simp [jumpTargets, hj])
  obtain ⟨hle, hlt⟩ := h.finalTarget_bounds htlt
  have hti : i < target i insn.k.toNat := by unfold target; omega
  simp only [threadInsn, hj, if_true, UInt32.toNat_ofNat', threadDist]
  have hmod := Nat.mod_le (finalTarget (finTable insns) (target i insn.k.toNat) - i - 1) (2 ^ 32)
  generalize finalTarget (finTable insns) (target i insn.k.toNat) = t at *
  unfold target
  omega

theorem WellFormed.threadJumps (h : WellFormed insns) : WellFormed (threadJumps insns) where
  opcodes := by
    intro insn hm
    obtain ⟨i, hi⟩ := List.mem_iff_getElem?.mp hm
    rw [PktBaffle.Optimizer.threadJumps, List.getElem?_mapIdx, Option.map_eq_some_iff] at hi
    obtain ⟨old, ho, rfl⟩ := hi
    rw [threadInsn_code]
    exact h.opcodes old (List.mem_of_getElem? ho)
  ret := by
    obtain ⟨last, hl, hr⟩ := h.ret
    rw [List.getLast?_eq_getElem?] at hl
    refine ⟨threadInsn (finTable insns) (insns.length - 1) last, ?_, ?_⟩
    · rw [List.getLast?_eq_getElem?, threadJumps_length]
      exact threadJumps_get hl
    · rw [isRet_congr (threadInsn_code _ _ _), hr]
  inside := by
    intro i insn hi t ht
    rw [PktBaffle.Optimizer.threadJumps, List.getElem?_mapIdx, Option.map_eq_some_iff] at hi
    obtain ⟨old, ho, rfl⟩ := hi
    have hcode := threadInsn_code (finTable insns) i old
    rw [threadJumps_length]
    unfold jumpTargets at ht
    rw [isJa_congr hcode, isCondJump_congr hcode] at ht
    cases hj : isJa old with
    | true =>
      simp only [hj, if_true, List.mem_singleton] at ht
      exact ht ▸ threadInsn_ja_inside h ho hj
    | false =>
      cases hc : isCondJump old with
      | false => simp [hj, hc] at ht
      | true =>
        simp only [hj, hc, Bool.false_eq_true, if_false, if_true, List.mem_cons,
          List.not_mem_nil, or_false] at ht
        rcases ht with rfl | rfl
        · exact threadInsn_branch_inside h ho hc .jt (by decide)
        · exact threadInsn_branch_inside h ho hc .jf (by decide)

/-- Threading leaves the run from every index as it was. -/
theorem from_threadJumps (h : WellFormed insns) (hf : JaFits insns) {M : Machine Insn Slot σ ε ρ}
    {holds : UInt16 → UInt32 → σ → Prop} (hM : Laws M holds) (c i : Nat)
    (hi : i + c = insns.length) (s : σ) :
    from_ M (threadJumps insns) i s = from_ M insns i s := by
  induction c using Nat.strong_induction_on generalizing i s with
  | _ c ih =>
    have later : ∀ t, i < t → t < insns.length → ∀ s,
        from_ M (threadJumps insns) t s = from_ M insns t s := fun t hit htl s =>
      ih (insns.length - t) (by omega) t (by omega) s
    rcases Nat.eq_zero_or_pos c with rfl | hc
    · rw [from_, from_, List.drop_of_length_le (by simp; omega), List.drop_of_length_le (by omega)]
    · have hlt : i < insns.length := by omega
      obtain ⟨insn, hg⟩ : ∃ insn, insns[i]? = some insn := ⟨_, List.getElem?_eq_getElem hlt⟩
      have hg' := threadJumps_get hg
      have hcode := threadInsn_code (finTable insns) i insn
      cases hr : isRet insn with
      | true =>
        have hi' : threadInsn (finTable insns) i insn = insn := by
          have hj : isJa insn = false := by
            cases hj : isJa insn with
            | false => rfl
            | true => exact absurd (isJa_not_ret hj) (by simp [hr])
          have hc : isCondJump insn = false := by
            cases hc : isCondJump insn with
            | false => rfl
            | true => exact absurd (isCond_not_ret hc) (by simp [hr])
          simp [threadInsn, hj, hc]
        obtain ⟨r, ha⟩ := hM.ret insn s hr
        rw [hi'] at hg'
        rw [from_halt hg' ha, from_halt hg ha]
      | false =>
        cases hj : isJa insn with
        | true =>
          obtain ⟨_, hin⟩ := h.finalTarget_bounds hlt
          have ht := threadInsn_ja h hf hg hj
          have hgt : i < finalTarget (finTable insns) i := by
            rw [← ht]
            unfold target
            omega
          rw [from_jump hg' (hM.ja _ s (by rw [isJa_congr hcode, hj])) (hM.tgt _ .ja)
            (by simp only [Insn.off, threadJumps_length, ht]; omega)]
          simp only [Insn.off, ht]
          rw [later _ hgt hin, from_finalTarget h hM hlt]
        | false =>
          cases hcj : isCondJump insn with
          | true =>
            have hact : M.act (threadInsn (finTable insns) i insn) s = M.act insn s := by
              simp only [threadInsn, hj, hcj, Bool.false_eq_true, if_false, if_true]
              exact hM.branches insn s _ _ hcj
            have branch : ∀ k s', k ≠ Slot.ja → M.act insn s = .ok (.jump k s') →
                from_ M (threadJumps insns) i s = from_ M insns i s := by
              intro k s' hk ha
              have hin := threadInsn_branch_inside h hg hcj k hk
              obtain ⟨hlt', he⟩ := threadInsn_branch h hg hcj k hk
              rw [from_jump hg' (hact.trans ha) (hM.tgt _ k) (by rw [threadJumps_length]; omega),
                from_jump hg ha (hM.tgt _ k) (by omega),
                later _ (by unfold target; omega) hin]
              rcases he with he | he
              · rw [he]
              · rw [he, from_finalTarget h hM hlt']
            rcases hM.cond insn s hcj with ⟨e, ha⟩ | ⟨s', ha | ha⟩
            · rw [from_stop hg' (hact.trans ha), from_stop hg ha]
            · exact branch .jt s' (by decide) ha
            · exact branch .jf s' (by decide) ha
          | false =>
            have hi' : threadInsn (finTable insns) i insn = insn := by simp [threadInsn, hj, hcj]
            rw [hi'] at hg'
            rcases hM.plain insn s hr hj hcj with ⟨e, ha⟩ | ⟨s', ha⟩
            · rw [from_stop hg' ha, from_stop hg ha]
            · rw [from_next hg' ha, from_next hg ha,
                later (i + 1) (by omega) (h.next_inside hg hr)]

end Threaded

end PktBaffle.Proofs.Optimizer
