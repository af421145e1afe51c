import PktBaffle.Proofs.Optimizer.Dataflow

namespace PktBaffle.Proofs.Optimizer
open Bpf Forward PktBaffle.Optimizer

theorem newIndexFrom_get (ks : List Bool) (count i : Nat) (h : i ≤ ks.length) :
    (newIndexFrom ks count)[i]? = some (count + (ks.take i).count true) := by
  induction ks generalizing count i with
  | nil =>
    obtain rfl : i = 0 := by simpa using h
    simp [newIndexFrom]
  | cons k ks ih =>
    cases i with
    | zero => simp [newIndexFrom]
    | succ i =>
      rw [newIndexFrom, List.getElem?_cons_succ, ih _ _ (by simpa using h)]
      cases k with
      | true => simp; omega
      | false => simp

section Positions

variable {keep : List Bool}

theorem newPos_eq {t : Nat} (h : t ≤ keep.length) : newPos keep t = (keep.take t).count true := by
  have hmin : min t keep.length = t := by omega
  rw [newPos, newIndex, hmin, newIndexFrom_get _ _ _ h]
  simp

@[simp] theorem newPos_zero : newPos keep 0 = 0 := by
  rw [newPos_eq (Nat.zero_le _)]
  simp

theorem newPos_succ {t : Nat} {b : Bool} (h : keep[t]? = some b) :
    newPos keep (t + 1) = newPos keep t + b.toNat := by
  have hlt := (List.getElem?_eq_some_iff.mp h).1
  rw [newPos_eq (by omega), newPos_eq (by omega), List.take_add_one, h, List.count_append]
  cases b <;> simp

/-- Moving on by `d` old positions moves on by at most as many new ones. -/
theorem newPos_gap (t d : Nat) (h : t + d ≤ keep.length) :
    newPos keep t ≤ newPos keep (t + d) ∧ newPos keep (t + d) ≤ newPos keep t + d := by
  induction d with
  | zero => simp
  | succ d ih =>
    obtain ⟨hlo, hhi⟩ := ih (by omega)
    have hg : keep[t + d]? = some keep[t + d] := List.getElem?_eq_getElem (by omega)
    have hs := newPos_succ hg
    have hb : keep[t + d].toNat ≤ 1 := Bool.toNat_le _
    rw [← Nat.add_assoc]
    omega

/-- The displacement of a kept jump, counted in kept instructions, fits where the old one
did and leads to the new position of the old target. -/
theorem newPos_target {i d : Nat} (hk : keep[i]? = some true) (h : target i d ≤ keep.length) :
    newPos keep (target i d) - newPos keep i - 1 ≤ d ∧
      target (newPos keep i) (newPos keep (target i d) - newPos keep i - 1) =
        newPos keep (target i d) := by
  have hs : newPos keep (i + 1) = newPos keep i + 1 := newPos_succ hk
  have hg := newPos_gap (i + 1) d h
  unfold target at *
  omega

end Positions

/-- The jump slots an instruction of this kind reads. -/
def usesSlot (insn : Insn) : Slot → Bool
  | .ja => isJa insn
  | .jt => isCondJump insn
  | .jf => isCondJump insn

theorem mem_jumpTargets {i t : Nat} {insn : Insn} :
    t ∈ jumpTargets i insn ↔ ∃ k, usesSlot insn k = true ∧ t = target i (insn.off k) := by
  constructor
  · intro h
    unfold jumpTargets at h
    cases hj : isJa insn with
    | true =>
      simp only [hj, if_true, List.mem_singleton] at h
      exact ⟨.ja, hj, h⟩
    | false =>
      cases hc : isCondJump insn with
      | false => simp [hj, hc] at h
      | true =>
        simp only [hj, hc, Bool.false_eq_true, if_false, if_true, List.mem_cons,
          List.not_mem_nil, or_false] at h
        rcases h with h | h
        · exact ⟨.jt, hc, h⟩
        · exact ⟨.jf, hc, h⟩
  · rintro ⟨k, hk, rfl⟩
    cases k with
    | ja => simp [jumpTargets, show isJa insn = true from hk, Insn.off]
    | jt =>
      have hc : isCondJump insn = true := hk
      simp [jumpTargets, hc, isCond_not_ja hc, Insn.off]
    | jf =>
      have hc : isCondJump insn = true := hk
      simp [jumpTargets, hc, isCond_not_ja hc, Insn.off]

theorem renumber_code (keep : List Bool) (i : Nat) (insn : Insn) :
    (renumber keep i insn).code = insn.code := by
  unfold renumber
  split
  · rfl
  · split <;> rfl

theorem usesSlot_congr {a b : Insn} (h : a.code = b.code) (k : Slot) :
    usesSlot a k = usesSlot b k := by
  cases k <;> simp [usesSlot, isJa_congr h, isCondJump_congr h]

theorem renumber_off (keep : List Bool) (i : Nat) {insn : Insn} {k : Slot}
    (hu : usesSlot insn k = true)
    (hle : newPos keep (target i (insn.off k)) - newPos keep i - 1 ≤ insn.off k) :
    (renumber keep i insn).off k = newPos keep (target i (insn.off k)) - newPos keep i - 1 := by
  cases k with
  | ja =>
    have hj : isJa insn = true := hu
    have hlt := insn.k.toNat_lt
    simp only [Insn.off] at hle ⊢
    simp only [renumber, hj, if_true, UInt32.toNat_ofNat']
    exact Nat.mod_eq_of_lt (by omega)
  | jt =>
    have hc : isCondJump insn = true := hu
    have hlt := insn.jt.toNat_lt
    simp only [Insn.off] at hle ⊢
    simp only [renumber, isCond_not_ja hc, hc, Bool.false_eq_true, if_false, if_true,
      UInt8.toNat_ofNat']
    exact Nat.mod_eq_of_lt (by omega)
  | jf =>
    have hc : isCondJump insn = true := hu
    have hlt := insn.jf.toNat_lt
    simp only [Insn.off] at hle ⊢
    simp only [renumber, isCond_not_ja hc, hc, Bool.false_eq_true, if_false, if_true,
      UInt8.toNat_ofNat']
    exact Nat.mod_eq_of_lt (by omega)

/-- A kept jump leads to the new position of its old target. -/
theorem renumber_target {keep : List Bool} {i : Nat} {insn : Insn} {k : Slot}
    (hk : keep[i]? = some true) (hu : usesSlot insn k = true)
    (hin : target i (insn.off k) ≤ keep.length) :
    target (newPos keep i) ((renumber keep i insn).off k) =
      newPos keep (target i (insn.off k)) := by
  obtain ⟨hle, ht⟩ := newPos_target hk hin
  rw [renumber_off keep i hu hle, ht]

section Removal

variable {insns : List Insn} {keep : List Bool}

theorem filterMap_take_length {α β : Type} (f : α → Option β) (l : List α) {i : Nat} {a : α} {b : β}
    (hi : l[i]? = some a) (hf : f a = some b) :
    (l.filterMap f)[((l.take i).filterMap f).length]? = some b := by
  obtain ⟨hlt, he⟩ := List.getElem?_eq_some_iff.mp hi
  have hsplit : l.filterMap f = (l.take i).filterMap f ++ b :: (l.drop (i + 1)).filterMap f := by
    rw [← List.filterMap_cons_some hf, ← he, ← List.drop_eq_getElem_cons hlt,
      ← List.filterMap_append, List.take_append_drop]
  rw [hsplit, List.getElem?_append_right (Nat.le_refl _), Nat.sub_self, List.getElem?_cons_zero]

/-- As many instructions are kept in front of `i` as its new position says. -/
theorem kept_before (hlen : keep.length = insns.length) (f : Nat → Insn → Insn) (i : Nat)
    (hi : i ≤ insns.length) :
    ((insns.zipIdx.take i).filterMap
      (fun (insn, i) => if keep[i]? = some true then some (f i insn) else none)).length =
      newPos keep i := by
  induction i with
  | zero => simp
  | succ i ih =>
    have hlt : i < keep.length := by omega
    have hg : keep[i]? = some keep[i] := List.getElem?_eq_getElem hlt
    have hz : insns.zipIdx[i]? = some (insns[i], i) := by simp [List.getElem?_eq_getElem hi]
    rw [List.take_add_one, hz, List.filterMap_append, List.length_append, ih (by omega),
      newPos_succ hg]
    cases hb : keep[i] with
    | true => simp [hg, hb]
    | false => simp [hg, hb]

theorem all_kept_newPos (hall : keep.all id = true) {t : Nat} (ht : t ≤ keep.length) :
    newPos keep t = t := by
  rw [newPos_eq ht, List.count_eq_length.mpr, List.length_take]
  · omega
  · intro b hb
    exact (List.all_eq_true.mp hall b (List.mem_of_mem_take hb)).symm

theorem removeUnkept_length (hlen : keep.length = insns.length) :
    (removeUnkept insns keep).length = newPos keep insns.length := by
  unfold removeUnkept
  split
  · rename_i hall
    rw [all_kept_newPos hall (by omega)]
  · have h := kept_before hlen (renumber keep) insns.length (Nat.le_refl _)
    rwa [List.take_of_length_le (by simp)] at h

/-- Where a kept instruction stands in the result. -/
theorem removeUnkept_get (hlen : keep.length = insns.length)
    (hin : ∀ i insn, insns[i]? = some insn → ∀ t ∈ jumpTargets i insn, t < insns.length)
    {i : Nat} {insn : Insn} (hi : insns[i]? = some insn) (hk : keep[i]? = some true) :
    (removeUnkept insns keep)[newPos keep i]? = some (renumber keep i insn) := by
  have hlt := (List.getElem?_eq_some_iff.mp hi).1
  unfold removeUnkept
  split
  · rename_i hall
    have hsame : renumber keep i insn = insn := by
      have slot : ∀ k, usesSlot insn k = true →
          (renumber keep i insn).off k = insn.off k := by
        intro k hu
        have htlt := hin i insn hi _ (mem_jumpTargets.mpr ⟨k, hu, rfl⟩)
        have ht := renumber_target hk hu (by omega)
        rw [all_kept_newPos hall (by omega), all_kept_newPos hall (by omega)] at ht
        unfold target at ht
        omega
      cases hj : isJa insn with
      | true =>
        have := slot .ja hj
        simp only [renumber, hj, if_true, Insn.off] at this ⊢
        rw [UInt32.toNat_inj.mp this]
      | false =>
        cases hc : isCondJump insn with
        | false => simp [renumber, hj, hc]
        | true =>
          have ht := slot .jt hc
          have hf := slot .jf hc
          simp only [renumber, hj, hc, Bool.false_eq_true, if_false, if_true, Insn.off] at ht hf ⊢
          rw [UInt8.toNat_inj.mp ht, UInt8.toNat_inj.mp hf]
    rw [all_kept_newPos hall (by omega), hsame, hi]
  · have h := filterMap_take_length
      (fun (p : Insn × Nat) => if keep[p.2]? = some true then some (renumber keep p.2 p.1) else none)
      insns.zipIdx (i := i) (a := (insn, i)) (b := renumber keep i insn)
      (by simp [hi]) (by simp [hk])
    rwa [kept_before hlen (renumber keep) i (by omega)] at h

/-- Every instruction of the result is a kept one. -/
theorem removeUnkept_origin (hlen : keep.length = insns.length) {j : Nat}
    (hj : j < (removeUnkept insns keep).length) :
    ∃ i insn, insns[i]? = some insn ∧ keep[i]? = some true ∧ newPos keep i = j := by
  rw [removeUnkept_length hlen] at hj
  have search : ∀ n, n ≤ insns.length → j < newPos keep n →
      ∃ i insn, insns[i]? = some insn ∧ keep[i]? = some true ∧ newPos keep i = j := by
    intro n hn hjn
    induction n with
    | zero => simp at hjn
    | succ n ih =>
      have hg : keep[n]? = some keep[n] := List.getElem?_eq_getElem (by omega)
      rcases Nat.lt_or_ge j (newPos keep n) with hlt | hge
      · exact ih (by omega) hlt
      · have hs := newPos_succ hg
        cases hb : keep[n] with
        | false =>
          rw [hb] at hs
          simp at hs
          omega
        | true =>
          rw [hb] at hs
          simp at hs
          exact ⟨n, insns[n], List.getElem?_eq_getElem (by omega), hb ▸ hg, by omega⟩
  exact search _ (Nat.le_refl _) hj

end Removal

end PktBaffle.Proofs.Optimizer
