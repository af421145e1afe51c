import PktBaffle.Proofs.Optimizer.Thread

namespace PktBaffle.Proofs.Optimizer
open Bpf Forward PktBaffle.Optimizer

/-- A table entry that may stand for an incoming state: it says the same or nothing. -/
def Covers (slot : Option AState) (incoming : AState) : Prop :=
  slot = some .unknown ∨ slot = some incoming

theorem covers_meet (slot : Option AState) (incoming : AState) :
    Covers (meet slot incoming) incoming := by
  unfold meet
  split
  · exact .inr rfl
  · split
    · exact .inr rfl
    · exact .inl rfl

theorem Covers.meet {slot : Option AState} {old : AState} (h : Covers slot old)
    (incoming : AState) : Covers (meet slot incoming) old := by
  rcases h with rfl | rfl
  · by_cases he : AState.unknown = incoming
    · subst he
      exact .inl (by simp [Optimizer.meet])
    · exact .inl (by simp [Optimizer.meet, he])
  · by_cases he : old = incoming
    · subst he
      exact .inr (by simp [Optimizer.meet])
    · exact .inl (by simp [Optimizer.meet, he])

section Table

variable {tbl : List (Option AState)}

@[simp] theorem meetAt_length (t : Nat) (out : AState) :
    (meetAt tbl t out).length = tbl.length := by
  simp [meetAt]

theorem meetAt_other {t j : Nat} (h : t ≠ j) (out : AState) : (meetAt tbl t out)[j]? = tbl[j]? := by
  simp [meetAt, h]

/-- An entry that covers `old` still does after any number of meets. -/
theorem covers_foldl_meetAt (ts : List Nat) (out : AState) {j : Nat} {old : AState}
    (h : ∃ slot, tbl[j]? = some slot ∧ Covers slot old) :
    ∃ slot, (ts.foldl (fun tbl t => meetAt tbl t out) tbl)[j]? = some slot ∧ Covers slot old := by
  induction ts generalizing tbl with
  | nil => exact h
  | cons t ts ih =>
    obtain ⟨slot, hs, hc⟩ := h
    refine ih ?_
    by_cases he : t = j
    · refine ⟨meet slot out, ?_, hc.meet out⟩
      simp [meetAt, he, hs]
    · exact ⟨slot, by rw [meetAt_other he, hs], hc⟩

theorem foldl_meetAt_length (ts : List Nat) (out : AState) :
    (ts.foldl (fun tbl t => meetAt tbl t out) tbl).length = tbl.length := by
  induction ts generalizing tbl with
  | nil => rfl
  | cons t ts ih => rw [List.foldl_cons, ih, meetAt_length]

theorem foldl_meetAt_other (ts : List Nat) (out : AState) {j : Nat} (h : j ∉ ts) :
    (ts.foldl (fun tbl t => meetAt tbl t out) tbl)[j]? = tbl[j]? := by
  induction ts generalizing tbl with
  | nil => rfl
  | cons t ts ih =>
    obtain ⟨hne, hts⟩ : j ≠ t ∧ j ∉ ts := by simpa using h
    rw [List.foldl_cons, ih hts, meetAt_other (Ne.symm hne)]

/-- Every index met into covers what was met. -/
theorem covers_met (ts : List Nat) (out : AState) {t : Nat} (ht : t ∈ ts)
    (hlt : t < tbl.length) :
    ∃ slot, (ts.foldl (fun tbl t => meetAt tbl t out) tbl)[t]? = some slot ∧ Covers slot out := by
  induction ts generalizing tbl with
  | nil => cases ht
  | cons u ts ih =>
    by_cases he : u = t
    · subst he
      refine covers_foldl_meetAt ts out ⟨meet tbl[u] out, ?_, covers_meet _ _⟩
      simp [meetAt, hlt]
    · have htts : t ∈ ts := by
        rcases List.mem_cons.mp ht with rfl | h
        · exact absurd rfl he
        · exact h
      exact ih htts (by simpa using hlt)

end Table

/-- What the sweep has established once it is past index `m`. -/
structure Swept (insns : List Insn) (st : List Bool × List (Option AState)) (m : Nat) : Prop where
  marks_length : st.1.length = insns.length
  table_length : st.2.length = insns.length
  entry : 0 < insns.length → st.2[0]? = some (some .unknown)
  flow : ∀ j insn state, j < m → insns[j]? = some insn → st.2[j]? = some (some state) →
    ∀ t ∈ succs j insn, t < insns.length →
      ∃ slot, st.2[t]? = some slot ∧ Covers slot (transfer insn state)
  mark : ∀ j, st.1[j]? = some true → ∃ insn, insns[j]? = some insn ∧ j < m ∧
    isLdAbs insn = true ∧ st.2[j]? = some (some (.load insn.code insn.k))

theorem swept_start (insns : List Insn) :
    Swept insns (List.replicate insns.length false, entryStates insns) 0 where
  marks_length := by simp
  table_length := by simp [entryStates]
  entry h := by simp [entryStates, h]
  flow j _ _ hj := absurd hj (Nat.not_lt_zero j)
  mark j h := by
    rw [List.getElem?_replicate] at h
    split at h <;> simp at h

/-- One turn of the sweep only meets into entries behind the one it reads. -/
theorem Swept.step {insns : List Insn} {st : List Bool × List (Option AState)} {m : Nat}
    (h : Swept insns st m) : Swept insns (sweepStep insns st m) (m + 1) := by
  unfold sweepStep
  split
  · rename_i insn state hi hs
    have before : ∀ j, j ≤ m → j ∉ succs m insn := by
      intro j hj hmem
      have := succ_gt hmem
      omega
    refine ⟨?_, ?_, ?_, ?_, ?_⟩
    · dsimp only
      split
      · rw [List.length_set, h.marks_length]
      · exact h.marks_length
    · rw [foldl_meetAt_length, h.table_length]
    · intro hpos
      rw [foldl_meetAt_other _ _ (before 0 (Nat.zero_le m))]
      exact h.entry hpos
    · intro j insn' state' hj hi' hs' t ht htlt
      rw [foldl_meetAt_other _ _ (before j (by omega))] at hs'
      rcases Nat.lt_or_ge j m with hlt | hge
      · exact covers_foldl_meetAt _ _ (h.flow j insn' state' hlt hi' hs' t ht htlt)
      · obtain rfl : j = m := by omega
        rw [hi] at hi'
        rw [hs] at hs'
        cases hi'
        cases hs'
        exact covers_met _ _ ht (by rw [h.table_length]; exact htlt)
    · intro j hj
      dsimp only at hj
      have old : st.1[j]? = some true → ∃ insn', insns[j]? = some insn' ∧ j < m + 1 ∧
          isLdAbs insn' = true ∧ ((succs m insn).foldl
            (fun inState t => meetAt inState t (transfer insn state)) st.2)[j]? =
            some (some (.load insn'.code insn'.k)) := by
        intro hold
        obtain ⟨insn', hi', hlt, hld, hst⟩ := h.mark j hold
        refine ⟨insn', hi', by omega, hld, ?_⟩
        rw [foldl_meetAt_other _ _ (before j (by omega)), hst]
      split at hj
      · rename_i hc
        obtain ⟨hld, hst⟩ := Bool.and_eq_true_iff.mp hc
        by_cases he : m = j
        · subst he
          refine ⟨insn, hi, by omega, hld, ?_⟩
          rw [foldl_meetAt_other _ _ (before m (Nat.le_refl m)), hs, beq_iff_eq.mp hst]
        · rw [List.getElem?_set, if_neg he] at hj
          exact old hj
      · exact old hj
  · rename_i hno
    refine ⟨h.marks_length, h.table_length, h.entry, ?_, ?_⟩
    · intro j insn state hj hi hs t ht htlt
      rcases Nat.lt_or_ge j m with hlt | hge
      · exact h.flow j insn state hlt hi hs t ht htlt
      · obtain rfl : j = m := by omega
        exact absurd hs (hno insn state hi)
    · intro j hj
      obtain ⟨insn, hi, hlt, hrest⟩ := h.mark j hj
      exact ⟨insn, hi, by omega, hrest⟩

theorem swept_range (insns : List Insn) (m : Nat) :
    Swept insns ((List.range m).foldl (sweepStep insns)
      (List.replicate insns.length false, entryStates insns)) m := by
  induction m with
  | zero => exact swept_start insns
  | succ m ih =>
    rw [List.range_succ, List.foldl_append]
    exact ih.step

theorem swept (insns : List Insn) : Swept insns (sweep insns) insns.length :=
  swept_range insns insns.length

/-- The indices control can get to from the first instruction. -/
inductive Reach (insns : List Insn) : Nat → Prop where
  | entry : Reach insns 0
  | step {i t : Nat} {insn : Insn} (hr : Reach insns i) (hi : insns[i]? = some insn)
      (ht : t ∈ succs i insn) : Reach insns t

theorem succs_length (i : Nat) (insn : Insn) : (succs i insn).length ≤ 2 := by
  unfold succs
  split
  · simp
  · split
    · simp
    · split <;> simp

/-- What the worklist loop keeps: everything marked or waiting is reachable, and what an
index that is marked leads to is marked or waiting. -/
structure Marking (insns : List Insn) (stack : List Nat) (reachable : List Bool) : Prop where
  length : reachable.length = insns.length
  waiting : ∀ i ∈ stack, Reach insns i
  marked : ∀ i, reachable[i]? = some true → Reach insns i
  closed : ∀ i insn, reachable[i]? = some true → insns[i]? = some insn → ∀ t ∈ succs i insn,
    t < insns.length → reachable[t]? = some true ∨ t ∈ stack

theorem Marking.skip {insns : List Insn} {i : Nat} {stack : List Nat} {reachable : List Bool}
    (h : Marking insns (i :: stack) reachable)
    (hi : i < insns.length → reachable[i]? = some true) : Marking insns stack reachable where
  length := h.length
  waiting j hj := h.waiting j (List.mem_cons_of_mem _ hj)
  marked := h.marked
  closed j insn hj hg t ht htlt := by
    rcases h.closed j insn hj hg t ht htlt with hm | hm
    · exact .inl hm
    · rcases List.mem_cons.mp hm with rfl | hm
      · exact .inl (hi htlt)
      · exact .inr hm

theorem Marking.visit {insns : List Insn} {i : Nat} {insn : Insn} {stack : List Nat}
    {reachable : List Bool} (h : Marking insns (i :: stack) reachable)
    (hi : insns[i]? = some insn) :
    Marking insns ((succs i insn).reverse ++ stack) (reachable.set i true) where
  length := by rw [List.length_set, h.length]
  waiting j hj := by
    rcases List.mem_append.mp hj with hs | hs
    · exact .step (h.waiting i List.mem_cons_self) hi (List.mem_reverse.mp hs)
    · exact h.waiting j (List.mem_cons_of_mem _ hs)
  marked j hj := by
    by_cases he : i = j
    · exact he ▸ h.waiting i List.mem_cons_self
    · rw [List.getElem?_set, if_neg he] at hj
      exact h.marked j hj
  closed j insn' hj hg t ht htlt := by
    have keep : reachable[t]? = some true → (reachable.set i true)[t]? = some true := by
      intro hm
      rw [List.getElem?_set]
      split
      · simp [h.length, *]
      · exact hm
    by_cases he : i = j
    · subst he
      rw [hi] at hg
      cases hg
      exact .inr (List.mem_append_left _ (List.mem_reverse.mpr ht))
    · rw [List.getElem?_set, if_neg he] at hj
      rcases h.closed j insn' hj hg t ht htlt with hm | hm
      · exact .inl (keep hm)
      · rcases List.mem_cons.mp hm with rfl | hm
        · exact .inl (by simp [h.length, htlt])
        · exact .inr (List.mem_append_right _ hm)

/-- With fuel for every pop the loop ends with an empty stack, and has marked all it was
given. -/
theorem reachLoop_spec {insns : List Insn} (fuel : Nat) {stack : List Nat} {reachable : List Bool}
    (hfuel : 2 * reachable.count false + stack.length ≤ fuel)
    (h : Marking insns stack reachable) :
    Marking insns [] (reachLoop insns fuel stack reachable) ∧
      ∀ i, (reachable[i]? = some true ∨ (i ∈ stack ∧ i < insns.length)) →
        (reachLoop insns fuel stack reachable)[i]? = some true := by
  induction fuel generalizing stack reachable with
  | zero =>
    obtain rfl : stack = [] := List.length_eq_zero_iff.mp (by omega)
    exact ⟨h, fun i hi => hi.elim id (fun hm => absurd hm.1 List.not_mem_nil)⟩
  | succ fuel ih =>
    cases stack with
    | nil => exact ⟨h, fun i hi => hi.elim id (fun hm => absurd hm.1 List.not_mem_nil)⟩
    | cons i stack =>
      simp only [List.length_cons] at hfuel
      have skipped : (i < insns.length → reachable[i]? = some true) →
          Marking insns [] (reachLoop insns fuel stack reachable) ∧
          ∀ j, (reachable[j]? = some true ∨ (j ∈ i :: stack ∧ j < insns.length)) →
            (reachLoop insns fuel stack reachable)[j]? = some true := by
        intro hi
        obtain ⟨hm, hall⟩ := ih (by omega) (h.skip hi)
        refine ⟨hm, fun j hj => hall j ?_⟩
        rcases hj with hj | ⟨hj, hlt⟩
        · exact .inl hj
        · rcases List.mem_cons.mp hj with rfl | hj
          · exact .inl (hi hlt)
          · exact .inr ⟨hj, hlt⟩
      rw [reachLoop]
      split
      · rename_i hn
        exact skipped (fun hlt => by simp [List.getElem?_eq_getElem hlt] at hn)
      · rename_i insn hi
        have hlt : i < insns.length := (List.getElem?_eq_some_iff.mp hi).1
        split
        · rename_i ht
          exact skipped (fun _ => ht)
        · rename_i hf
          have hlt' : i < reachable.length := by rw [h.length]; exact hlt
          have hfalse : reachable[i] = false := by
            simpa [List.getElem?_eq_getElem hlt'] using hf
          have hpos : 0 < reachable.count false :=
            List.count_pos_iff.mpr (hfalse ▸ List.getElem_mem hlt')
          have hcount : (reachable.set i true).count false = reachable.count false - 1 := by
            simp [List.count_set, hlt', hfalse]
          have h2 := succs_length i insn
          obtain ⟨hm, hall⟩ := ih (by
            rw [hcount, List.length_append, List.length_reverse]
            omega) (h.visit hi)
          refine ⟨hm, fun j hj => hall j ?_⟩
          by_cases he : i = j
          · subst he
            exact .inl (by simp [hlt'])
          · rw [List.getElem?_set, if_neg he]
            rcases hj with hj | ⟨hj, hjlt⟩
            · exact .inl hj
            · rcases List.mem_cons.mp hj with rfl | hj
              · exact absurd rfl he
              · exact .inr ⟨List.mem_append_right _ hj, hjlt⟩

theorem reachable_marking (insns : List Insn) :
    Marking insns [] (reachableMarks insns) ∧
      (0 < insns.length → (reachableMarks insns)[0]? = some true) := by
  have hstart : Marking insns [0] (List.replicate insns.length false) := by
    have none_marked : ∀ i : Nat, (List.replicate insns.length false)[i]? ≠ some true := by
      intro i hi
      rw [List.getElem?_replicate] at hi
      split at hi <;> simp at hi
    refine ⟨by simp, ?_, fun i hi => absurd hi (none_marked i),
      fun i _ hi => absurd hi (none_marked i)⟩
    intro i hi
    rw [List.mem_singleton.mp hi]
    exact .entry
  obtain ⟨hm, hall⟩ := reachLoop_spec (2 * insns.length + 1) (by simp) hstart
  exact ⟨hm, fun hpos => hall 0 (.inr ⟨by simp, hpos⟩)⟩

/-- The marks are exactly the reachable indices of the program. -/
theorem reachableMarks_iff {insns : List Insn} (h : WellFormed insns) (i : Nat) :
    (reachableMarks insns)[i]? = some true ↔ Reach insns i := by
  obtain ⟨hm, h0⟩ := reachable_marking insns
  refine ⟨hm.marked i, fun hr => ?_⟩
  induction hr with
  | entry =>
    refine h0 ?_
    obtain ⟨last, hl, _⟩ := h.ret
    exact List.length_pos_of_mem (List.mem_of_getLast? hl)
  | step _ hi ht ih =>
    rcases hm.closed _ _ ih hi _ ht (h.succs_inside hi _ ht) with hd | hd
    · exact hd
    · cases hd

theorem WellFormed.reach_inside {insns : List Insn} (h : WellFormed insns) {i : Nat}
    (hr : Reach insns i) : i < insns.length := by
  have := (reachableMarks_iff h i).mpr hr
  rw [← (reachable_marking insns).1.length]
  exact (List.getElem?_eq_some_iff.mp this).1

end PktBaffle.Proofs.Optimizer
