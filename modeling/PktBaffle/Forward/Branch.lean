import PktBaffle.Forward.Patch
import PktBaffle.Forward.Triple

namespace PktBaffle.Forward

variable {ι κ σ ε ρ : Type}

namespace Frag

/-- `i`, whose slot `k` leads over `c`. -/
def skipping (i : ι) (k : κ) (c : Frag ι κ) : Frag ι κ := ⟨i, some (k, .skip c.length)⟩ :: c

/-- `i`, whose slot `k` leads to `d`; otherwise `c`, behind which `ja` leads over `d`. -/
def branch (i ja : ι) (k : κ) (c d : Frag ι κ) : Frag ι κ :=
  ⟨i, some (k, .skip (c.length + 1))⟩ :: (c ++ ⟨ja, some (k, .skip d.length)⟩ :: d)

@[simp] theorem skipping_length (i : ι) (k : κ) (c : Frag ι κ) : (skipping i k c).length = c.length + 1 :=
  rfl

@[simp] theorem branch_length (i ja : ι) (k : κ) (c d : Frag ι κ) :
    (branch i ja k c d).length = c.length + d.length + 2 := by
  simp only [branch, List.length_cons, List.length_append]
  omega

theorem slots_skipping (x : Exit) (b : Nat) (i : ι) (k : κ) (c : Frag ι κ) :
    slots x b (skipping i k c) = slots x (b + 1) c := rfl

theorem slots_branch (x : Exit) (b : Nat) (i ja : ι) (k : κ) (c d : Frag ι κ) :
    slots x b (branch i ja k c d) = slots x (b + 1) c ++ slots x (b + 1 + c.length + 1) d := by
  rw [branch, ← List.singleton_append, slots_append, slots_append]
  rfl

end Frag

namespace Placed

variable {put : ι → κ → Nat → ι} {pre mid post : List ι} {s s₁ s₂ f f₁ f₂ : List (κ × Nat)}
  {c c₁ c₂ : Frag ι κ}

/-- The slots of placed code lie in it. -/
theorem slot_lt {q : κ × Nat} (h : Placed put pre post s f c) (hq : q ∈ s ∨ q ∈ f) :
    q.2 < post.length := by
  rw [h.length]
  rcases hq with hq | hq
  · obtain ⟨j, hj, he, -⟩ := Frag.mem_slots.mp ((h.success q).mp hq)
    omega
  · obtain ⟨j, hj, he, -⟩ := Frag.mem_slots.mp ((h.failure q).mp hq)
    omega

/-- A slot patched to the point behind a fragment that follows it. -/
theorem patch_skipping (i : ι) (k : κ) (c : List ι) :
    patchAll put [(k, pre.length)] (pre.length + 1 + c.length) (pre ++ [i] ++ c) =
      pre ++ put i k c.length :: c := by
  have hd : pre.length + 1 + c.length - pre.length - 1 = c.length := by omega
  simp only [patchAll, List.foldl_cons, List.foldl_nil, hd, List.append_assoc,
    List.singleton_append]
  rw [List.modify_eq_take_cons_drop (by simp)]
  simp

/-- A jump over the code that follows it, patched once that code stands. -/
theorem skipping {i : ι} {k : κ} (h : Placed put (pre ++ [i]) mid s f c) :
    Placed put pre (patchAll put [(k, pre.length)] mid.length mid) s f (Frag.skipping i k c) := by
  have hl : mid.length = pre.length + 1 + (c.map (Cell.raw put)).length := by
    rw [h.length]
    simp
  refine ⟨?_, ?_, ?_⟩
  · rw [hl, h.code, patch_skipping]
    simp [Frag.skipping, Cell.raw]
  · intro q
    rw [h.success, Frag.slots_skipping]
    simp
  · intro q
    rw [h.failure, Frag.slots_skipping]
    simp

/-- A jump to the second of two pieces and one from the end of the first over the second. -/
theorem branch {i ja : ι} {k : κ} (h₁ : Placed put (pre ++ [i]) mid s₁ f₁ c₁)
    (h₂ : Placed put (patchAll put [(k, pre.length)] (mid.length + 1) (mid ++ [ja])) post s₂ f₂ c₂) :
    Placed put pre (patchAll put [(k, mid.length)] post.length post) (s₁ ++ s₂) (f₁ ++ f₂)
      (Frag.branch i ja k c₁ c₂) := by
  have hmid : mid.length = pre.length + 1 + c₁.length := by
    rw [h₁.length]
    simp
  have hp : patchAll put [(k, pre.length)] (mid.length + 1) (mid ++ [ja]) =
      (pre ++ put i k (c₁.length + 1) :: c₁.map (Cell.raw put)) ++ [ja] := by
    have := @patch_skipping _ _ put pre i k (c₁.map (Cell.raw put) ++ [ja])
    simp only [List.length_append, List.length_map, List.length_singleton] at this
    rw [h₁.code, List.length_append, List.length_append, List.length_map, List.length_singleton,
      List.append_assoc _ _ [ja], Nat.add_assoc _ _ 1, this]
    simp
  rw [hp] at h₂
  have hpre : (pre ++ put i k (c₁.length + 1) :: c₁.map (Cell.raw put)).length = mid.length := by
    simp only [List.length_append, List.length_cons, List.length_map]
    omega
  have hlen : (pre ++ put i k (c₁.length + 1) :: c₁.map (Cell.raw put) ++ [ja]).length =
      pre.length + 1 + c₁.length + 1 := by
    rw [List.length_append, hpre, hmid]
    rfl
  have hb := h₂.skipping (k := k)
  rw [hpre] at hb
  refine ⟨?_, ?_, ?_⟩
  · rw [hb.code]
    simp [Frag.skipping, Frag.branch, Cell.raw]
  · intro q
    rw [List.mem_append, h₁.success, h₂.success, Frag.slots_branch, List.mem_append, hlen]
    simp
  · intro q
    rw [List.mem_append, h₁.failure, h₂.failure, Frag.slots_branch, List.mem_append, hlen]
    simp

end Placed

variable [DecidableEq κ] {M : Machine ι κ σ ε ρ} {i ja : ι} {k : κ} {c d : Frag ι κ} {s s' : σ}

namespace Machine

theorem run_cell_next {a : Cell ι κ} (h : M.act a.insn s = .ok (.next s')) :
    M.cells.run (a :: c) 0 s = M.cells.run c 0 s' :=
  run_next (M := M.cells) h

theorem run_cell_skip {n : Nat} (h : M.act i s = .ok (.jump k s')) :
    M.cells.run (⟨i, some (k, .skip n)⟩ :: c) 0 s = M.cells.run c n s' :=
  run_jump (M := M.cells) h (by simp [Machine.cells])

theorem run_skipping_taken (h : M.act i s = .ok (.jump k s')) :
    M.cells.run (Frag.skipping i k c) 0 s = .past 0 s' := by
  rw [Frag.skipping, run_cell_skip h]
  exact M.cells.run_past c 0 s'

theorem run_skipping_next (h : M.act i s = .ok (.next s')) :
    M.cells.run (Frag.skipping i k c) 0 s = M.cells.run c 0 s' :=
  run_cell_next h

theorem run_branch_taken (h : M.act i s = .ok (.jump k s')) :
    M.cells.run (Frag.branch i ja k c d) 0 s = M.cells.run d 0 s' := by
  rw [Frag.branch, run_cell_skip h, run_append, run_past]
  rfl

/-- The jump behind the first piece takes what falls off its end over the second. -/
theorem run_branch_next (h : M.act i s = .ok (.next s')) (hj : Jumps M ja k) :
    M.cells.run (Frag.branch i ja k c d) 0 s = (M.cells.run c 0 s').bind fun n s =>
      if n = 0 then .past 0 s else M.cells.run d (n - 1) s := by
  rw [Frag.branch, run_cell_next h, run_append]
  congr 1
  funext n s
  cases n with
  | zero =>
    rw [run_cell_skip (hj.act s)]
    exact M.cells.run_past d 0 s
  | succ n => simp

end Machine

section Rules

variable {E : ε → Prop} {P Q S F : σ → Prop} {t u : Tri} {b : Bool}

/-- An instruction that only changes the state. -/
theorem Drops.op {i : ι} (h : ∀ s, P s → ∃ s', M.act i s = .ok (.next s') ∧ S s') :
    Drops M E [.op i] P (some true) S F := by
  intro s hs
  obtain ⟨s', ha, hs'⟩ := h s hs
  exact ⟨s', hs', (Machine.run_next ha).trans (Machine.run_nil ..)⟩

/-- A conditional jump that is taken if and only if `b`. -/
def Tests (M : Machine ι κ σ ε ρ) (i : ι) (k : κ) (P : σ → Prop) (b : Bool) : Prop :=
  ∀ s, P s → M.act i s = .ok (if b then .jump k s else .next s)

theorem Tests.failure (h : Tests M i k P b) (hs : ∀ s, P s → S s) (hf : ∀ s, P s → F s) :
    Drops M E [.hole i k .failure] P (some !b) S F := by
  intro s hp
  have ha := h s hp
  cases b with
  | false => exact ⟨s, hs s hp, (Machine.run_cell_next ha).trans (Machine.run_nil ..)⟩
  | true => exact ⟨s, hf s hp, Machine.run_exit (M := M.cells) ha (by simp)⟩

theorem Tests.success (h : Tests M i k P b) (hs : ∀ s, P s → S s)
    (hc : b = false → Meets M E c P t S F) :
    Meets M E (.hole i k .success :: c) P (Tri.or (some b) t) S F := by
  intro s hp
  have ha := h s hp
  cases b with
  | false =>
    rw [Machine.run_cell_next ha]
    exact hc rfl s hp
  | true => exact ⟨s, hs s hp, .inr (Machine.run_exit (M := M.cells) ha (by simp))⟩

/-- If the jump over `c` is taken the code accepts, else it is `c`. -/
theorem Tests.skipping (h : Tests M i k P b) (hs : ∀ s, P s → S s)
    (hc : b = false → Drops M E c P t S F) :
    Drops M E (Frag.skipping i k c) P (Tri.or (some b) t) S F := by
  intro s hp
  have ha := h s hp
  cases b with
  | false =>
    rw [Machine.run_skipping_next ha]
    exact hc rfl s hp
  | true => exact ⟨s, hs s hp, Machine.run_skipping_taken ha⟩

/-- Two pieces of which one runs. -/
theorem Tests.branch (h : Tests M i k P b) (hj : Jumps M ja k)
    (hc : b = false → Drops M E c P t S F) (hd : b = true → Drops M E d P u S F) :
    Drops M E (Frag.branch i ja k c d) P (bif b then u else t) S F := by
  intro s hp
  have ha := h s hp
  cases b with
  | true =>
    rw [Machine.run_branch_taken ha]
    exact hd rfl s hp
  | false =>
    rw [Machine.run_branch_next ha hj]
    have hr := hc rfl s hp
    rcases t with _ | _ | _
    · obtain ⟨e, he, hr⟩ := hr
      exact ⟨e, he, by rw [hr]; rfl⟩
    · obtain ⟨s', hs', hr⟩ := hr
      exact ⟨s', hs', by rw [hr]; rfl⟩
    · obtain ⟨s', hs', hr⟩ := hr
      exact ⟨s', hs', by rw [hr]; rfl⟩

end Rules

end PktBaffle.Forward
