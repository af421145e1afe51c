import PktBaffle.EbpfCodegen
import PktBaffle.Forward.Branch

namespace PktBaffle.Proofs.Ebpf
open PktBaffle.Ebpf Forward PktBaffle.Extended
open PktBaffle.Classic (LinkType concat)

/-- Code of the generator with its open slots. -/
abbrev Code := Frag Insn Unit

def ops (insns : List Insn) : Code := insns.map .op

/-- A jump that leaves through failure when it is taken. -/
def failing (i : Insn) : Cell Insn Unit := .hole i () .failure

def leaving (i : Insn) : Cell Insn Unit := .hole i () .success

section Monad

variable {α β : Type} {m : Gen α} {k : α → Gen β} {cg cg' : Codegen} {a : α} {e : Error}

theorem bind_run (h : m cg = .ok (a, cg')) : (m >>= k) cg = k a cg' := by
  show (m cg >>= fun p => k p.1 p.2) = _
  rw [h]
  rfl

theorem bind_error (h : m cg = .error e) : (m >>= k) cg = .error e := by
  show (m cg >>= fun p => k p.1 p.2) = _
  rw [h]
  rfl

theorem bind_inv {r : β × Codegen} (h : (m >>= k) cg = .ok r) :
    ∃ a cg', m cg = .ok (a, cg') ∧ k a cg' = .ok r := by
  cases hm : m cg with
  | error e =>
    rw [bind_error hm] at h
    cases h
  | ok p => exact ⟨p.1, p.2, rfl, by rw [← bind_run (k := k) hm]; exact h⟩

theorem bind_error_inv (h : (m >>= k) cg = .error e) :
    m cg = .error e ∨ ∃ a cg', m cg = .ok (a, cg') ∧ k a cg' = .error e := by
  cases hm : m cg with
  | error e' =>
    rw [bind_error hm] at h
    cases h
    exact .inl rfl
  | ok p => exact .inr ⟨p.1, p.2, rfl, by rw [← bind_run (k := k) hm]; exact h⟩

@[simp] theorem pure_run : (pure a : Gen α) cg = .ok (a, cg) := rfl

@[simp] theorem get_bind {k : Codegen → Gen β} : (get >>= k) cg = k cg cg := rfl

@[simp] theorem fail_run {msg : String} : (fail msg : Gen α) cg = .error (.codegenError msg) := rfl

@[simp] theorem fail_bind {msg : String} {k : α → Gen β} :
    ((fail msg : Gen α) >>= k) cg = .error (.codegenError msg) := rfl

@[simp] theorem insnsLen_bind {k : Nat → Gen β} : (insnsLen >>= k) cg = k cg.insns.length cg := rfl

theorem addU32_run {a b : Nat} (h : a + b < 2 ^ 32) : addU32 a b cg = .ok (a + b, cg) := by
  unfold addU32
  rw [if_pos h]
  rfl

theorem addU32_error {a b : Nat} (h : ¬a + b < 2 ^ 32) :
    addU32 a b cg = .error (.panic "attempt to add with overflow") := by
  unfold addU32
  rw [if_neg h]
  rfl

end Monad

/-- The generator with a piece of code behind what it has. -/
def placed (cg : Codegen) (c : Code) : Codegen :=
  { cg with insns := cg.insns ++ c.map (Cell.raw Insn.put) }

@[simp] theorem placed_link (cg : Codegen) (c : Code) : (placed cg c).link = cg.link := rfl

@[simp] theorem placed_nil (cg : Codegen) : placed cg [] = cg := by
  simp [placed]

@[simp] theorem placed_placed (cg : Codegen) (c d : Code) :
    placed (placed cg c) d = placed cg (c ++ d) := by
  simp [placed]

@[simp] theorem placed_length (cg : Codegen) (c : Code) :
    (placed cg c).insns.length = cg.insns.length + c.length := by
  simp [placed]

/-- The open slots of a piece that starts at `n`. -/
def patchesAt (n : Nat) (c : Code) : Patches :=
  ⟨Frag.slots .success n c, Frag.slots .failure n c⟩

theorem Placed.at (cg : Codegen) (c : Code) :
    Placed Insn.put cg.insns (placed cg c).insns (patchesAt cg.insns.length c).success
      (patchesAt cg.insns.length c).failure c :=
  ⟨rfl, fun _ => Iff.rfl, fun _ => Iff.rfl⟩

@[simp] theorem slots_ops (x : Exit) (n : Nat) (is : List Insn) : Frag.slots x n (ops is) = [] := by
  induction is generalizing n with
  | nil => rfl
  | cons i is ih => exact ih (n + 1)

@[simp] theorem slots_failing (n : Nat) (i : Insn) (c : Code) :
    Frag.slots .failure n (failing i :: c) = ((), n) :: Frag.slots .failure (n + 1) c := rfl

@[simp] theorem slots_failing_success (n : Nat) (i : Insn) (c : Code) :
    Frag.slots .success n (failing i :: c) = Frag.slots .success (n + 1) c := rfl

@[simp] theorem slots_leaving (n : Nat) (i : Insn) (c : Code) :
    Frag.slots .success n (leaving i :: c) = ((), n) :: Frag.slots .success (n + 1) c := rfl

@[simp] theorem slots_leaving_failure (n : Nat) (i : Insn) (c : Code) :
    Frag.slots .failure n (leaving i :: c) = Frag.slots .failure (n + 1) c := rfl

@[simp] theorem ops_length (is : List Insn) : (ops is).length = is.length := List.length_map ..

section Push

variable {β : Type} (cg : Codegen)

/-- `push`, in front of a cell whose instruction it is. -/
theorem push_run (a : Cell Insn Unit) (h : ∀ n, a.slot ≠ some ((), .skip n)) :
    push a.insn cg = .ok (cg.insns.length, placed cg [a]) := by
  have hraw : a.raw Insn.put = a.insn := by
    obtain ⟨i, _ | ⟨⟨⟩, n | x⟩⟩ := a
    · rfl
    · exact absurd rfl (h n)
    · rfl
  simp [push, placed, hraw]

theorem push_op (i : Insn) : push i cg = .ok (cg.insns.length, placed cg [.op i]) :=
  push_run cg (.op i) (by simp)

theorem push_failing (i : Insn) : push i cg = .ok (cg.insns.length, placed cg [failing i]) :=
  push_run cg (failing i) (by simp [failing])

theorem push_leaving (i : Insn) : push i cg = .ok (cg.insns.length, placed cg [leaving i]) :=
  push_run cg (leaving i) (by simp [leaving])

theorem pushAll_run (is : List Insn) : pushAll is cg = .ok ((), placed cg (ops is)) := by
  induction is generalizing cg with
  | nil => simp [pushAll, ops]
  | cons i is ih =>
    show (discard (push i) >>= fun _ => pushAll is) cg = _
    have hd : discard (push i) cg = .ok ((), placed cg [.op i]) := by
      show (push i >>= fun _ => pure ()) cg = _
      rw [bind_run (push_op cg i)]
      rfl
    rw [bind_run hd, ih, placed_placed]
    rfl

end Push

section Resolve

variable (cg : Codegen)

theorem resolve_run {q : Patch} {t : Nat} (hlt : q.2 < t) (hle : t - q.2 - 1 ≤ 32767)
    (hin : q.2 < cg.insns.length) :
    resolve q t cg = .ok ((), { cg with insns := patchAll Insn.put [q] t cg.insns }) := by
  unfold resolve
  rw [if_neg (by omega), if_neg (by omega), if_neg (by omega)]
  rfl

theorem resolve_inv {q : Patch} {t : Nat} {r : Unit × Codegen} (h : resolve q t cg = .ok r) :
    q.2 < t ∧ t - q.2 - 1 ≤ 32767 ∧
      r = ((), { cg with insns := patchAll Insn.put [q] t cg.insns }) := by
  unfold resolve at h
  split at h
  · cases h
  · split at h
    · cases h
    · split at h
      · cases h
      · cases h
        refine ⟨by omega, by omega, rfl⟩

theorem resolveAll_run {ps : List Patch} {t : Nat}
    (h : ∀ q ∈ ps, q.2 < t ∧ t - q.2 - 1 ≤ 32767 ∧ q.2 < cg.insns.length) :
    resolveAll ps t cg = .ok ((), { cg with insns := patchAll Insn.put ps t cg.insns }) := by
  induction ps generalizing cg with
  | nil => rfl
  | cons q ps ih =>
    obtain ⟨hlt, hle, hin⟩ := h q List.mem_cons_self
    show (resolve q t >>= fun _ => resolveAll ps t) cg = _
    rw [bind_run (resolve_run cg hlt hle hin), ih]
    · rfl
    · intro r hr
      obtain ⟨h₁, h₂, h₃⟩ := h r (List.mem_cons_of_mem _ hr)
      exact ⟨h₁, h₂, by rw [patchAll_length]; exact h₃⟩

theorem resolveAll_inv {ps : List Patch} {t : Nat} {r : Unit × Codegen}
    (h : resolveAll ps t cg = .ok r) :
    (∀ q ∈ ps, q.2 < t ∧ t - q.2 - 1 ≤ 32767) ∧
      r = ((), { cg with insns := patchAll Insn.put ps t cg.insns }) := by
  induction ps generalizing cg with
  | nil =>
    cases h
    exact ⟨by simp, rfl⟩
  | cons q ps ih =>
    obtain ⟨_, cg₁, h₁, h₂⟩ := bind_inv (m := resolve q t) (k := fun _ => resolveAll ps t) h
    obtain ⟨hlt, hle, he⟩ := resolve_inv cg h₁
    cases he
    obtain ⟨hps, hr⟩ := ih _ h₂
    refine ⟨?_, hr⟩
    intro q' hq'
    rcases List.mem_cons.mp hq' with rfl | hq'
    · exact ⟨hlt, hle⟩
    · exact hps q' hq'

/-- The jump in front of a short piece is led over it. -/
theorem resolve_skipping (c₀ : Code) (i : Insn) (c : Code) (hl : c.length ≤ 32767) {q t : Nat}
    (hq : q = cg.insns.length + c₀.length) (ht : t = cg.insns.length + (c₀.length + (1 + c.length))) :
    resolve ((), q) t (placed cg (c₀ ++ ([.op i] ++ c))) =
      .ok ((), placed cg (c₀ ++ Frag.skipping i () c)) := by
  subst hq ht
  rw [resolve_run _ (by simp only; omega) (by simp only; omega) (by simp)]
  have hp := @Placed.patch_skipping _ _ Insn.put
    (cg.insns ++ c₀.map (Cell.raw Insn.put)) i () (c.map (Cell.raw Insn.put))
  simp only [List.length_append, List.length_map] at hp
  have hraw : Cell.raw Insn.put (Cell.op i : Cell Insn Unit) = i := rfl
  have ht : cg.insns.length + (c₀.length + (1 + c.length)) =
      cg.insns.length + c₀.length + 1 + c.length := by omega
  simp only [placed, List.map_append, List.map_cons, List.map_nil, hraw, ht, ← List.append_assoc]
  rw [hp]
  simp [Frag.skipping, Cell.raw]

/-- The failures of a short piece are led behind the jump that follows it. -/
theorem resolveAll_alt (c : Code) (i : Insn) (hl : c.length ≤ 32767) {t : Nat}
    (ht : t = cg.insns.length + (c.length + 1)) :
    resolveAll (Frag.slots .failure cg.insns.length c) t (placed cg (c ++ [.op i])) =
      .ok ((), placed cg (Frag.resolve .failure 1 c ++ [leaving i])) := by
  subst ht
  rw [resolveAll_run]
  · have hp := patchAll_resolve Insn.put Insn.put_put .failure 1 cg.insns [i] c _
      (fun q => Iff.rfl)
    have hraw : Cell.raw Insn.put (Cell.op i : Cell Insn Unit) = i := rfl
    simp only [placed, List.map_append, List.map_cons, List.map_nil, hraw, ← Nat.add_assoc,
      ← List.append_assoc]
    rw [hp]
    rfl
  · intro q hq
    obtain ⟨j, hj, he, -⟩ := Frag.mem_slots.mp hq
    refine ⟨by omega, by omega, ?_⟩
    simp only [placed_length, List.length_append, List.length_singleton]
    omega

end Resolve

end PktBaffle.Proofs.Ebpf
