import PktBaffle.Proofs.Classic.Asm

namespace PktBaffle.Proofs.Classic
open Bpf Forward PktBaffle.Classic

section Monad

variable {α β : Type} {m : Gen α} {k : α → Gen β} {cg cg' : Codegen} {a : α} {e : Error}

theorem bind_run (h : m cg = .ok (a, cg')) : (m >>= k) cg = k a cg' := by
  show (m cg >>= fun p => k p.1 p.2) = _
  rw [h]
  rfl

theorem bind_error (h : m cg = .error e) : (m >>= k) cg = .error e := by
  show (m cg >>= fun p => k p.1 p.2) = _
  rw [h]
  rfl

theorem bind_inv {r : β × Codegen} (h : (m >>= k) cg = .ok r) :
    ∃ a cg', m cg = .ok (a, cg') ∧ k a cg' = .ok r := by
  cases hm : m cg with
  | error e => rw [bind_error hm] at h; cases h
  | ok p => exact ⟨p.1, p.2, rfl, by rw [← bind_run (k := k) hm]; exact h⟩

@[simp] theorem get_run : (get : Gen Codegen) cg = .ok (cg, cg) := rfl

@[simp] theorem pure_run : (pure a : Gen α) cg = .ok (a, cg) := rfl

@[simp] theorem get_bind {k : Codegen → Gen β} : (get >>= k) cg = k cg cg := rfl

@[simp] theorem pure_bind_run {k : α → Gen β} : (pure a >>= k) cg = k a cg := rfl

@[simp] theorem throw_run : (throw e : Gen α) cg = .error e := rfl

@[simp] theorem throw_bind {k : α → Gen β} : ((throw e : Gen α) >>= k) cg = .error e := rfl

@[simp] theorem fail_run {msg : String} : (fail msg : Gen α) cg = .error (.codegenError msg) := rfl

@[simp] theorem fail_bind {msg : String} {k : α → Gen β} :
    ((fail msg : Gen α) >>= k) cg = .error (.codegenError msg) := rfl

end Monad

/-- The state behind a pushed instruction. -/
def pushed (cg : Codegen) (insn : Insn) : Codegen :=
  { cg with
    insns := cg.insns ++ [insn]
    xWrites := if writesX insn then cg.xWrites + 1 else cg.xWrites
    facts := if writesX insn then { cg.facts with portsReady := none } else cg.facts }

theorem push_run (insn : Insn) (cg : Codegen) :
    push insn cg = .ok (cg.insns.length, pushed cg insn) := by
  unfold push pushed
  cases writesX insn <;> rfl

@[simp] theorem push_bind {β : Type} (insn : Insn) (k : Nat → Gen β) (cg : Codegen) :
    (push insn >>= k) cg = k cg.insns.length (pushed cg insn) := bind_run (push_run insn cg)

@[simp] theorem pushed_insns (cg : Codegen) (insn : Insn) :
    (pushed cg insn).insns = cg.insns ++ [insn] := rfl

@[simp] theorem pushed_skipped (cg : Codegen) (insn : Insn) :
    (pushed cg insn).skipped = cg.skipped := rfl

@[simp] theorem ctxOf_pushed (cg : Codegen) (insn : Insn) :
    ctxOf (pushed cg insn) = (ctxOf cg).push insn := by
  unfold ctxOf pushed Ctx.push
  cases writesX insn <;> rfl

@[simp] theorem ctxOf_netOffset (cg : Codegen) : (ctxOf cg).netOffset = cg.netOffset := rfl

@[simp] theorem ctxOf_etherProtoOffset (cg : Codegen) :
    (ctxOf cg).etherProtoOffset = cg.etherProtoOffset := rfl

@[simp] theorem ctxOf_facts (cg : Codegen) : (ctxOf cg).facts = cg.facts := rfl

@[simp] theorem ctxOf_vlanDepth (cg : Codegen) : (ctxOf cg).vlanDepth = cg.vlanDepth := rfl

@[simp] theorem ctxOf_link (cg : Codegen) : (ctxOf cg).link = cg.link := rfl

@[simp] theorem ctxOf_xWrites (cg : Codegen) : (ctxOf cg).xWrites = cg.xWrites := rfl

namespace Ctx

@[simp] theorem push_link (ctx : Ctx) (i : Insn) : (ctx.push i).link = ctx.link := by
  unfold push; split <;> rfl

@[simp] theorem push_vlanDepth (ctx : Ctx) (i : Insn) : (ctx.push i).vlanDepth = ctx.vlanDepth := by
  unfold push; split <;> rfl

@[simp] theorem after_nil (ctx : Ctx) : ctx.after [] = ctx := rfl

@[simp] theorem after_cons (ctx : Ctx) (a : Cell Insn Slot) (c : Code) :
    ctx.after (a :: c) = (ctx.push a.insn).after c := rfl

theorem after_append (ctx : Ctx) (c d : Code) : ctx.after (c ++ d) = (ctx.after c).after d := by
  simp [after, List.foldl_append]

@[simp] theorem after_link (ctx : Ctx) (c : Code) : (ctx.after c).link = ctx.link := by
  induction c generalizing ctx with
  | nil => rfl
  | cons a c ih => rw [after_cons, ih, push_link]

@[simp] theorem after_vlanDepth (ctx : Ctx) (c : Code) :
    (ctx.after c).vlanDepth = ctx.vlanDepth := by
  induction c generalizing ctx with
  | nil => rfl
  | cons a c ih => rw [after_cons, ih, push_vlanDepth]

theorem after_resolve (ctx : Ctx) (x : Exit) (d : Nat) (c : Code) :
    ctx.after (Frag.resolve x d c) = ctx.after c := by
  induction c generalizing ctx with
  | nil => rfl
  | cons a c ih => simp [Frag.resolve, ih]

end Ctx

/-- What a successful emit has done to the generator state: put the code of a piece behind
what was there, moved on to `ctx'`, and put the left-out checks on record. -/
structure Built (cg cg' : Codegen) (succ fail : List Patch) (p : Piece) (ctx' : Ctx) : Prop where
  placed : Placed Insn.put cg.insns cg'.insns succ fail p.code
  ctx : ctxOf cg' = ctx'
  skips : cg'.skipped = cg.skipped ++ p.skips.map (shift cg.insns.length)

theorem shift_shift (m n : Nat) (s : Skipped) : shift m (shift n s) = shift (m + n) s := by
  simp [shift, Nat.add_assoc]

namespace Built

variable {cg cg₁ cg₂ : Codegen} {s s₁ s₂ f f₁ f₂ : List Patch} {p p₁ p₂ : Piece} {ctx₁ ctx₂ : Ctx}

theorem nil (cg : Codegen) : Built cg cg [] [] .empty (ctxOf cg) :=
  ⟨Placed.nil, rfl, by simp [Piece.empty]⟩

theorem congr {u v : List Patch} (h : Built cg cg₁ s f p ctx₁) (hs : ∀ q, q ∈ u ↔ q ∈ s)
    (hf : ∀ q, q ∈ v ↔ q ∈ f) : Built cg cg₁ u v p ctx₁ :=
  ⟨h.placed.congr hs hf, h.ctx, h.skips⟩

theorem skips_shift (h₁ : Built cg cg₁ s₁ f₁ p₁ ctx₁) (h₂ : Built cg₁ cg₂ s₂ f₂ p₂ ctx₂) :
    cg₂.skipped = cg.skipped ++
      (p₁.skips ++ p₂.skips.map (shift p₁.code.length)).map (shift cg.insns.length) := by
  rw [h₂.skips, h₁.skips, h₁.placed.length, List.append_assoc, List.map_append, List.map_map]
  congr 2
  apply List.map_congr_left
  intro a _
  rw [Function.comp, shift_shift]

theorem append (h₁ : Built cg cg₁ s₁ f₁ p₁ ctx₁) (h₂ : Built cg₁ cg₂ s₂ f₂ p₂ ctx₂) :
    Built cg cg₂ (s₁ ++ s₂) (f₁ ++ f₂) (p₁.append p₂) ctx₂ :=
  ⟨h₁.placed.append h₂.placed, h₂.ctx, h₁.skips_shift h₂⟩

/-- Two pieces neither of which leaves out a check. -/
theorem append_code {c₁ c₂ : Code} (h₁ : Built cg cg₁ s₁ f₁ ⟨c₁, []⟩ ctx₁)
    (h₂ : Built cg₁ cg₂ s₂ f₂ ⟨c₂, []⟩ ctx₂) :
    Built cg cg₂ (s₁ ++ s₂) (f₁ ++ f₂) ⟨c₁ ++ c₂, []⟩ ctx₂ := h₁.append h₂

theorem op (cg : Codegen) (i : Insn) :
    Built cg (pushed cg i) [] [] ⟨[.op i], []⟩ ((ctxOf cg).push i) :=
  ⟨Placed.op i, ctxOf_pushed cg i, by simp⟩

theorem failure (cg : Codegen) (i : Insn) (k : Slot) :
    Built cg (pushed cg i) [] [(k, cg.insns.length)] ⟨[.hole i k .failure], []⟩
      ((ctxOf cg).push i) :=
  ⟨Placed.hole_failure i k, ctxOf_pushed cg i, by simp⟩

theorem success (cg : Codegen) (i : Insn) (k : Slot) :
    Built cg (pushed cg i) [(k, cg.insns.length)] [] ⟨[.hole i k .success], []⟩
      ((ctxOf cg).push i) :=
  ⟨Placed.hole_success i k, ctxOf_pushed cg i, by simp⟩

/-- Instructions pushed one after another, with every slot still open. -/
theorem code (cg : Codegen) (c : Code) (h : ∀ a ∈ c, ∀ k n, a.slot ≠ some (k, .skip n)) :
    Built cg (c.foldl (fun cg a => pushed cg a.insn) cg)
      (Frag.slots .success cg.insns.length c) (Frag.slots .failure cg.insns.length c) ⟨c, []⟩
      ((ctxOf cg).after c) := by
  induction c generalizing cg with
  | nil => exact nil cg
  | cons a c ih =>
    have hhead : Built cg (pushed cg a.insn) (Frag.slots .success cg.insns.length [a])
        (Frag.slots .failure cg.insns.length [a]) ⟨[a], []⟩ ((ctxOf cg).push a.insn) := by
      refine ⟨⟨?_, fun _ => Iff.rfl, fun _ => Iff.rfl⟩, ctxOf_pushed cg a.insn, by simp⟩
      obtain ⟨i, slot⟩ := a
      rcases slot with _ | ⟨k, n | x⟩
      · rfl
      · exact absurd rfl (h _ List.mem_cons_self k n)
      · rfl
    have htail := ih (pushed cg a.insn) (fun b hb => h b (List.mem_cons_of_mem _ hb))
    have hb := hhead.append_code htail
    rw [hhead.ctx] at hb
    have hs : ∀ x, Frag.slots x cg.insns.length (a :: c) = Frag.slots x cg.insns.length [a] ++
        Frag.slots x (pushed cg a.insn).insns.length c := by
      intro x
      rw [← List.singleton_append, Frag.slots_append]
      simp
    rw [hs, hs]
    exact hb

/-- Facts may be changed behind the code. -/
theorem withFacts (h : Built cg cg₁ s f p ctx₁) (g : Facts → Facts) :
    Built cg { cg₁ with facts := g cg₁.facts } s f p (ctx₁.withFacts g) :=
  ⟨h.placed, by rw [← h.ctx]; rfl, h.skips⟩

theorem length (h : Built cg cg₁ s f p ctx₁) :
    cg₁.insns.length = cg.insns.length + p.code.length := h.placed.length

theorem netOffset (h : Built cg cg₁ s f p ctx₁) : cg₁.netOffset = ctx₁.netOffset := by
  rw [← h.ctx]
  rfl

theorem facts (h : Built cg cg₁ s f p ctx₁) : cg₁.facts = ctx₁.facts := by
  rw [← h.ctx]
  rfl

end Built

/-- A check on record, nothing emitted. -/
def skippedAt (cg : Codegen) (check : Check) : Codegen :=
  { cg with skipped := cg.skipped ++ [⟨cg.insns.length, check, cg.vlanDepth⟩] }

@[simp] theorem skip_bind {β : Type} (check : Check) (k : Unit → Gen β) (cg : Codegen) :
    (skip check >>= k) cg = k () (skippedAt cg check) := rfl

theorem Built.skip (cg : Codegen) (check : Check) :
    Built cg (skippedAt cg check) [] [] (.skip check cg.vlanDepth) (ctxOf cg) :=
  ⟨Placed.nil, rfl, by simp [skippedAt, Piece.skip, shift]⟩

@[simp] theorem modifyFacts_bind {β : Type} (g : Facts → Facts) (k : Unit → Gen β) (cg : Codegen) :
    (modifyFacts g >>= k) cg = k () { cg with facts := g cg.facts } := rfl

@[simp] theorem insnsLen_bind {β : Type} (k : Nat → Gen β) (cg : Codegen) :
    (insnsLen >>= k) cg = k cg.insns.length cg := rfl

/-- The patched state. -/
def patched (cg : Codegen) (ps : List Patch) (t : Nat) : Codegen :=
  { cg with insns := patchAll Insn.put ps t cg.insns }

@[simp] theorem ctxOf_patched (cg : Codegen) (ps : List Patch) (t : Nat) :
    ctxOf (patched cg ps t) = ctxOf cg := rfl

/-- A displacement that a slot can hold. -/
def Reaches (ps : List Patch) (t : Nat) : Prop := ∀ q ∈ ps, q.2 < t ∧ t - q.2 - 1 ≤ 255

theorem offset_ok {src dst : Nat} (hlt : src < dst) (hle : dst - src - 1 ≤ 255) :
    offset src dst = .ok (UInt8.ofNat (dst - src - 1)) := by
  unfold offset
  rw [if_neg (by omega), if_neg (by omega)]

theorem offset_inv {src dst : Nat} {off : UInt8} (h : offset src dst = .ok off) :
    src < dst ∧ dst - src - 1 ≤ 255 := by
  unfold offset at h
  split at h
  · cases h
  · split at h
    · cases h
    · omega

theorem resolve_run {q : Patch} {t : Nat} (cg : Codegen) (hlt : q.2 < t) (hle : t - q.2 - 1 ≤ 255) :
    resolve q t cg = .ok ((), patched cg [q] t) := by
  unfold resolve
  rw [offset_ok hlt hle]
  have hn : (UInt8.ofNat (t - q.2 - 1)).toNat = t - q.2 - 1 := by
    rw [UInt8.toNat_ofNat']
    exact Nat.mod_eq_of_lt (by omega)
  show Except.ok _ = _
  simp only [hn]
  rfl

theorem resolve_inv {q : Patch} {t : Nat} {cg : Codegen} {r : Unit × Codegen}
    (h : resolve q t cg = .ok r) : q.2 < t ∧ t - q.2 - 1 ≤ 255 := by
  unfold resolve at h
  cases ho : offset q.2 t with
  | error e => rw [ho] at h; cases h
  | ok off => exact offset_inv ho

theorem resolveAll_run {ps : List Patch} {t : Nat} (cg : Codegen) (h : Reaches ps t) :
    resolveAll ps t cg = .ok ((), patched cg ps t) := by
  induction ps generalizing cg with
  | nil => rfl
  | cons q ps ih =>
    obtain ⟨hlt, hle⟩ := h q List.mem_cons_self
    show (resolve q t >>= fun _ => resolveAll ps t) cg = _
    rw [bind_run (resolve_run cg hlt hle), ih _ (fun r hr => h r (List.mem_cons_of_mem _ hr))]
    rfl

theorem resolveAll_inv {ps : List Patch} {t : Nat} {cg : Codegen} {r : Unit × Codegen}
    (h : resolveAll ps t cg = .ok r) : Reaches ps t ∧ r = ((), patched cg ps t) := by
  have hreach : Reaches ps t := by
    induction ps generalizing cg with
    | nil => intro q hq; cases hq
    | cons q ps ih =>
      obtain ⟨_, cg₁, h₁, h₂⟩ := bind_inv (m := resolve q t) (k := fun _ => resolveAll ps t) h
      intro q' hq'
      rcases List.mem_cons.mp hq' with rfl | hq'
      · exact resolve_inv h₁
      · exact ih h₂ q' hq'
  refine ⟨hreach, ?_⟩
  rw [resolveAll_run cg hreach, Except.ok.injEq] at h
  exact h.symm

/-- A left operand and a right one that its success jumps lead to. -/
theorem Built.seq {cg cg₁ m cg₂ : Codegen} {s₁ f₁ s₂ f₂ : List Patch} {p₁ p₂ : Piece}
    {ctx₁ ctx₂ : Ctx} (h₁ : Built cg cg₁ s₁ f₁ p₁ ctx₁)
    (hm : m.insns = patchAll Insn.put s₁ cg₁.insns.length cg₁.insns)
    (hs : m.skipped = cg₁.skipped) (h₂ : Built m cg₂ s₂ f₂ p₂ ctx₂) :
    Built cg cg₂ s₂ (f₁ ++ f₂) (p₁.seq p₂) ctx₂ := by
  have hplaced := h₂.placed
  rw [hm] at hplaced
  refine ⟨Placed.seq Insn.put_put h₁.placed hplaced, h₂.ctx, ?_⟩
  rw [h₂.skips, hm, patchAll_length, hs, h₁.skips, h₁.placed.length, List.append_assoc, Piece.seq,
    List.map_append, List.map_map]
  congr 2
  apply List.map_congr_left
  intro a _
  rw [Function.comp, shift_shift]

/-- What is not code or history may change. -/
theorem Built.reframe {cg cg₁ m : Codegen} {s f : List Patch} {p : Piece} {ctx₁ : Ctx}
    (h : Built cg cg₁ s f p ctx₁) (hi : m.insns = cg₁.insns) (hs : m.skipped = cg₁.skipped) :
    Built cg m s f p (ctxOf m) :=
  ⟨hi ▸ h.placed, rfl, hs ▸ h.skips⟩

/-- A left operand, the jump behind it, and a right operand that its failures lead to. -/
theorem Built.alt {cg cg₁ m cg₂ : Codegen} {s₁ f₁ s₂ f₂ : List Patch} {p₁ p₂ : Piece}
    {ctx₁ ctx₂ : Ctx} (h₁ : Built cg cg₁ s₁ f₁ p₁ ctx₁) (hm : m.insns = cg₁.insns ++ [.ja 0])
    (hs : m.skipped = cg₁.skipped)
    (h₂ : Built (patched m f₁ (cg₁.insns.length + 1)) cg₂ s₂ f₂ p₂ ctx₂) :
    Built cg cg₂ (s₁ ++ (.ja, cg₁.insns.length) :: s₂) f₂ (p₁.alt p₂) ctx₂ := by
  have hplaced := h₂.placed
  simp only [patched, hm] at hplaced
  refine ⟨Placed.alt Insn.put_put h₁.placed hplaced, h₂.ctx, ?_⟩
  have hlen : (patched m f₁ (cg₁.insns.length + 1)).insns.length =
      cg.insns.length + (p₁.code.length + 1) := by
    simp only [patched, patchAll_length, hm, List.length_append, List.length_singleton,
      h₁.length]
    omega
  rw [h₂.skips, hlen]
  show m.skipped ++ _ = _
  rw [hs, h₁.skips, List.append_assoc, Piece.alt, List.map_append, List.map_map]
  congr 2
  apply List.map_congr_left
  intro a _
  rw [Function.comp, shift_shift]

/-- An operand and the jump behind it, which its failures are led over. -/
theorem Built.neg {cg cg₁ m : Codegen} {s₁ f₁ : List Patch} {p₁ : Piece} {ctx₁ : Ctx}
    (h₁ : Built cg cg₁ s₁ f₁ p₁ ctx₁) (hm : m.insns = cg₁.insns ++ [.ja 0])
    (hs : m.skipped = cg₁.skipped) :
    Built cg (patched m f₁ (cg₁.insns.length + 1)) [] (s₁ ++ [(.ja, cg₁.insns.length)])
      p₁.neg (ctxOf m) := by
  have hplaced := Placed.neg Insn.put_put (j := .ja 0) (k := .ja) h₁.placed
  refine ⟨?_, rfl, ?_⟩
  · simp only [patched, hm]
    exact hplaced
  · show m.skipped = _
    rw [hs, h₁.skips]
    rfl

/-- Slots of a short piece reach a target just behind it. -/
theorem Built.reaches {cg cg₁ : Codegen} {s f : List Patch} {p : Piece} {ctx₁ : Ctx}
    (h : Built cg cg₁ s f p ctx₁) (d : Nat) (hl : p.code.length + d ≤ 256) :
    Reaches s (cg₁.insns.length + d) ∧ Reaches f (cg₁.insns.length + d) := by
  have hlen := h.length
  constructor
  · intro q hq
    obtain ⟨j, hj, he, _⟩ := Frag.mem_slots.mp ((h.placed.success q).mp hq)
    omega
  · intro q hq
    obtain ⟨j, hj, he, _⟩ := Frag.mem_slots.mp ((h.placed.failure q).mp hq)
    omega

end PktBaffle.Proofs.Classic
