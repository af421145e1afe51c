import PktBaffle.Proofs.Classic.Shape

namespace PktBaffle.Proofs.Classic
open Bpf Forward PktBaffle.Classic

/-- Every jump the generator resolves inside an expression fits the width of its slot, and
the link layer can carry every guard and primitive. -/
def Compiles (mode : HoistMode) : Expr → Ctx → Prop
  | .primitive p, ctx => primOk p ctx.link = true
  | .and l r, ctx =>
    Compiles mode l ctx ∧ Frag.Within 255 (Frag.resolve .success 0 (asm mode l ctx).1.code) ∧
      Compiles mode r ((asm mode l ctx).2.bump (leadsVlan l))
  | .or l r, ctx =>
    let ctx0 := (asmGuards (frontGuards mode l r ctx.link) ctx).2
    GuardsOk (frontGuards mode l r ctx.link) ctx.link ∧ Compiles mode l ctx0 ∧
      Frag.Within 255 (Frag.resolve .failure 1 (asm mode l ctx0).1.code) ∧
      Compiles mode r ((asm mode l ctx0).2.restore ctx0)
  | .not e, ctx =>
    Compiles mode e ctx ∧ Frag.Within 255 (Frag.resolve .failure 1 (asm mode e ctx).1.code)

/-- The code of a whole filter: behind the expression stand the two returns. -/
def program (c : Code) : Code :=
  Frag.resolve .failure 1 (Frag.resolve .success 0 c) ++
    ops [.retK bpfAccept, .retK bpfDrop]

theorem emitLoop_turn (mode : HoistMode) (fuel : Nat) (step : Work) (work : List Work)
    (done : List (Patches × Bool)) (guards : GuardMemo) (cg : Codegen) :
    emitLoop mode (fuel + 1) ⟨step :: work, done, guards⟩ cg =
      (emitStep mode step ⟨work, done, guards⟩ >>= emitLoop mode fuel) cg := rfl

section Widths

variable {c : Code} {x : Exit} {w b d : Nat}

/-- What is resolved in a bounded fragment reaches its target. -/
theorem reaches_of_within {ps : List Patch} (hps : ∀ q, q ∈ ps ↔ q ∈ Frag.slots x b c)
    (h : Frag.Within 255 (Frag.resolve x d c)) : Reaches ps (b + c.length + d) := by
  intro q hq
  obtain ⟨j, hj, he, hs⟩ := Frag.mem_slots.mp ((hps q).mp hq)
  have hget := Frag.resolve_get x d c j hj
  have hle := h _ (List.mem_of_getElem? hget) q.1 (c.length - j - 1 + d) (by
    simp [Cell.fill, hs])
  omega

theorem within_of_reaches {ps : List Patch} (hps : ∀ q, q ∈ ps ↔ q ∈ Frag.slots x b c)
    (hc : Frag.Within 255 c) (h : Reaches ps (b + c.length + d)) :
    Frag.Within 255 (Frag.resolve x d c) :=
  hc.resolve (fun q hq => (h q ((hps q).mpr hq)).2)

end Widths

/-- A resolve either patches every slot or is an error. -/
theorem resolveAll_or {p : List Patch} {t : Nat} (cg : Codegen) :
    (Reaches p t ∧ resolveAll p t cg = .ok ((), patched cg p t)) ∨
      (¬ Reaches p t ∧ ∃ e, resolveAll p t cg = .error e) := by
  by_cases h : Reaches p t
  · exact .inl ⟨h, resolveAll_run cg h⟩
  · refine .inr ⟨h, ?_⟩
    cases hr : resolveAll p t cg with
    | error e => exact ⟨e, rfl⟩
    | ok r => exact absurd (resolveAll_inv hr).1 h

/-- What compiles fits its slots. -/
theorem Compiles.within {mode : HoistMode} {e : Expr} {ctx : Ctx} (h : Compiles mode e ctx) :
    Frag.Within 255 (asm mode e ctx).1.code := by
  induction e generalizing ctx with
  | primitive p => exact asmPrimitive_within p ctx
  | and l r hl hr => exact h.2.1.append (hr h.2.2)
  | or l r hl hr =>
    obtain ⟨-, -, hw, hcr⟩ := h
    refine (asmGuards_within _ _).append (hw.append (Frag.Within.cons ?_ (hr hcr)))
    simp [Piece.jaCell]
  | not e ih =>
    refine h.2.fold.append (Frag.Within.cons ?_ Frag.within_nil)
    simp [Piece.jaCell]

section Loop

variable {mode : HoistMode}

/-- The turns of the loop for one expression: they leave its patches on top of the done
stack, with the code of `asm` emitted, exactly if the expression compiles. -/
def Turns (mode : HoistMode) (e : Expr) : Prop :=
  ∀ root (n : Node) work done guards cg, n.expr = e → In root n → MemoOk root guards →
    (ctxOf cg).Ok →
    (Compiles mode e (ctxOf cg) ∧ ∃ q cg' guards', MemoOk root guards' ∧
      (∀ fuel, emitLoop mode (emitFuel e + fuel) ⟨.emit n :: work, done, guards⟩ cg =
        emitLoop mode fuel ⟨work, (q, leadsVlan e) :: done, guards'⟩ cg') ∧
      Built cg cg' q.success q.failure (asm mode e (ctxOf cg)).1 (asm mode e (ctxOf cg)).2) ∨
    (¬ Compiles mode e (ctxOf cg) ∧ ∃ err, ∀ fuel,
      emitLoop mode (emitFuel e + fuel) ⟨.emit n :: work, done, guards⟩ cg = .error err)

theorem turns_primitive (p : Primitive) : Turns mode (.primitive p) := by
  rintro root ⟨addr, _⟩ work done guards cg rfl hn hm hok
  have hturn : ∀ fuel, emitLoop mode (emitFuel (.primitive p) + fuel)
      ⟨.emit ⟨addr, .primitive p⟩ :: work, done, guards⟩ cg =
      ((emitPrimitive p >>= fun q => pure (⟨work, (q, p.isVlan) :: done, guards⟩ : Walk)) >>=
        emitLoop mode fuel) cg := by
    intro fuel
    rw [emitFuel, Nat.add_comm]
    rfl
  cases hp : primOk p cg.link with
  | true =>
    obtain ⟨q, cg', hr, hb⟩ := emitPrimitive_emits hp hok
    refine .inl ⟨hp, q, cg', guards, hm, fun fuel => ?_, hb⟩
    rw [hturn, bind_run (by rw [bind_run hr]; rfl)]
    rfl
  | false =>
    obtain ⟨e, he⟩ := emitPrimitive_error hp
    refine .inr ⟨fun h => ?_, e, fun fuel => ?_⟩
    · have h' : primOk p cg.link = true := h
      rw [hp] at h'
      cases h'
    · rw [hturn, bind_error (bind_error he)]

/-- The state with the depth counted up, and down again. -/
def bumped (cg : Codegen) (b : Bool) : Codegen :=
  { cg with vlanDepth := if b then cg.vlanDepth + 1 else cg.vlanDepth }

def unbumped (cg : Codegen) (b : Bool) : Codegen :=
  { cg with vlanDepth := if b then cg.vlanDepth - 1 else cg.vlanDepth }

theorem bumpDepth_run (b : Bool) (cg : Codegen) : bumpDepth b cg = .ok ((), bumped cg b) := rfl

theorem turns_and {l r : Expr} (hl : Turns mode l) (hr : Turns mode r) :
    Turns mode (.and l r) := by
  rintro root ⟨addr, _⟩ work done guards cg rfl hn hm hok
  have hturn : ∀ fuel, emitLoop mode (emitFuel (.and l r) + fuel)
      ⟨.emit ⟨addr, .and l r⟩ :: work, done, guards⟩ cg =
      emitLoop mode (emitFuel l + (emitFuel r + (fuel + 1) + 1))
        ⟨.emit (.below addr .left l) :: .andRight (.below addr .right r) :: work, done, guards⟩ cg := by
    intro fuel
    have hsplit : emitFuel (.and l r) + fuel =
        emitFuel l + (emitFuel r + (fuel + 1) + 1) + 1 := by
      simp only [emitFuel]
      omega
    rw [hsplit]
    rfl
  rcases hl root (.below addr .left l) (.andRight (.below addr .right r) :: work) done guards cg
    rfl (hn.below (c := .left) rfl) hm hok with
    ⟨hc₁, q₁, cg₁, guards₁, hm₁, hrun₁, hb₁⟩ | ⟨hc₁, err, hrun₁⟩
  · have hright : ∀ fuel, emitLoop mode (fuel + 1)
        ⟨.andRight (.below addr .right r) :: work, (q₁, leadsVlan l) :: done, guards₁⟩ cg₁ =
        (resolveAll q₁.success cg₁.insns.length >>= fun _ => bumpDepth (leadsVlan l) >>= fun _ =>
          emitLoop mode fuel ⟨.emit (.below addr .right r) :: .andDone q₁.failure (leadsVlan l) ::
            work, done, guards₁⟩)
          cg₁ := by
      intro fuel
      rw [emitLoop_turn]
      simp only [emitStep, bind_assoc, insnsLen_bind, pure_bind]
    rcases resolveAll_or (p := q₁.success) (t := cg₁.insns.length) cg₁ with
      ⟨hreach, hres⟩ | ⟨hreach, e, hres⟩
    · obtain ⟨mid, hmid⟩ : ∃ mid : Codegen,
          mid = bumped (patched cg₁ q₁.success cg₁.insns.length) (leadsVlan l) := ⟨_, rfl⟩
      have hctx : ctxOf mid = (asm mode l (ctxOf cg)).2.bump (leadsVlan l) := by
        rw [← hb₁.ctx, hmid]
        rfl
      have hokm : (ctxOf mid).Ok := by
        rw [hctx]
        exact bump_ok (asm_ok mode l hok) _
      have hw : Frag.Within 255 (Frag.resolve .success 0 (asm mode l (ctxOf cg)).1.code) := by
        refine within_of_reaches hb₁.placed.success hc₁.within ?_
        rw [Nat.add_zero, ← hb₁.length]
        exact hreach
      rcases hr root (.below addr .right r)
        (.andDone q₁.failure (leadsVlan l) :: work) done guards₁ mid rfl
        (hn.below (c := .right) rfl) hm₁ hokm with
        ⟨hc₂, q₂, cg₂, guards₂, hm₂, hrun₂, hb₂⟩ | ⟨hc₂, err, hrun₂⟩
      · rw [hctx] at hc₂ hb₂
        refine .inl ⟨⟨hc₁, hw, hc₂⟩, ⟨q₂.success, concat q₁.failure q₂.failure⟩,
          unbumped cg₂ (leadsVlan l), guards₂, hm₂, fun fuel => ?_, ?_⟩
        · rw [hturn, hrun₁, hright, bind_run hres]
          rw [bind_run (bumpDepth_run _ _), ← hmid, hrun₂, emitLoop_turn]
          rfl
        · have hseq := hb₁.seq (m := mid) (by rw [hmid]; rfl) (by rw [hmid]; rfl) hb₂
          have hfin := (hseq.congr (u := q₂.success) (v := concat q₁.failure q₂.failure)
            (fun _ => Iff.rfl) (fun _ => mem_concat)).reframe
            (m := unbumped cg₂ (leadsVlan l)) rfl rfl
          have hctx₂ : ctxOf (unbumped cg₂ (leadsVlan l)) =
              (asm mode (.and l r) (ctxOf cg)).2 := by
            show (ctxOf cg₂).unbump (leadsVlan l) = _
            rw [hb₂.ctx]
            rfl
          rw [hctx₂] at hfin
          exact hfin
      · rw [hctx] at hc₂
        refine .inr ⟨fun h => hc₂ h.2.2, err, fun fuel => ?_⟩
        rw [hturn, hrun₁, hright, bind_run hres]
        rw [bind_run (bumpDepth_run _ _), ← hmid, hrun₂]
    · refine .inr ⟨fun h => hreach ?_, e, fun fuel => ?_⟩
      · have hreach' := reaches_of_within hb₁.placed.success h.2.1
        rw [Nat.add_zero, ← hb₁.length] at hreach'
        exact hreach'
      · rw [hturn, hrun₁, hright, bind_error hres]
  · refine .inr ⟨fun h => hc₁ h.1, err, fun fuel => ?_⟩
    rw [hturn, hrun₁]

/-- The state behind an arm, with the facts of before it and the jump over what follows. -/
def rejoined (cg : Codegen) (facts : Facts) (xWritesBefore : Nat) : Codegen :=
  { cg with
    insns := cg.insns ++ [.ja 0]
    facts := if cg.xWrites ≠ xWritesBefore then { facts with portsReady := none } else facts }

/-- `restore`, the jump, and the failure slots led behind it. -/
theorem rejoin_run {β : Type} (cg : Codegen) (facts : Facts) (n : Nat) (k : Nat → Nat → Gen β) :
    (restore facts n >>= fun _ => push (.ja 0) >>= fun j => insnsLen >>= fun t => k j t) cg =
      k cg.insns.length (cg.insns.length + 1) (rejoined cg facts n) := by
  show k cg.insns.length (cg.insns ++ [Insn.ja 0]).length _ = _
  rw [List.length_append]
  rfl

theorem ctxOf_rejoined (cg cg₀ : Codegen) :
    ctxOf (rejoined cg cg₀.facts cg₀.xWrites) = (ctxOf cg).restore (ctxOf cg₀) := rfl

theorem turns_not {e : Expr} (he : Turns mode e) : Turns mode (.not e) := by
  rintro root ⟨addr, _⟩ work done guards cg rfl hn hm hok
  have hturn : ∀ fuel, emitLoop mode (emitFuel (.not e) + fuel)
      ⟨.emit ⟨addr, .not e⟩ :: work, done, guards⟩ cg =
      emitLoop mode (emitFuel e + (fuel + 1))
        ⟨.emit (.below addr .inner e) :: .notDone cg.facts cg.xWrites :: work, done, guards⟩ cg := by
    intro fuel
    have hsplit : emitFuel (.not e) + fuel = emitFuel e + (fuel + 1) + 1 := by
      simp only [emitFuel]
      omega
    rw [hsplit]
    rfl
  rcases he root (.below addr .inner e) (.notDone cg.facts cg.xWrites :: work) done guards cg
    rfl (hn.below (c := .inner) rfl) hm hok with
    ⟨hc₁, q₁, cg₁, guards₁, hm₁, hrun₁, hb₁⟩ | ⟨hc₁, err, hrun₁⟩
  · have hdone : ∀ fuel, emitLoop mode (fuel + 1)
        ⟨.notDone cg.facts cg.xWrites :: work, (q₁, leadsVlan e) :: done, guards₁⟩ cg₁ =
        (resolveAll q₁.failure (cg₁.insns.length + 1) >>= fun _ => emitLoop mode fuel
          ⟨work, (⟨[], q₁.success ++ [(.ja, cg₁.insns.length)]⟩, false) :: done, guards₁⟩)
          (rejoined cg₁ cg.facts cg.xWrites) := by
      intro fuel
      rw [emitLoop_turn]
      simp only [emitStep, bind_assoc, pure_bind]
      exact rejoin_run cg₁ _ _ _
    rcases resolveAll_or (p := q₁.failure) (t := cg₁.insns.length + 1)
        (rejoined cg₁ cg.facts cg.xWrites) with ⟨hreach, hres⟩ | ⟨hreach, e', hres⟩
    · have hw : Frag.Within 255 (Frag.resolve .failure 1 (asm mode e (ctxOf cg)).1.code) := by
        refine within_of_reaches hb₁.placed.failure hc₁.within ?_
        rw [← hb₁.length]
        exact hreach
      have hb := hb₁.neg (m := rejoined cg₁ cg.facts cg.xWrites) rfl rfl
      rw [ctxOf_rejoined, hb₁.ctx] at hb
      refine .inl ⟨⟨hc₁, hw⟩, ⟨[], q₁.success ++ [(.ja, cg₁.insns.length)]⟩,
        patched (rejoined cg₁ cg.facts cg.xWrites) q₁.failure (cg₁.insns.length + 1), guards₁, hm₁,
        fun fuel => ?_, hb⟩
      rw [hturn, hrun₁, hdone, bind_run hres]
      rfl
    · refine .inr ⟨fun h => hreach ?_, e', fun fuel => ?_⟩
      · have hreach' := reaches_of_within hb₁.placed.failure h.2
        rw [← hb₁.length] at hreach'
        exact hreach'
      · rw [hturn, hrun₁, hdone, bind_error hres]
  · refine .inr ⟨fun h => hc₁ h.1, err, fun fuel => ?_⟩
    rw [hturn, hrun₁]

theorem turns_or {l r : Expr} (hl : Turns mode l) (hr : Turns mode r) : Turns mode (.or l r) := by
  rintro root ⟨addr, _⟩ work done guards cg rfl hn hm hok
  have hsplit : ∀ fuel, emitFuel (.or l r) + fuel =
      emitFuel l + (emitFuel r + (fuel + 1) + 1) + 1 := by
    intro fuel
    simp only [emitFuel]
    omega
  have hturn : ∀ fuel, emitLoop mode (emitFuel (.or l r) + fuel)
      ⟨.emit ⟨addr, .or l r⟩ :: work, done, guards⟩ cg =
      (emitOrFront mode (.below addr .left l) (.below addr .right r) guards >>= fun q => get >>= fun cg' =>
        emitLoop mode (emitFuel l + (emitFuel r + (fuel + 1) + 1))
          ⟨.emit (.below addr .left l) :: .orRight (.below addr .right r) q.1 cg'.facts
            cg'.xWrites :: work, done, q.2⟩) cg := by
    intro fuel
    rw [hsplit, emitLoop_turn]
    simp only [emitStep, bind_assoc, pure_bind]
  rcases emitOrFront_or mode hok (hn.below (c := .left) (e := l) rfl)
      (hn.below (c := .right) (e := r) rfl) hm with
    ⟨hg, f₀, guards₀, cg₀, hm₀, hr₀, hb₀⟩ | ⟨hg, err, he⟩
  · have hok₀ : (ctxOf cg₀).Ok := hb₀.ctx ▸ asmGuards_ok _ hok
    rcases hl root (.below addr .left l)
      (.orRight (.below addr .right r) f₀ cg₀.facts cg₀.xWrites :: work) done guards₀ cg₀ rfl
      (hn.below (c := .left) rfl) hm₀ hok₀ with
      ⟨hc₁, q₁, cg₁, guards₁, hm₁, hrun₁, hb₁⟩ | ⟨hc₁, err, hrun₁⟩
    · have hright : ∀ fuel, emitLoop mode (fuel + 1)
          ⟨.orRight (.below addr .right r) f₀ cg₀.facts cg₀.xWrites :: work, (q₁, leadsVlan l) :: done, guards₁⟩ cg₁ =
          (resolveAll q₁.failure (cg₁.insns.length + 1) >>= fun _ => emitLoop mode fuel
            ⟨.emit (.below addr .right r) :: .orDone q₁.success cg₁.insns.length cg₁.facts f₀ :: work,
              done, guards₁⟩)
            (rejoined cg₁ cg₀.facts cg₀.xWrites) := by
        intro fuel
        rw [emitLoop_turn]
        simp only [emitStep, bind_assoc, pure_bind, get_bind]
        exact rejoin_run cg₁ _ _ _
      rcases resolveAll_or (p := q₁.failure) (t := cg₁.insns.length + 1)
          (rejoined cg₁ cg₀.facts cg₀.xWrites) with ⟨hreach, hres⟩ | ⟨hreach, e', hres⟩
      · obtain ⟨mid, hmid⟩ : ∃ mid, mid = patched (rejoined cg₁ cg₀.facts cg₀.xWrites) q₁.failure
            (cg₁.insns.length + 1) := ⟨_, rfl⟩
        have hctx : ctxOf mid = (asm mode l (ctxOf cg₀)).2.restore (ctxOf cg₀) := by
          rw [hmid, ctxOf_patched, ctxOf_rejoined, hb₁.ctx]
        have hokm : (ctxOf mid).Ok := by
          rw [hctx]
          exact restore_ok hok₀ (asm_frame mode l _).1
        have hw : Frag.Within 255 (Frag.resolve .failure 1 (asm mode l (ctxOf cg₀)).1.code) := by
          refine within_of_reaches hb₁.placed.failure hc₁.within ?_
          rw [← hb₁.length]
          exact hreach
        rcases hr root (.below addr .right r)
            (.orDone q₁.success cg₁.insns.length cg₁.facts f₀ :: work) done guards₁ mid rfl
            (hn.below (c := .right) rfl) hm₁ hokm with ⟨hc₂, q₂, cg₂, guards₂, hm₂, hrun₂, hb₂⟩ | ⟨hc₂, err, hrun₂⟩
        · rw [hctx] at hc₂ hb₂
          rw [hb₀.ctx] at hc₁ hw hc₂
          refine .inl ⟨⟨hg, hc₁, hw, hc₂⟩, ⟨concat (q₁.success ++ [(.ja, cg₁.insns.length)])
            q₂.success, concat q₂.failure f₀⟩,
            { cg₂ with facts := Facts.meet cg₁.facts cg₂.facts }, guards₂, hm₂, fun fuel => ?_, ?_⟩
          · rw [hturn, bind_run hr₀, get_bind, hrun₁, hright, bind_run hres, ← hmid, hrun₂,
              emitLoop_turn]
            rfl
          · rw [hmid] at hb₂
            have halt := hb₁.alt (m := rejoined cg₁ cg₀.facts cg₀.xWrites) rfl rfl hb₂
            have hb := ((hb₀.append halt).withFacts (Facts.meet cg₁.facts)).congr
              (u := concat (q₁.success ++ [(.ja, cg₁.insns.length)]) q₂.success)
              (v := concat q₂.failure f₀) (fun q => by simp [mem_concat])
              (fun q => by simp [mem_concat, or_comm])
            rw [hb₁.facts, hb₀.ctx] at hb ⊢
            exact hb
        · rw [hctx, hb₀.ctx] at hc₂
          refine .inr ⟨fun h => hc₂ h.2.2.2, err, fun fuel => ?_⟩
          rw [hturn, bind_run hr₀, get_bind, hrun₁, hright, bind_run hres, ← hmid, hrun₂]
      · refine .inr ⟨fun h => hreach ?_, e', fun fuel => ?_⟩
        · have hps := hb₁.placed.failure
          have hlen := hb₁.length
          rw [hb₀.ctx] at hps hlen
          have hreach' := reaches_of_within hps h.2.2.1
          rw [← hlen] at hreach'
          exact hreach'
        · rw [hturn, bind_run hr₀, get_bind, hrun₁, hright, bind_error hres]
    · rw [hb₀.ctx] at hc₁
      refine .inr ⟨fun h => hc₁ h.2.1, err, fun fuel => ?_⟩
      rw [hturn, bind_run hr₀, get_bind, hrun₁]
  · refine .inr ⟨fun h => hg h.1, err, fun fuel => ?_⟩
    rw [hturn, bind_error he]

theorem turns (mode : HoistMode) (e : Expr) : Turns mode e := by
  induction e with
  | primitive p => exact turns_primitive p
  | and l r hl hr => exact turns_and hl hr
  | or l r hl hr => exact turns_or hl hr
  | not e he => exact turns_not he

end Loop

/-- An expression and the final resolves fit. -/
def Links (mode : HoistMode) (e : Expr) (link : LinkType) : Prop :=
  let c := (asm mode e (Ctx.start link)).1.code
  Compiles mode e (Ctx.start link) ∧ Frag.Within 255 (Frag.resolve .success 0 c) ∧
    Frag.Within 255 (Frag.resolve .failure 1 c)

/-- The code the generator hands to the peephole passes. -/
def assembled (mode : HoistMode) (e : Expr) (link : LinkType) : List Insn :=
  (program (asm mode e (Ctx.start link)).1.code).map (Cell.raw Insn.put)

theorem emitExpr_run (mode : HoistMode) {e : Expr} (cg : Codegen) (hok : (ctxOf cg).Ok) :
    (Compiles mode e (ctxOf cg) ∧ ∃ q cg', emitExpr mode e cg = .ok (q, cg') ∧
      Built cg cg' q.success q.failure (asm mode e (ctxOf cg)).1 (asm mode e (ctxOf cg)).2) ∨
    (¬ Compiles mode e (ctxOf cg) ∧ ∃ err, emitExpr mode e cg = .error err) := by
  rcases turns mode e e ⟨[], e⟩ [] [] [] cg rfl (in_root e) (memoOk_nil e) hok with
    ⟨hc, q, cg', guards', -, hrun, hb⟩ | ⟨hc, err, hrun⟩
  · refine .inl ⟨hc, q, cg', ?_, hb⟩
    have hloop : emitLoop mode (emitFuel e) ⟨[.emit ⟨[], e⟩], [], []⟩ cg =
        .ok (⟨[], [(q, leadsVlan e)], guards'⟩, cg') := hrun 0
    unfold emitExpr
    rw [bind_run hloop]
    rfl
  · refine .inr ⟨hc, err, ?_⟩
    have hloop : emitLoop mode (emitFuel e) ⟨[.emit ⟨[], e⟩], [], []⟩ cg = .error err := hrun 0
    unfold emitExpr
    rw [bind_error hloop]

/-- Patching both lists at the end of the program is resolving both exits. -/
theorem patch_program {c : Code} {s f : List Patch} (hs : ∀ q, q ∈ s ↔ q ∈ Frag.slots .success 0 c)
    (hf : ∀ q, q ∈ f ↔ q ∈ Frag.slots .failure 0 c) :
    patchAll Insn.put f (c.length + 1) (patchAll Insn.put s c.length
      (c.map (Cell.raw Insn.put) ++ [.retK bpfAccept, .retK bpfDrop])) =
      (program c).map (Cell.raw Insn.put) := by
  have h₁ := patchAll_resolve Insn.put Insn.put_put .success 0 [] [.retK bpfAccept, .retK bpfDrop]
    c s hs
  simp only [List.length_nil, Nat.zero_add, Nat.add_zero, List.nil_append] at h₁
  have hf' : ∀ q, q ∈ f ↔ q ∈ Frag.slots .failure ([] : List Insn).length
      (Frag.resolve .success 0 c) := by
    intro q
    rw [Frag.slots_resolve_other (by decide), hf]
    rfl
  have h₂ := patchAll_resolve Insn.put Insn.put_put .failure 1 [] [.retK bpfAccept, .retK bpfDrop]
    (Frag.resolve .success 0 c) f hf'
  simp only [List.length_nil, Nat.zero_add, List.nil_append, Frag.resolve_length] at h₂
  rw [h₁, h₂]
  simp [program, ops, Cell.raw]

/-- The generator emits the assembled code exactly if everything fits, and is an error
otherwise. -/
theorem emitted_or (mode : HoistMode) (e : Expr) (link : LinkType) :
    (Links mode e link ∧ ∃ cg, emitted mode e link = .ok cg ∧ cg.insns = assembled mode e link ∧
      cg.skipped = (asm mode e (Ctx.start link)).1.skips) ∨
    (¬ Links mode e link ∧ ∃ err, emitted mode e link = .error err) := by
  have hmap : ∀ r, emitProgram mode e (Codegen.new link) = r →
      emitted mode e link = r.map Prod.snd := fun r h => by rw [emitted, h]
  have fails : ∀ err, emitProgram mode e (Codegen.new link) = .error err →
      ∃ err, emitted mode e link = .error err := fun err h => ⟨err, hmap _ h⟩
  rcases emitExpr_run mode (e := e) (Codegen.new link) (start_ok link) with
    ⟨hc, q, cg, hr, hb'⟩ | ⟨hc, err, hr⟩
  · have hb : Built (Codegen.new link) cg q.success q.failure (asm mode e (Ctx.start link)).1
      (asm mode e (Ctx.start link)).2 := hb'
    have hlen : cg.insns.length = (asm mode e (Ctx.start link)).1.code.length :=
      hb.length.trans (Nat.zero_add _)
    obtain ⟨cg₁, hcg₁⟩ : ∃ cg₁, cg₁ = pushed (pushed cg (.retK bpfAccept)) (.retK bpfDrop) :=
      ⟨_, rfl⟩
    have hlen₁ : (pushed cg (.retK bpfAccept)).insns.length = cg.insns.length + 1 := by simp
    have hrun : emitProgram mode e (Codegen.new link) =
        (resolveAll q.success cg.insns.length >>= fun _ =>
          resolveAll q.failure (cg.insns.length + 1)) cg₁ := by
      unfold emitProgram
      rw [bind_run hr]
      simp only [push_bind, hlen₁, hcg₁]
    rcases resolveAll_or (p := q.success) (t := cg.insns.length) cg₁ with
      ⟨hs, hrs⟩ | ⟨hs, err, hrs⟩
    · rcases resolveAll_or (p := q.failure) (t := cg.insns.length + 1)
          (patched cg₁ q.success cg.insns.length) with ⟨hf, hrf⟩ | ⟨hf, err, hrf⟩
      · rw [bind_run hrs, hrf] at hrun
        refine .inl ⟨⟨hc, ?_, ?_⟩, patched (patched cg₁ q.success cg.insns.length) q.failure
          (cg.insns.length + 1), hmap _ hrun, ?_, ?_⟩
        · refine within_of_reaches hb.placed.success hc.within ?_
          rw [Nat.add_zero, ← hb.length]
          exact hs
        · refine within_of_reaches hb.placed.failure hc.within ?_
          rw [← hb.length]
          exact hf
        · have hcode : cg₁.insns = (asm mode e (Ctx.start link)).1.code.map (Cell.raw Insn.put) ++
              [.retK bpfAccept, .retK bpfDrop] := by
            rw [hcg₁]
            simp only [pushed_insns, hb.placed.code]
            simp [Codegen.new]
          show patchAll _ _ _ (patchAll _ _ _ cg₁.insns) = _
          rw [hcode, hlen]
          exact patch_program hb.placed.success hb.placed.failure
        · show cg₁.skipped = _
          rw [hcg₁]
          simp only [pushed_skipped, hb.skips]
          have hid : shift (Codegen.new link).insns.length = id := by
            funext s
            simp [shift, Codegen.new]
          rw [hid, List.map_id]
          rfl
      · refine .inr ⟨fun h => hf ?_, fails err (hrun.trans ((bind_run hrs).trans hrf))⟩
        have := reaches_of_within hb.placed.failure h.2.2
        rw [← hb.length] at this
        exact this
    · refine .inr ⟨fun h => hs ?_, fails err (hrun.trans (bind_error hrs))⟩
      have := reaches_of_within hb.placed.success h.2.1
      rw [Nat.add_zero, ← hb.length] at this
      exact this
  · refine .inr ⟨fun h => hc h.1, fails err ?_⟩
    unfold emitProgram
    exact bind_error hr

theorem slots_ops (x : Exit) (b : Nat) (is : List Insn) : Frag.slots x b (ops is) = [] := by
  induction is generalizing b with
  | nil => rfl
  | cons i is ih => exact ih (b + 1)

/-- A primitive the link layer can carry compiles on its own. -/
theorem links_primitive (mode : HoistMode) {p : Primitive} {link : LinkType}
    (h : primOk p link = true) : Links mode (.primitive p) link := by
  refine ⟨h, ?_⟩
  have hg := asmGuard_length (guardOf p) (Ctx.start link)
  have hw := asmPrimitive_within p (Ctx.start link)
  show Frag.Within 255 (Frag.resolve .success 0 (asmPrimitive p (Ctx.start link)).1.code) ∧
    Frag.Within 255 (Frag.resolve .failure 1 (asmPrimitive p (Ctx.start link)).1.code)
  rcases body_length p link 0 with hb | ⟨hn, is, a, he, k, -, ha⟩
  · have hlen : (asmPrimitive p (Ctx.start link)).1.code.length ≤ 120 := by
      show ((asmGuard (guardOf p) (Ctx.start link)).1.code ++ body p link 0).length ≤ 120
      rw [List.length_append]
      omega
    exact ⟨hw.resolve_short .success (by omega), hw.resolve_short .failure (by omega)⟩
  · have hcode : (asmPrimitive p (Ctx.start link)).1.code = ops is ++ [a] := by
      show (asmGuard (guardOf p) (Ctx.start link)).1.code ++ body p link 0 = _
      rw [hn, he]
      rfl
    have hslot : ∀ x, ∀ q ∈ Frag.slots x 0 (ops is ++ [a]), q.2 = is.length := by
      intro x q hq
      rw [Frag.slots_append, slots_ops, List.nil_append] at hq
      obtain ⟨j, hj, he, -⟩ := Frag.mem_slots.mp hq
      simp only [ops, List.length_map, List.length_singleton] at he hj
      omega
    rw [hcode] at hw ⊢
    have hl : (ops is ++ [a]).length = is.length + 1 := by simp [ops]
    refine ⟨hw.resolve (b := 0) (fun q hq => ?_), hw.resolve (b := 0) (fun q hq => ?_)⟩
    · have := hslot _ q hq
      omega
    · have := hslot _ q hq
      omega

/-- What compiles has only primitives the link layer can carry. -/
theorem Compiles.leaves {mode : HoistMode} {e : Expr} {ctx : Ctx} (h : Compiles mode e ctx) :
    ∀ p ∈ e.leaves, primOk p ctx.link = true := by
  induction e generalizing ctx with
  | primitive p =>
    intro q hq
    rw [List.mem_singleton.mp hq]
    exact h
  | and l r hl hr =>
    intro p hp
    rcases List.mem_append.mp hp with hp | hp
    · exact hl h.1 p hp
    · have := hr h.2.2 p hp
      rw [← (asm_frame mode l ctx).1]
      exact this
  | or l r hl hr =>
    intro p hp
    obtain ⟨-, hcl, -, hcr⟩ := h
    have h₀ := (asmGuards_frame (frontGuards mode l r ctx.link) ctx).1
    rw [← h₀]
    rcases List.mem_append.mp hp with hp | hp
    · exact hl hcl p hp
    · have := hr hcr p hp
      rw [← (asm_frame mode l _).1]
      exact this
  | not e ih => exact ih h.1

end PktBaffle.Proofs.Classic
