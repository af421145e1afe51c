import PktBaffle.Proofs.Classic.Build

namespace PktBaffle.Proofs.Classic
open Bpf Forward PktBaffle.Classic

/-- An emit function that succeeds with both patch lists. -/
def Emits (m : Gen Patches) (cg : Codegen) (p : Piece) (ctx' : Ctx) : Prop :=
  ∃ q cg', m cg = .ok (q, cg') ∧ Built cg cg' q.success q.failure p ctx'

/-- An emit function that succeeds and returns the slots that fail. -/
def Fails (m : Gen (List Patch)) (cg : Codegen) (c : Code) : Prop :=
  ∃ fs cg', m cg = .ok (fs, cg') ∧ Built cg cg' [] fs ⟨c, []⟩ ((ctxOf cg).after c)

/-- An emit function that succeeds and leaves no slot open. -/
def Pushes (m : Gen Unit) (cg : Codegen) (c : Code) : Prop :=
  ∃ cg', m cg = .ok ((), cg') ∧ Built cg cg' [] [] ⟨c, []⟩ ((ctxOf cg).after c)

theorem discard_push (i : Insn) (cg : Codegen) :
    (discard (push i)) cg = .ok ((), pushed cg i) := by
  show (Functor.map (fun _ => ()) (push i)) cg = _
  show (push i >>= fun a => pure ((fun _ => ()) a)) cg = _
  rw [push_bind]
  rfl

theorem Pushes.single (i : Insn) (cg : Codegen) : Pushes (discard (push i)) cg [.op i] :=
  ⟨pushed cg i, discard_push i cg, Built.op cg i⟩

theorem Pushes.append {m : Gen Unit} {k : Gen Unit} {cg : Codegen} {c d : Code}
    (h₁ : Pushes m cg c) (h₂ : ∀ cg', Pushes k cg' d) : Pushes (m >>= fun _ => k) cg (c ++ d) := by
  obtain ⟨cg₁, hr₁, hb₁⟩ := h₁
  obtain ⟨cg₂, hr₂, hb₂⟩ := h₂ cg₁
  refine ⟨cg₂, by rw [bind_run hr₁, hr₂], ?_⟩
  have hb := hb₁.append_code hb₂
  rw [hb₁.ctx, ← Ctx.after_append] at hb
  exact hb

theorem pushAll_pushes (is : List Insn) (cg : Codegen) : Pushes (pushAll is) cg (ops is) := by
  induction is generalizing cg with
  | nil => exact ⟨cg, rfl, Built.nil cg⟩
  | cons i is ih => exact (Pushes.single i cg).append ih

section Shapes

variable {cg : Codegen}

theorem checkLoad_run (load : Insn) (k : UInt32) (cg : Codegen) :
    checkLoad load k cg = .ok (⟨[], [(.jf, cg.insns.length + 1)]⟩,
      pushed (pushed cg load) (.jeqK k 0 0xff)) := by
  simp only [checkLoad, push_bind, pure_run, pushed_insns, List.length_append,
    List.length_singleton]

theorem checkLoad_built (load : Insn) (k : UInt32) (cg : Codegen) :
    Built cg (pushed (pushed cg load) (.jeqK k 0 0xff)) [] [(.jf, cg.insns.length + 1)]
      ⟨test load k, []⟩ ((ctxOf cg).after (test load k)) := by
  have h := (Built.op cg load).append_code (Built.failure (pushed cg load) (.jeqK k 0 0xff) .jf)
  simpa [test, jeqFail] using h

/-- One load and one comparison, failing through `jf`. -/
theorem loadTest_built (is : List Insn) (k : UInt32) (cg : Codegen) :
    ∃ cg', pushAll is cg = .ok ((), cg') ∧
      Built cg (pushed cg' (.jeqK k 0 0xff)) [] [(.jf, cg'.insns.length)]
        ⟨ops is ++ [jeqFail k], []⟩ ((ctxOf cg).after (ops is ++ [jeqFail k])) := by
  obtain ⟨cg', hr, hb⟩ := pushAll_pushes is cg
  refine ⟨cg', hr, ?_⟩
  have h := hb.append_code (Built.failure cg' (.jeqK k 0 0xff) .jf)
  rw [hb.ctx] at h
  rw [Ctx.after_append]
  exact h

theorem checkAddr_emits (load : Nat → List Insn) (k : UInt32) (src dst : Nat) (dir : Dir)
    (cg : Codegen) : Emits (checkAddr load k src dst dir) cg ⟨addrCode load k src dst dir, []⟩
      ((ctxOf cg).after (addrCode load k src dst dir)) := by
  cases dir with
  | src =>
    obtain ⟨cg', hr, hb⟩ := loadTest_built (load src) k cg
    refine ⟨⟨[], [(.jf, cg'.insns.length)]⟩, _, ?_, hb⟩
    simp only [checkAddr, bind_run hr, push_bind, pure_run]
  | dst =>
    obtain ⟨cg', hr, hb⟩ := loadTest_built (load dst) k cg
    refine ⟨⟨[], [(.jf, cg'.insns.length)]⟩, _, ?_, hb⟩
    simp only [checkAddr, bind_run hr, push_bind, pure_run]
  | srcAndDst =>
    obtain ⟨cg₁, hr₁, hb₁⟩ := loadTest_built (load src) k cg
    obtain ⟨cg₂, hr₂, hb₂⟩ := loadTest_built (load dst) k (pushed cg₁ (.jeqK k 0 0xff))
    have h := hb₁.append_code hb₂
    rw [hb₁.ctx, ← Ctx.after_append] at h
    refine ⟨⟨[], [(.jf, cg₁.insns.length), (.jf, cg₂.insns.length)]⟩, _, ?_, h⟩
    simp only [checkAddr, bind_run hr₁, push_bind, bind_run hr₂, pure_run]
  | srcOrDst =>
    obtain ⟨cg₁, hr₁, hb₁⟩ := pushAll_pushes (load src) cg
    have hb₁' := hb₁.append_code (Built.success cg₁ (.jeqK k 0xff 0) .jt)
    obtain ⟨cg₂, hr₂, hb₂⟩ := loadTest_built (load dst) k (pushed cg₁ (.jeqK k 0xff 0))
    have h := hb₁'.append_code hb₂
    refine ⟨⟨[(.jt, cg₁.insns.length)], [(.jf, cg₂.insns.length)]⟩, pushed cg₂ (.jeqK k 0 0xff),
      ?_, ?_⟩
    · simp only [checkAddr, bind_run hr₁, push_bind, bind_run hr₂, pure_run]
    · rw [ctxOf_pushed, hb₁.ctx] at h
      simp only [addrCode, Ctx.after_append] at h ⊢
      exact h

/-- A test that fails in several places, in four directions. -/
theorem checkBoth_emits {check : Nat → Gen (List Patch)} {code : Nat → Code}
    (hc : ∀ off cg, Fails (check off) cg (code off)) (hl : ∀ off, (code off).length ≤ 255)
    (src dst first second : Nat) (dir : Dir) (cg : Codegen) :
    Emits (checkBoth check src dst first second dir) cg
      ⟨bothCode code src dst first second dir, []⟩
      ((ctxOf cg).after (bothCode code src dst first second dir)) := by
  cases dir with
  | src =>
    obtain ⟨fs, cg', hr, hb⟩ := hc src cg
    exact ⟨⟨[], fs⟩, cg', by simp only [checkBoth, bind_run hr, pure_run], hb⟩
  | dst =>
    obtain ⟨fs, cg', hr, hb⟩ := hc dst cg
    exact ⟨⟨[], fs⟩, cg', by simp only [checkBoth, bind_run hr, pure_run], hb⟩
  | srcAndDst =>
    obtain ⟨f₁, cg₁, hr₁, hb₁⟩ := hc first cg
    obtain ⟨f₂, cg₂, hr₂, hb₂⟩ := hc second cg₁
    have h := hb₁.append_code hb₂
    rw [hb₁.ctx, ← Ctx.after_append] at h
    exact ⟨⟨[], f₁ ++ f₂⟩, cg₂, by simp only [checkBoth, bind_run hr₁, bind_run hr₂, pure_run], h⟩
  | srcOrDst =>
    obtain ⟨f₁, cg₁, hr₁, hb₁⟩ := hc first cg
    have hreach := (hb₁.reaches 1 (Nat.succ_le_succ (hl first))).2
    obtain ⟨f₂, cg₂, hr₂, hb₂⟩ := hc second
      (patched (pushed cg₁ (.ja 0)) f₁ (cg₁.insns.length + 1))
    have h := Built.alt hb₁ (m := pushed cg₁ (.ja 0)) rfl rfl hb₂
    refine ⟨⟨[(.ja, cg₁.insns.length)], f₂⟩, cg₂, ?_, ?_⟩
    · have hlen : (pushed cg₁ (.ja 0)).insns.length = cg₁.insns.length + 1 := by simp
      simp only [checkBoth, bind_run hr₁, push_bind, insnsLen_bind, hlen,
        bind_run (resolveAll_run (pushed cg₁ (.ja 0)) hreach), bind_run hr₂, pure_run]
    · have hja : ∀ ctx : Ctx, ctx.push (.ja 0) = ctx := fun ctx => rfl
      rw [ctxOf_patched, ctxOf_pushed, hb₁.ctx, hja] at h
      simp only [bothCode, Frag.alt, Ctx.after_append, Ctx.after_resolve, Ctx.after_cons]
      exact h

theorem Fails.append {m k : Gen (List Patch)} {c d : Code} (h₁ : Fails m cg c)
    (h₂ : ∀ cg', Fails k cg' d) :
    Fails (m >>= fun f => k >>= fun g => pure (f ++ g)) cg (c ++ d) := by
  obtain ⟨f, cg₁, hr₁, hb₁⟩ := h₁
  obtain ⟨g, cg₂, hr₂, hb₂⟩ := h₂ cg₁
  refine ⟨f ++ g, cg₂, by rw [bind_run hr₁, bind_run hr₂, pure_run], ?_⟩
  have h := hb₁.append_code hb₂
  rw [hb₁.ctx, ← Ctx.after_append] at h
  exact h

theorem checkLoad_fails (load : Insn) (k : UInt32) (cg : Codegen) :
    Fails (checkLoad load k >>= fun p => pure p.failure) cg (test load k) :=
  ⟨_, _, by rw [bind_run (checkLoad_run load k cg), pure_run], checkLoad_built load k cg⟩

theorem checkLoad_emits (load : Insn) (k : UInt32) (cg : Codegen) :
    Emits (checkLoad load k) cg ⟨test load k, []⟩ ((ctxOf cg).after (test load k)) :=
  ⟨_, _, checkLoad_run load k cg, checkLoad_built load k cg⟩

theorem checkSegs_fails (off i : Nat) (segs : List UInt16) (cg : Codegen) :
    Fails (checkSegs off i segs) cg (segsCode off i segs) := by
  induction segs generalizing i cg with
  | nil => exact ⟨[], cg, rfl, Built.nil cg⟩
  | cons seg segs ih =>
    obtain ⟨g, cg₂, hr₂, hb₂⟩ := ih (i + 1) (pushed (pushed cg (.ldhAbs (.ofNat (off + i * 2))))
      (.jeqK seg.toUInt32 0 0xff))
    have hb₁ := checkLoad_built (.ldhAbs (.ofNat (off + i * 2))) seg.toUInt32 cg
    refine ⟨[(.jf, cg.insns.length + 1)] ++ g, cg₂, ?_, ?_⟩
    · simp only [checkSegs, checkHalfword, bind_run (checkLoad_run _ _ cg), bind_run hr₂, pure_run]
    · have h := hb₁.append_code hb₂
      rw [hb₁.ctx, ← Ctx.after_append] at h
      exact h

theorem checkNet6Segs_fails (prefixLen addrOff i : Nat) (segs : List UInt16) (cg : Codegen) :
    Fails (checkNet6Segs prefixLen addrOff i segs) cg (net6Code prefixLen addrOff i segs) := by
  induction segs generalizing i cg with
  | nil => exact ⟨[], cg, rfl, Built.nil cg⟩
  | cons seg segs ih =>
    unfold checkNet6Segs net6Code
    by_cases hend : prefixLen ≤ i * 16
    · simp only [hend, if_true]
      exact ⟨[], cg, rfl, Built.nil cg⟩
    · simp only [hend, if_false]
      by_cases hfull : i * 16 + 16 ≤ prefixLen
      · simp only [hfull, if_true]
        have hb₁ := checkLoad_built (.ldhAbs (.ofNat (addrOff + i * 2))) seg.toUInt32 cg
        obtain ⟨g, cg₂, hr₂, hb₂⟩ := ih (i + 1)
          (pushed (pushed cg (.ldhAbs (.ofNat (addrOff + i * 2)))) (.jeqK seg.toUInt32 0 0xff))
        refine ⟨[(.jf, cg.insns.length + 1)] ++ g, cg₂, ?_, ?_⟩
        · simp only [push_bind, bind_run hr₂, pure_run, pushed_insns, List.length_append,
            List.length_singleton, List.singleton_append]
        · have h := hb₁.append_code hb₂
          rw [hb₁.ctx, ← Ctx.after_append] at h
          exact h
      · simp only [hfull, if_false]
        generalize ((0xffff : UInt32) <<< UInt32.ofNat (16 - (prefixLen - i * 16))) &&& 0xffff
          = mask
        obtain ⟨cg₁, hr₁, hb₁⟩ := loadTest_built [.ldhAbs (.ofNat (addrOff + i * 2)), .andK mask]
          (seg.toUInt32 &&& mask) cg
        have hcg₁ : cg₁ = pushed (pushed cg (.ldhAbs (.ofNat (addrOff + i * 2)))) (.andK mask) := by
          have hr : pushAll [.ldhAbs (.ofNat (addrOff + i * 2)), .andK mask] cg = .ok ((),
              pushed (pushed cg (.ldhAbs (.ofNat (addrOff + i * 2)))) (.andK mask)) := by
            show (discard (push _) >>= fun _ => discard (push _) >>= fun _ => pure ()) cg = _
            rw [bind_run (discard_push _ _), bind_run (discard_push _ _), pure_run]
          rw [hr, Except.ok.injEq, Prod.mk.injEq] at hr₁
          exact hr₁.2.symm
        obtain ⟨g, cg₂, hr₂, hb₂⟩ := ih (i + 1) (pushed cg₁ (.jeqK (seg.toUInt32 &&& mask) 0 0xff))
        refine ⟨[(.jf, cg₁.insns.length)] ++ g, cg₂, ?_, ?_⟩
        · simp only [push_bind, hcg₁] at hr₂ ⊢
          rw [bind_run hr₂, pure_run]
          rfl
        · have h := hb₁.append_code hb₂
          rw [hb₁.ctx, ← Ctx.after_append] at h
          exact h

theorem checkRange_fails (lo hi : UInt16) (off : Nat) (cg : Codegen) :
    Fails (checkRange lo hi off) cg (rangeCode lo hi off) := by
  refine ⟨_, _, ?_, Built.code cg (rangeCode lo hi off) (by simp [rangeCode])⟩
  simp only [checkRange, push_bind, pure_run, pushed_insns, List.length_append,
    List.length_singleton]
  rfl

theorem checkMac_fails (addr : MacAddr) (off : Nat) (cg : Codegen) :
    Fails (checkMac addr off) cg (macCode addr off) := by
  obtain ⟨high, hhigh⟩ : ∃ high, high = Vm.fromBe4 addr.octets[0]! addr.octets[1]!
    addr.octets[2]! addr.octets[3]! := ⟨_, rfl⟩
  obtain ⟨low, hlow⟩ : ∃ low, low = Vm.fromBe4 0 0 addr.octets[4]! addr.octets[5]! :=
    ⟨_, rfl⟩
  have h := checkLoad_built (.ldwAbs (.ofNat off)) high cg
  have h₂ := checkLoad_built (.ldhAbs (.ofNat (off + 4))) low
    (pushed (pushed cg (.ldwAbs (.ofNat off))) (.jeqK high 0 0xff))
  have hb := h.append_code h₂
  rw [h.ctx, ← Ctx.after_append] at hb
  subst hhigh hlow
  refine ⟨_, _, ?_, hb⟩
  simp only [checkMac, checkWord, checkHalfword, bind_run (checkLoad_run _ _ _), pure_run]

end Shapes

section Quiet

variable (ctx : Ctx) (k : UInt32)

theorem push_quiet {i : Insn} (h : writesX i = false) : ctx.push i = ctx := by
  simp [Ctx.push, h]

@[simp] theorem writesX_ldwAbs : writesX (.ldwAbs k) = false := by
  simp +decide only [writesX, Insn.ldwAbs]

@[simp] theorem writesX_ldhAbs : writesX (.ldhAbs k) = false := by
  simp +decide only [writesX, Insn.ldhAbs]

@[simp] theorem writesX_ldbAbs : writesX (.ldbAbs k) = false := by
  simp +decide only [writesX, Insn.ldbAbs]

@[simp] theorem writesX_jeqK (jt jf : UInt8) : writesX (.jeqK k jt jf) = false := by
  simp +decide only [writesX, Insn.jeqK]

@[simp] theorem writesX_jsetK (jt jf : UInt8) : writesX (.jsetK k jt jf) = false := by
  simp +decide only [writesX, Insn.jsetK]

@[simp] theorem writesX_ldxMsh : writesX (.ldxMsh k) = true := by
  simp +decide only [writesX, Insn.ldxMsh]

@[simp] theorem writesX_ldxImm : writesX (.ldxImm k) = true := by
  simp +decide only [writesX, Insn.ldxImm]

theorem after_test {load : Insn} (h : writesX load = false) : ctx.after (test load k) = ctx := by
  simp [test, jeqFail, push_quiet, h]

end Quiet

/-- What a guard needs of the link layer. -/
def guardOk (g : Guard) (link : LinkType) : Bool :=
  match g with
  | .ethertype et => link.etherProtoOffset.isSome || et == 0x0800
  | .ip6 _ => link.etherProtoOffset.isSome
  | _ => true

/-- On RawIp the facts say IPv4 from the start, and nothing changes that. -/
def Ctx.Ok (ctx : Ctx) : Prop := ctx.link = .rawIp → ctx.facts.ethertype = some 0x0800

/-- An emitted guard: it has no success jumps. -/
def Guards (m : Gen Patches) (cg : Codegen) (r : Piece × Ctx) : Prop :=
  ∃ q cg', m cg = .ok (q, cg') ∧ q.success = [] ∧ Built cg cg' [] q.failure r.1 r.2

theorem etherProtoOffset_eq_none {cg : Codegen} (h : cg.etherProtoOffset = none) :
    cg.link = .rawIp := by
  cases hl : cg.link <;> simp [Codegen.etherProtoOffset, hl, LinkType.etherProtoOffset] at h ⊢

theorem emitEthertype_guards {et : UInt32} {cg : Codegen} (h : guardOk (.ethertype et) cg.link) :
    Guards (emitEthertype et) cg (asmEthertype et (ctxOf cg)) := by
  unfold Guards emitEthertype asmEthertype
  simp only [get_bind, ctxOf_etherProtoOffset, ctxOf_facts, ctxOf_vlanDepth]
  cases hoff : cg.etherProtoOffset with
  | none =>
    have hl := etherProtoOffset_eq_none hoff
    have het : et = 0x0800 := by simpa [guardOk, hl, LinkType.etherProtoOffset] using h
    simp only [het, if_true]
    exact ⟨.default, cg, rfl, rfl, Built.nil cg⟩
  | some off =>
    by_cases hf : cg.facts.ethertype = some et
    · simp only [hf, if_true, skip_bind, pure_run]
      exact ⟨.default, _, rfl, rfl, Built.skip cg _⟩
    · have hb := checkLoad_built (.ldhAbs (.ofNat off)) et cg
      simp only [hf, if_false, checkHalfword, bind_run (checkLoad_run _ _ cg)]
      rw [after_test _ _ (writesX_ldhAbs _)] at hb
      by_cases hn : cg.facts.ethertype = none
      · refine ⟨_, _, by simp only [hn, if_true, modifyFacts_bind, pure_run]; rfl, rfl, ?_⟩
        have h' := hb.withFacts (fun f => { f with ethertype := some et })
        have hrec : (ctxOf cg).withFacts (fun f => { f with ethertype := some et }) =
            (ctxOf cg).withFacts (fun f => { f with ethertype := record f.ethertype et }) := by
          simp [Ctx.withFacts, record, hn]
        rw [← hrec]
        exact h'
      · refine ⟨_, _, by simp only [hn, if_false, pure_run]; rfl, rfl, ?_⟩
        have hrec : (ctxOf cg).withFacts (fun f => { f with ethertype := record f.ethertype et }) =
            ctxOf cg := by
          obtain ⟨v, hv⟩ := Option.ne_none_iff_exists'.mp hn
          simp only [Ctx.withFacts, ctxOf_facts, record, hv, Option.some_or]
          rw [← hv]
          rfl
        rw [hrec]
        exact hb

theorem asmEthertype_link (et : UInt32) (ctx : Ctx) : (asmEthertype et ctx).2.link = ctx.link := by
  unfold asmEthertype
  split
  · split <;> rfl
  · rfl

theorem asmEthertype_vlanDepth (et : UInt32) (ctx : Ctx) :
    (asmEthertype et ctx).2.vlanDepth = ctx.vlanDepth := by
  unfold asmEthertype
  split
  · split <;> rfl
  · rfl

/-- The second half of `emit_ip4_l4` and `emit_ip6_l4`: a byte test behind the ethertype
guard, left out when `known` already holds the value. -/
theorem byteGuard {m : Gen Patches} {cg : Codegen} {r : Piece × Ctx} (h : Guards m cg r)
    (known : Facts → Option UInt8) (set : Facts → Option UInt8 → Facts) (n : UInt8) (off : Nat)
    (check : Check) (hset : ∀ f, set f (known f) = f)
    (glue : Patches → Patches → Patches)
    (hglue : ∀ p q, q.success = [] → (glue p q).success = p.success ∧
      (glue p q).failure = p.failure ++ q.failure) :
    Guards (do
      let p ← m
      let cg ← get
      if known cg.facts = some n then
        skip check
        return p
      let q ← checkByte (cg.netOffset + off) n.toUInt32
      if known cg.facts = none then
        modifyFacts fun f => set f (some n)
      return glue p q) cg
      (if known r.2.facts = some n then (r.1.append (.skip check r.2.vlanDepth), r.2)
      else (r.1.append ⟨test (.ldbAbs (.ofNat (r.2.netOffset + off))) n.toUInt32, []⟩,
        r.2.withFacts fun f => set f (record (known f) n))) := by
  obtain ⟨q, cg₁, hr, hs, hb⟩ := h
  unfold Guards
  simp only [bind_run hr, get_bind, hb.facts]
  by_cases hk : known r.2.facts = some n
  · simp only [hk, if_true, skip_bind, pure_run]
    refine ⟨q, skippedAt cg₁ check, rfl, hs, ?_⟩
    have h' := hb.append (Built.skip cg₁ check)
    rw [hb.ctx] at h'
    have hd : cg₁.vlanDepth = r.2.vlanDepth := by rw [← hb.ctx]; rfl
    rw [hd, List.append_nil, List.append_nil] at h'
    exact h'
  · have ht := checkLoad_built (.ldbAbs (.ofNat (cg₁.netOffset + off))) n.toUInt32 cg₁
    rw [after_test _ _ (writesX_ldbAbs _)] at ht
    have h' := hb.append ht
    rw [hb.ctx, hb.netOffset] at h'
    simp only [hk, if_false, checkByte, bind_run (checkLoad_run _ _ cg₁), hb.netOffset]
    by_cases hn : known r.2.facts = none
    · simp only [hn, if_true, modifyFacts_bind, pure_run]
      refine ⟨_, _, rfl, by rw [(hglue _ _ rfl).1, hs], ?_⟩
      have h'' := h'.withFacts (fun f => set f (some n))
      have hrec : r.2.withFacts (fun f => set f (record (known f) n)) =
          r.2.withFacts (fun f => set f (some n)) := by
        simp [Ctx.withFacts, record, hn]
      rw [(hglue _ _ rfl).2, hrec]
      exact h''
    · simp only [hn, if_false, pure_run]
      refine ⟨_, _, rfl, by rw [(hglue _ _ rfl).1, hs], ?_⟩
      have hrec : r.2.withFacts (fun f => set f (record (known f) n)) = r.2 := by
        obtain ⟨v, hv⟩ := Option.ne_none_iff_exists'.mp hn
        simp only [Ctx.withFacts, record, hv, Option.some_or]
        rw [← hv, hset]
      rw [(hglue _ _ rfl).2, hrec]
      exact h'

theorem emitIp4L4_guards (n : UInt8) (cg : Codegen) :
    Guards (emitIp4L4 n) cg (asmIp4L4 n (ctxOf cg)) :=
  byteGuard (emitEthertype_guards (by simp [guardOk])) (·.ip4Proto)
    (fun f v => { f with ip4Proto := v }) n 9 (.ip4Proto n) (fun _ => rfl)
    (fun p q => ⟨p.success ++ q.success, p.failure ++ q.failure⟩)
    (fun _ _ h => ⟨by simp [h], rfl⟩)

theorem emitIp6L4_guards {n : UInt8} {cg : Codegen} (h : guardOk (.ip6 n) cg.link) :
    Guards (emitIp6L4 n) cg (asmIp6L4 n (ctxOf cg)) :=
  byteGuard (emitEthertype_guards (by
      have h' : cg.link.etherProtoOffset.isSome = true := h
      simp [guardOk, h'])) (·.ip6Nh)
    (fun f v => { f with ip6Nh := v }) n 6 (.ip6Nh n) (fun _ => rfl)
    (fun p q => ⟨p.success, p.failure ++ q.failure⟩) (fun _ _ _ => ⟨rfl, rfl⟩)

/-- Match A against a protocol set. -/
theorem emitL4SetCheck_fails (want : L4Set) (cg : Codegen) :
    Fails (emitL4SetCheck want) cg (l4Check want) := by
  cases want with
  | one n =>
    refine ⟨_, _, ?_, Built.code cg (l4Check (.one n)) (by simp [l4Check, jeqFail])⟩
    simp only [emitL4SetCheck, push_bind, pure_run]
    rfl
  | tcpOrUdp =>
    have hb := Built.code cg [.hole (.jeqK 6 0xff 0) .jt .success, jeqFail 17] (by simp [jeqFail])
    have h := hb.seq (m := patched (pushed (pushed cg (.jeqK 6 0xff 0)) (.jeqK 17 0 0xff))
      [(.jt, cg.insns.length)] (pushed (pushed cg (.jeqK 6 0xff 0)) (.jeqK 17 0 0xff)).insns.length)
      rfl rfl (Built.nil _)
    refine ⟨[(.jf, cg.insns.length + 1)], _, ?_, h⟩
    simp only [emitL4SetCheck, push_bind, insnsLen_bind]
    rw [bind_run (resolve_run _ (by simp) (by simp)), pure_run]
    simp

theorem loadL4SetCheck_fails (off : Nat) (want : L4Set) (cg : Codegen) :
    Fails (loadL4SetCheck off want) cg (loadL4 off want) := by
  obtain ⟨fs, cg₁, hr, hb⟩ := emitL4SetCheck_fails want (pushed cg (.ldbAbs (.ofNat off)))
  refine ⟨fs, cg₁, by simp only [loadL4SetCheck, push_bind, hr], ?_⟩
  have h := (Built.op cg (.ldbAbs (.ofNat off))).append_code hb
  rw [ctxOf_pushed] at h
  exact h

theorem fragAndMsh_fails (net : Nat) (cg : Codegen) :
    Fails (fragAndMsh net) cg (fragMsh net) := by
  refine ⟨_, _, ?_, Built.code cg (fragMsh net) (by simp [fragMsh])⟩
  simp only [fragAndMsh, push_bind, pure_run, pushed_insns, List.length_append,
    List.length_singleton]
  rfl

theorem ldx40_fails (cg : Codegen) :
    Fails (do let _ ← push (.ldxImm 40); return []) cg ldx40 :=
  ⟨[], pushed cg (.ldxImm 40), by simp only [push_bind, pure_run], Built.op cg (.ldxImm 40)⟩

theorem emitKnownPrereqs_built (want : L4Set) (protoOff : Nat) (ready : Option L4Set)
    (known : Option UInt8) (check : UInt8 → Check) {tail : Gen (List Patch)} {c : Code}
    (ht : ∀ cg, Fails tail cg c) (cg : Codegen) :
    let r := knownPrereqs want protoOff ready known check c cg.vlanDepth
    ∃ fs cg', emitKnownPrereqs want protoOff ready known check tail cg = .ok ((fs, r.2), cg') ∧
      Built cg cg' [] fs r.1 ((ctxOf cg).after r.1.code) := by
  have full : ∃ fs cg', (do
      let f ← loadL4SetCheck protoOff want
      let t ← tail
      return (f ++ t, want) : Gen (List Patch × L4Set)) cg = .ok ((fs, want), cg') ∧
      Built cg cg' [] fs ⟨loadL4 protoOff want ++ c, []⟩
        ((ctxOf cg).after (loadL4 protoOff want ++ c)) := by
    obtain ⟨f, cg₁, hr₁, hb₁⟩ := loadL4SetCheck_fails protoOff want cg
    obtain ⟨t, cg₂, hr₂, hb₂⟩ := ht cg₁
    refine ⟨f ++ t, cg₂, by simp only [bind_run hr₁, bind_run hr₂, pure_run], ?_⟩
    have h := hb₁.append_code hb₂
    rw [hb₁.ctx, ← Ctx.after_append] at h
    exact h
  unfold emitKnownPrereqs knownPrereqs
  cases ready with
  | some have_ =>
    obtain ⟨f, cg₁, hr, hb⟩ := loadL4SetCheck_fails protoOff want (skippedAt cg (.ports have_))
    refine ⟨f, cg₁, by simp only [skip_bind, bind_run hr, pure_run], ?_⟩
    exact (Built.skip cg (.ports have_)).append hb
  | none =>
    cases known with
    | none => exact full
    | some n =>
      by_cases hc : want.contains n = true
      · obtain ⟨t, cg₂, hr₂, hb₂⟩ := ht (skippedAt cg (check n))
        simp only [hc, if_true]
        refine ⟨t, cg₂, ?_, ?_⟩
        · simp only [skip_bind, pure_bind_run, bind_run hr₂, pure_run, List.nil_append]
        · exact (Built.skip cg (check n)).append hb₂
      · simp only [hc]
        exact full

theorem modify_append_cons {α : Type} (l : List α) (a : α) (r : List α) (f : α → α) :
    (l ++ a :: r).modify l.length f = l ++ f a :: r := by
  rw [List.modify_eq_take_cons_drop (by simp)]
  simp

/-- Fill the slot of an instruction that was pushed without one. -/
theorem Built.fill {cg cg₁ : Codegen} {s f : List Patch} {a b : Code} {i : Insn} {k : Slot}
    {sk : List Skipped} {ctx₁ : Ctx} (h : Built cg cg₁ s f ⟨a ++ .op i :: b, sk⟩ ctx₁) :
    Built cg (patched cg₁ [(k, cg.insns.length + a.length)] cg₁.insns.length) s f
      ⟨a ++ ⟨i, some (k, .skip b.length)⟩ :: b, sk⟩ ctx₁ := by
  have hslots : ∀ x n, Frag.slots x n (a ++ ⟨i, some (k, .skip b.length)⟩ :: b) =
      Frag.slots x n (a ++ .op i :: b) := by
    intro x n
    simp [Frag.slots_append]
  refine ⟨⟨?_, fun q => ?_, fun q => ?_⟩, h.ctx, h.skips⟩
  · have hlen : cg₁.insns.length - (cg.insns.length + a.length) - 1 = b.length := by
      rw [h.length]
      simp
      omega
    have hpre : (cg.insns ++ a.map (Cell.raw Insn.put)).length = cg.insns.length + a.length := by
      simp
    have hcode : cg₁.insns = (cg.insns ++ a.map (Cell.raw Insn.put)) ++
        i :: b.map (Cell.raw Insn.put) := by
      rw [h.placed.code]
      simp [Cell.raw]
    simp only [patched, patchAll, List.foldl_cons, List.foldl_nil, hlen]
    rw [hcode, ← hpre, modify_append_cons]
    simp [Cell.raw]
  · rw [hslots]
    exact h.placed.success q
  · rw [hslots]
    exact h.placed.failure q

theorem emitDualPrereqs_fails (want : L4Set) (etherOff net : Nat) (cg : Codegen) :
    Fails (emitDualPrereqs want etherOff net) cg (dualCode want etherOff net) := by
  obtain ⟨cg₁, hcg₁, h₁⟩ : ∃ cg₁, cg₁ = pushed (pushed (pushed cg (.ldhAbs (.ofNat etherOff)))
      (.jeqK 0x86dd 0xff 0)) (.jeqK 0x0800 0 0xff) ∧ Built cg cg₁ _ _ _ _ :=
    ⟨_, rfl, Built.code cg [.op (.ldhAbs (.ofNat etherOff)),
      .hole (.jeqK 0x86dd 0xff 0) .jt .success, jeqFail 0x0800] (by simp [jeqFail])⟩
  obtain ⟨f4, cg₂, hr₂, hb₂⟩ := loadL4SetCheck_fails (net + 9) want cg₁
  obtain ⟨ft, cg₃, hr₃, hb₃⟩ := fragAndMsh_fails net cg₂
  have h₄ := ((h₁.append_code hb₂).append_code hb₃).append_code (Built.op cg₃ (.ja 0))
  obtain ⟨f6, cg₆, hr₆, hb₆⟩ := loadL4SetCheck_fails (net + 6) want
    (patched (pushed cg₃ (.ja 0)) [(.jt, cg.insns.length + 1)] (pushed cg₃ (.ja 0)).insns.length)
  have h₄' : Built cg (pushed cg₃ (.ja 0)) [(.jt, cg.insns.length + 1)]
      ((.jf, cg.insns.length + 2) :: f4 ++ ft) _ _ :=
    h₄.congr (by simp [jeqFail]) (by simp [jeqFail])
  have h₆ := hb₆.append_code (Built.op cg₆ (.ldxImm 40))
  have hseq := h₄'.seq (m := patched (pushed cg₃ (.ja 0)) [(.jt, cg.insns.length + 1)]
    (pushed cg₃ (.ja 0)).insns.length) rfl rfl h₆
  -- The slot of the first branch is filled by now, that of the jump is not.
  have hcode : (Piece.seq ⟨[.op (.ldhAbs (.ofNat etherOff)),
      .hole (.jeqK 0x86dd 0xff 0) .jt .success, jeqFail 0x0800] ++ loadL4 (net + 9) want ++
      fragMsh net ++ [.op (.ja 0)], []⟩ ⟨loadL4 (net + 6) want ++ [.op (.ldxImm 40)], []⟩) =
      ⟨([.op (.ldhAbs (.ofNat etherOff)), ⟨.jeqK 0x86dd 0xff 0, some (.jt,
        .skip ((loadL4 (net + 9) want ++ fragMsh net).length + 2))⟩, jeqFail 0x0800] ++
        (loadL4 (net + 9) want ++ fragMsh net)) ++ .op (.ja 0) :: (loadL4 (net + 6) want ++ ldx40),
        []⟩ := by
    cases want <;> rfl
  rw [hcode] at hseq
  have hfill := hseq.fill (k := .ja)
  have hja : cg₃.insns.length = cg.insns.length + ([.op (.ldhAbs (.ofNat etherOff)),
      ⟨.jeqK 0x86dd 0xff 0, some (.jt, .skip ((loadL4 (net + 9) want ++ fragMsh net).length + 2))⟩,
      jeqFail 0x0800] ++ (loadL4 (net + 9) want ++ fragMsh net) : Code).length := by
    rw [hb₃.length, hb₂.length, h₁.length]
    simp
    omega
  have hlen₄ : (pushed cg₃ (.ja 0)).insns.length = cg₃.insns.length + 1 := by simp
  have h255 : (loadL4 (net + 9) want).length ≤ 3 ∧ (loadL4 (net + 6) want).length ≤ 3 := by
    cases want <;> exact ⟨by simp [loadL4, l4Check], by simp [loadL4, l4Check]⟩
  have hfr : (fragMsh net).length = 3 := rfl
  have hlen₃ : cg₃.insns.length = cg.insns.length + 3 + (loadL4 (net + 9) want).length + 3 := by
    rw [hb₃.length, hb₂.length, h₁.length]
    rfl
  have hlen₆ : (pushed cg₆ (.ldxImm 40)).insns.length =
      cg₃.insns.length + 1 + (loadL4 (net + 6) want).length + 1 := by
    rw [h₆.length]
    simp [patched, patchAll_length]
    omega
  have hafter : (ctxOf cg₆).push (.ldxImm 40) = (ctxOf cg).after (dualCode want etherOff net) := by
    rw [hb₆.ctx, ctxOf_patched, ctxOf_pushed, hb₃.ctx, hb₂.ctx, h₁.ctx]
    simp only [dualCode, Ctx.after_append, Ctx.after_cons, Ctx.after_nil, ldx40]
    rfl
  rw [← hja, hafter] at hfill
  refine ⟨_, _, ?_, hfill⟩
  have hjt : (pushed cg (.ldhAbs (.ofNat etherOff))).insns.length = cg.insns.length + 1 := by simp
  have hjf : (pushed (pushed cg (.ldhAbs (.ofNat etherOff))) (.jeqK 0x86dd 0xff 0)).insns.length =
      cg.insns.length + 2 := by simp
  simp only [emitDualPrereqs, push_bind, insnsLen_bind, ← hcg₁, bind_run hr₂, bind_run hr₃, hjt,
    hjf]
  rw [bind_run (resolve_run _ (by simp only [hlen₄]; omega) (by simp only [hlen₄]; omega)),
    bind_run hr₆]
  simp only [push_bind, insnsLen_bind]
  rw [bind_run (resolve_run _ (by simp only [hlen₆]; omega) (by simp only [hlen₆]; omega)), pure_run]
  simp

theorem skipVersion_built (et : UInt32) (cg : Codegen) :
    ∃ cg', (∀ (β : Type) (k : Unit → Gen β),
        (if cg.etherProtoOffset.isSome = true then skip (.ethertype et) >>= k else k ()) cg =
          k () cg') ∧
      cg'.vlanDepth = cg.vlanDepth ∧
      Built cg cg' [] [] (skipVersion et (ctxOf cg)) (ctxOf cg) := by
  unfold skipVersion
  by_cases h : cg.etherProtoOffset.isSome = true
  · refine ⟨skippedAt cg (.ethertype et), fun β k => ?_, rfl, ?_⟩
    · simp only [h, if_true, skip_bind]
    · simp only [ctxOf_etherProtoOffset, h, if_true]
      exact Built.skip cg _
  · refine ⟨cg, fun β k => ?_, rfl, ?_⟩
    · simp only [h]
      rfl
    · simp only [ctxOf_etherProtoOffset, h]
      exact Built.nil cg

/-- The prologue behind a known IP version. -/
theorem knownVersion_guards (et : UInt32) (want : L4Set) (protoOff : Nat) (ready : Option L4Set)
    (known : Option UInt8) (check : UInt8 → Check) {tail : Gen (List Patch)} {c : Code}
    (ht : ∀ cg, Fails tail cg c) (g : L4Set → Facts → Facts) (cg : Codegen) :
    Guards (do
      if cg.etherProtoOffset.isSome then skip (.ethertype et)
      let (fails, established) ← emitKnownPrereqs want protoOff ready known check tail
      modifyFacts (g established)
      return ⟨[], fails⟩) cg
      (let r := knownPrereqs want protoOff ready known check c cg.vlanDepth
      ((skipVersion et (ctxOf cg)).append r.1, ((ctxOf cg).after r.1.code).withFacts (g r.2))) := by
  obtain ⟨cg₁, hrun, hd, hb₁⟩ := skipVersion_built et cg
  obtain ⟨fs, cg₂, hr₂, hb₂⟩ := emitKnownPrereqs_built want protoOff ready known check ht cg₁
  rw [hb₁.ctx, hd] at hb₂
  rw [hd] at hr₂
  refine ⟨⟨[], fs⟩, { cg₂ with facts := g _ cg₂.facts }, ?_, rfl, (hb₁.append hb₂).withFacts _⟩
  refine (hrun Patches _).trans ?_
  exact bind_run hr₂

theorem emitPortPrologue_guards (want : L4Set) (cg : Codegen) (h : (ctxOf cg).Ok) :
    Guards (emitPortPrologue want cg) cg (asmPortPrologue want (ctxOf cg)) := by
  unfold emitPortPrologue asmPortPrologue
  simp only [ctxOf_facts, ctxOf_netOffset, ctxOf_vlanDepth, ctxOf_etherProtoOffset]
  by_cases h4 : cg.facts.ethertype = some 0x0800
  · simp only [h4, if_true]
    exact knownVersion_guards 0x0800 want _ _ _ _ (fragAndMsh_fails _)
      (fun est f => { f with ip4Proto := f.ip4Proto.or est.single, portsReady := some est }) cg
  · by_cases h6 : cg.facts.ethertype = some 0x86dd
    · simp only [h6, if_true, Option.some.injEq, show ¬ (0x86dd : UInt32) = 0x0800 by decide,
        if_false]
      exact knownVersion_guards 0x86dd want _ _ _ _ ldx40_fails
        (fun est f => { f with ip6Nh := f.ip6Nh.or est.single, portsReady := some est }) cg
    · simp only [h4, h6, if_false]
      cases hoff : cg.etherProtoOffset with
      | none => exact absurd (h (etherProtoOffset_eq_none hoff)) h4
      | some off =>
        obtain ⟨fs, cg₁, hr, hb⟩ := emitDualPrereqs_fails want off cg.netOffset cg
        refine ⟨⟨[], fs⟩, { cg₁ with facts := { cg₁.facts with portsReady := some want } }, ?_, rfl,
          hb.withFacts (fun f => { f with portsReady := some want })⟩
        simp only [bind_run hr, modifyFacts_bind, pure_run]

theorem emitPortPrereqsSet_guards (want : L4Set) (cg : Codegen) (h : (ctxOf cg).Ok) :
    Guards (emitPortPrereqsSet want) cg (asmPortPrereqs want (ctxOf cg)) := by
  obtain ⟨q, cg₁, hr, hs, hb⟩ := emitPortPrologue_guards want cg h
  unfold Guards emitPortPrereqsSet asmPortPrereqs
  simp only [get_bind, ctxOf_facts]
  cases hp : cg.facts.portsReady with
  | none => exact ⟨q, cg₁, hr, hs, hb⟩
  | some have_ =>
    by_cases hsub : have_.subsetOf want = true
    · simp only [hsub, if_true, skip_bind, pure_run]
      exact ⟨.default, _, rfl, rfl, Built.skip cg _⟩
    · simp only [hsub]
      exact ⟨q, cg₁, hr, hs, hb⟩

/-- The emit function of a guard. -/
def emitGuard : Guard → Gen Patches
  | .none => return .default
  | .ethertype et => emitEthertype et
  | .ip4 n => emitIp4L4 n
  | .ip6 n => emitIp6L4 n
  | .ports set => emitPortPrereqsSet set

theorem emitGuard_guards {g : Guard} {cg : Codegen} (hg : guardOk g cg.link)
    (h : (ctxOf cg).Ok) : Guards (emitGuard g) cg (asmGuard g (ctxOf cg)) := by
  cases g with
  | none => exact ⟨.default, cg, rfl, rfl, Built.nil cg⟩
  | ethertype et => exact emitEthertype_guards hg
  | ip4 n => exact emitIp4L4_guards n cg
  | ip6 n => exact emitIp6L4_guards hg
  | ports set => exact emitPortPrereqsSet_guards set cg h

/-- A guard the link layer cannot satisfy is an error. -/
theorem emitGuard_error {g : Guard} {cg : Codegen} (hg : guardOk g cg.link = false) :
    ∃ e, emitGuard g cg = .error e := by
  have ether : ∀ et : UInt32, guardOk (.ethertype et) cg.link = false →
      ∃ e, emitEthertype et cg = .error e := by
    intro et h
    simp only [guardOk, Bool.or_eq_false_iff, beq_eq_false_iff_ne] at h
    have hoff : cg.etherProtoOffset = none := by
      simpa [Codegen.etherProtoOffset] using h.1
    unfold emitEthertype
    simp only [get_bind, hoff, h.2, if_false]
    exact ⟨_, rfl⟩
  cases g with
  | none => cases hg
  | ethertype et => exact ether et hg
  | ip4 n => cases hg
  | ip6 n =>
    have hoff : cg.link.etherProtoOffset.isSome = false := hg
    obtain ⟨e, he⟩ := ether 0x86dd (by simp [guardOk, hoff])
    exact ⟨e, by rw [emitGuard, emitIp6L4, bind_error he]⟩
  | ports set => cases hg

end PktBaffle.Proofs.Classic
