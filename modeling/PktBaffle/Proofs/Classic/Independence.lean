import PktBaffle.Proofs.Classic.Compositional
import PktBaffle.Forward.Alike

namespace PktBaffle.Proofs.Classic
open Bpf Forward PktBaffle.Classic PktBaffle.Optimizer PktBaffle.Proofs.Optimizer

/-- Code whose way out depends on the packet alone, and that leaves X as it was or, if `keeps`
is false, as the packet says. -/
def Sealed (pkt : Vm.Packet) (keeps : Bool) (c : Code) : Prop :=
  ∃ v x, ∀ s, ((Vm.machine pkt).cells.run c 0 s).Falls (· = .packetLoad)
    (fun s' => s'.x = if keeps then s.x else x) (fun _ => True) v

section Guards

variable {pkt : Vm.Packet} {k k₁ k₂ : Bool} {c c₁ c₂ : Code} {ctx : Ctx}

theorem Sealed.of_traced (v : Tri) (x : UInt32)
    (h : ∀ t, ((traced pkt).cells.run c 0 t).Falls (· = .packetLoad)
      (fun t' => t'.regs.x = if k then t.regs.x else x) (fun _ => True) v) : Sealed pkt k c := by
  refine ⟨v, x, fun s => ?_⟩
  have hs := h ⟨s, none, []⟩
  rw [← forget_run c 0 ⟨s, none, []⟩]
  rcases v with _ | _ | _
  · obtain ⟨_, rfl, hr⟩ := hs
    rw [hr]
    exact ⟨_, rfl, rfl⟩
  · obtain ⟨t, -, hr⟩ := hs
    rw [hr]
    exact ⟨t.regs, trivial, rfl⟩
  · obtain ⟨t, hx, hr⟩ := hs
    rw [hr]
    exact ⟨t.regs, hx, rfl⟩

theorem Sealed.nil : Sealed pkt true [] :=
  ⟨some true, 0, fun s => ⟨s, rfl, Machine.run_nil _ _ _⟩⟩

theorem Sealed.append (h₁ : Sealed pkt k₁ c₁) (h₂ : Sealed pkt k₂ c₂) :
    Sealed pkt (k₁ && k₂) (c₁ ++ c₂) := by
  obtain ⟨v₁, x₁, h₁⟩ := h₁
  obtain ⟨v₂, x₂, h₂⟩ := h₂
  refine ⟨v₁.and v₂, if k₂ then x₁ else x₂, fun s => ?_⟩
  rw [Machine.run_append]
  refine (h₁ s).bind fun _ s₁ hx₁ => (h₂ s₁).mono (fun s₂ hx₂ => ?_) fun _ h => h
  rw [hx₂, hx₁]
  cases k₁ <;> cases k₂ <;> rfl

theorem sealed_test {load : Insn} (hp : plain load = true) (hw : writesX load = false)
    {a : Option UInt32} (hd : Does pkt load (.load a)) (hl : isLdAbs load = true) (n : UInt32) :
    Sealed pkt true (test load n) :=
  .of_traced _ 0 fun t =>
    (test_leaves hp hw hd hl n t).mono (fun _ h => h.2.2) fun _ h => h

theorem sealed_loadL4 (off : Nat) (want : L4Set) : Sealed pkt true (loadL4 off want) :=
  .of_traced _ 0 fun t => (loadL4_leaves off want t).mono (fun _ h => h.2.2) fun _ h => h

theorem sealed_fragMsh (pkt : Vm.Packet) (link : LinkType) (d : Nat) :
    Sealed pkt false (fragMsh (netAt link d)) := by
  refine .of_traced ((fragVal pkt link d).and ((ihl pkt link d).map fun _ => true))
    ((ihl pkt link d).getD 0) fun t => ?_
  refine (fragMsh_falls pkt link d t).mono (fun t' h => ?_) fun _ h => h
  rw [← h.2]
  rfl

theorem sealed_ldx40 : Sealed pkt false ldx40 :=
  .of_traced (some true) 40 fun t => ⟨_, rfl, ldx40_run t⟩

/-- A prologue whose version is known sets X, unless an earlier one has. -/
theorem knownPrereqs_sealed {tail : Code} (ht : Sealed pkt false tail) (want : L4Set) (off : Nat)
    (ready : Option L4Set) (known : Option UInt8) (check : UInt8 → Check) (depth : Nat) :
    Sealed pkt ready.isSome (knownPrereqs want off ready known check tail depth).1.code := by
  have full : Sealed pkt false (loadL4 off want ++ tail) := (sealed_loadL4 off want).append ht
  cases ready with
  | some set => exact sealed_loadL4 off want
  | none =>
    cases known with
    | none => exact full
    | some n =>
      simp only [knownPrereqs]
      split
      · exact ht
      · exact full

theorem asmEthertype_sealed (et : UInt32) (ctx : Ctx) :
    Sealed pkt true (asmEthertype et ctx).1.code := by
  unfold asmEthertype
  split
  · split
    · exact .nil
    · exact sealed_test (by simp) (by simp) (does_ldh pkt _) (isLdAbs_ldh _) et
  · exact .nil

theorem asmPortPrologue_sealed (want : L4Set) (hok : ctx.Ok) :
    ∃ k, (k = true → ctx.facts.portsReady ≠ none) ∧
      Sealed pkt k (asmPortPrologue want ctx).1.code := by
  have hnet : ctx.netOffset = netAt ctx.link ctx.vlanDepth := rfl
  have known : ∀ k, (k = true → ctx.facts.portsReady ≠ none) ↔
      (k = true → ctx.facts.portsReady.isSome = true) := by
    intro k
    rw [Option.isSome_iff_ne_none]
  unfold asmPortPrologue
  by_cases h4 : ctx.facts.ethertype = some 0x0800
  · simp only [h4, if_true, hnet, Piece.append, skipVersion_code, List.nil_append]
    exact ⟨_, (known _).mpr id, knownPrereqs_sealed (sealed_fragMsh pkt _ _) _ _ _ _ _ _⟩
  · by_cases h6 : ctx.facts.ethertype = some 0x86dd
    · simp only [h4, if_false]
      simp only [h6, if_true, Piece.append, skipVersion_code, List.nil_append]
      exact ⟨_, (known _).mpr id, knownPrereqs_sealed sealed_ldx40 _ _ _ _ _ _⟩
    · obtain ⟨off, ho⟩ : ∃ off, etherAt ctx.link ctx.vlanDepth = some off := by
        cases hl : ctx.link with
        | rawIp => exact absurd (hok hl) h4
        | ethernet => exact ⟨_, rfl⟩
        | linuxSll => exact ⟨_, rfl⟩
      have hoff : ctx.etherProtoOffset.getD 0 = off := by
        have he : ctx.etherProtoOffset = etherAt ctx.link ctx.vlanDepth := rfl
        rw [he, ho]
        rfl
      simp only [h4, h6, if_false, hoff, hnet]
      refine ⟨false, fun h => Bool.noConfusion h, .of_traced
        (portsVal pkt ctx.link ctx.vlanDepth want) (portsX pkt ctx.link ctx.vlanDepth) fun t => ?_⟩
      exact (dualCode_falls ho want t).mono (fun _ h => h.2) fun _ h => h

/-- A guard either leaves X alone or sets it from the packet. In the first case the prologue
it can rely on behind it was there before. -/
theorem asmGuard_sealed (g : Guard) (hok : ctx.Ok) : ∃ k, Sealed pkt k (asmGuard g ctx).1.code ∧
    (k = true → (asmGuard g ctx).2.facts.portsReady ≠ none → ctx.facts.portsReady ≠ none) := by
  have ether : ∀ et ctx, Sealed pkt true (asmEthertype et ctx).1.code := asmEthertype_sealed
  cases g with
  | none => exact ⟨true, .nil, fun _ h => h⟩
  | ethertype et =>
    obtain ⟨v, hv⟩ := asmEthertype_facts et ctx
    refine ⟨true, ether et ctx, fun _ h => ?_⟩
    have hp : (asmEthertype et ctx).2.facts.portsReady ≠ none := h
    rw [hv] at hp
    exact hp
  | ip4 n =>
    refine ⟨true, ?_, fun _ h => ?_⟩
    · show Sealed pkt true (asmIp4L4 n ctx).1.code
      rw [asmIp4L4_code]
      refine (ether 0x0800 ctx).append ?_
      split
      · exact .nil
      · exact sealed_test (by simp) (by simp) (does_ldb pkt _) (isLdAbs_ldb _) _
    · obtain ⟨v, hv⟩ := asmEthertype_facts 0x0800 ctx
      have hp : (asmIp4L4 n ctx).2.facts.portsReady ≠ none := h
      rw [asmIp4L4_facts, hv] at hp
      exact hp
  | ip6 n =>
    refine ⟨true, ?_, fun _ h => ?_⟩
    · show Sealed pkt true (asmIp6L4 n ctx).1.code
      rw [asmIp6L4_code]
      refine (ether 0x86dd ctx).append ?_
      split
      · exact .nil
      · exact sealed_test (by simp) (by simp) (does_ldb pkt _) (isLdAbs_ldb _) _
    · obtain ⟨v, hv⟩ := asmEthertype_facts 0x86dd ctx
      have hp : (asmIp6L4 n ctx).2.facts.portsReady ≠ none := h
      rw [asmIp6L4_facts, hv] at hp
      exact hp
  | ports want =>
    obtain ⟨k, hk, hs⟩ : ∃ k, (k = true → ctx.facts.portsReady ≠ none) ∧
        Sealed pkt k (asmPortPrologue want ctx).1.code := asmPortPrologue_sealed want hok
    show ∃ k, Sealed pkt k (asmPortPrereqs want ctx).1.code ∧ _
    unfold asmPortPrereqs
    split
    · rename_i set hset
      have hne : ctx.facts.portsReady ≠ none := by
        rw [hset]
        exact Option.some_ne_none set
      split
      · exact ⟨true, .nil, fun _ _ => hne⟩
      · exact ⟨k, hs, fun h _ => hk h⟩
    · exact ⟨k, hs, fun h _ => hk h⟩

theorem asmGuards_sealed (gs : List Guard) (hok : ctx.Ok) :
    ∃ k, Sealed pkt k (asmGuards gs ctx).1.code ∧
      (k = true → (asmGuards gs ctx).2.facts.portsReady ≠ none → ctx.facts.portsReady ≠ none) := by
  induction gs generalizing ctx with
  | nil => exact ⟨true, .nil, fun _ h => h⟩
  | cons g gs ih =>
    obtain ⟨k, hs, hk⟩ := asmGuard_sealed g hok
    obtain ⟨k', hs', hk'⟩ := ih (asmGuard_ok g hok)
    refine ⟨k && k', hs.append hs', fun h hp => ?_⟩
    rw [Bool.and_eq_true] at h
    exact hk h.1 (hk' h.2 hp)

end Guards

/-- Two states that hold the same X where the generator relies on it. -/
def SameX (ctx : Ctx) (s s' : Vm.Regs) : Prop := ctx.facts.portsReady ≠ none → s.x = s'.x

section Runs

variable {pkt : Vm.Packet} {mode : HoistMode} {ctx ctx' : Ctx} {p : Primitive} {c : Code}

/-- Behind a port prologue the generator relies on X. -/
theorem asmPortPrereqs_ready (want : L4Set) (ctx : Ctx) :
    (asmPortPrereqs want ctx).2.facts.portsReady ≠ none := by
  have prologue : (asmPortPrologue want ctx).2.facts.portsReady ≠ none := by
    unfold asmPortPrologue
    dsimp only
    split
    · exact Option.some_ne_none _
    · split
      · exact Option.some_ne_none _
      · exact Option.some_ne_none _
  unfold asmPortPrereqs
  split
  · rename_i set hset
    split
    · rw [hset]
      exact Option.some_ne_none set
    · exact prologue
  · exact prologue

/-- Behind a guard the two states still hold the same X. -/
theorem Sealed.before {k : Bool} {d : Code} {S : Vm.Regs → Vm.Regs → Prop} (hs : Sealed pkt k c)
    (hk : k = true → ctx'.facts.portsReady ≠ none → ctx.facts.portsReady ≠ none)
    (hd : Alike (Vm.machine pkt) (· = .packetLoad) d (SameX ctx') S fun _ _ => True) :
    Alike (Vm.machine pkt) (· = .packetLoad) (c ++ d) (SameX ctx) S fun _ _ => True := by
  obtain ⟨v, x, hg⟩ := hs
  intro s s' hx
  rw [Machine.run_append, Machine.run_append]
  have h := hg s
  have h' := hg s'
  rcases v with _ | _ | _
  · obtain ⟨_, rfl, hr⟩ := h
    obtain ⟨_, rfl, hr'⟩ := h'
    rw [hr, hr']
    exact .stop rfl
  · obtain ⟨t, -, hr⟩ := h
    obtain ⟨t', -, hr'⟩ := h'
    rw [hr, hr']
    exact .reject trivial
  · obtain ⟨t, ht, hr⟩ := h
    obtain ⟨t', ht', hr'⟩ := h'
    rw [hr, hr']
    apply hd t t'
    intro hready
    rw [ht, ht']
    cases k with
    | true => exact hx (hk rfl hready)
    | false => rfl

/-- From states with the same X a primitive leaves the same way. -/
theorem asmPrimitive_alike (hp : primOk p ctx.link = true) (hok : ctx.Ok) :
    Alike (Vm.machine pkt) (· = .packetLoad) (asmPrimitive p ctx).1.code (SameX ctx)
      (SameX (asmPrimitive p ctx).2) fun _ _ => True := by
  obtain ⟨k, hs, hk⟩ := asmGuard_sealed (guardOf p) hok
  refine hs.before hk fun t t' hsame => ?_
  have hread : readsX p = true → t'.x = t.x := by
    intro hr
    obtain ⟨want, hw⟩ := readsX_guard hp hr
    apply Eq.symm
    apply hsame
    rw [hw]
    exact asmPortPrereqs_ready want ctx
  have hsettled := settled_body pkt p ctx.link ctx.vlanDepth
  have hshaped := (solid_body p ctx.link ctx.vlanDepth).shaped
  have hbody := (hsettled.fits hshaped t.x t fun _ => rfl).alike
    (hsettled.fits hshaped t.x t' hread)
  refine hbody.mono (fun u u' h hready => ?_) fun _ _ _ => trivial
  by_cases hq : quiet (body p ctx.link ctx.vlanDepth)
  · have hctx : (asmPrimitive p ctx).2 = (asmGuard (guardOf p) ctx).2 := after_quiet _ hq
    rw [hctx] at hready
    rw [h.1 hq, h.2 hq]
    exact hsame hready
  · have hf : (asmPrimitive p ctx).2.facts = _ := after_loud (asmGuard (guardOf p) ctx).2 hq
    rw [hf] at hready
    exact absurd rfl hready

/-- Where no instruction of an expression has written X, it is as it was. -/
theorem asm_keeps_x (mode : HoistMode) (e : Expr) (ctx : Ctx) (s : Vm.Regs) :
    ((Vm.machine pkt).cells.run (asm mode e ctx).1.code 0 s).Leaves fun t =>
      (asm mode e ctx).2.xWrites = ctx.xWrites → t.x = s.x := by
  by_cases hx : (asm mode e ctx).2.xWrites = ctx.xWrites
  · have hq : quiet (asm mode e ctx).1.code := by
      have h := asm_xWrites mode e ctx
      exact xCount_eq_zero.mp (by omega)
    exact (quiet_leaves pkt (solid_asm mode e ctx).shaped hq 0 s).mono fun _ h _ => h
  · cases (Vm.machine pkt).cells.run (asm mode e ctx).1.code 0 s with
    | past n t => exact fun h => absurd h hx
    | exit y t => exact fun h => absurd h hx
    | halt v => trivial
    | stop e => trivial

theorem SameX.restore {s s' t t' : Vm.Regs} (h : SameX ctx s s')
    (ht : ctx'.xWrites = ctx.xWrites → t.x = s.x) (ht' : ctx'.xWrites = ctx.xWrites → t'.x = s'.x) :
    SameX (ctx'.restore ctx) t t' := by
  unfold Ctx.restore SameX
  dsimp only
  split
  · exact fun hn => absurd rfl hn
  · rename_i hn
    intro hready
    have he : ctx'.xWrites = ctx.xWrites := not_not.mp hn
    rw [ht he, ht' he]
    exact h hready

theorem meet_ready {f g : Facts} (h : (f.meet g).portsReady ≠ none) :
    f.portsReady ≠ none ∧ g.portsReady ≠ none := by
  simp only [Facts.meet] at h
  split at h
  · rename_i a b ha hb
    rw [ha, hb]
    exact ⟨Option.some_ne_none a, Option.some_ne_none b⟩
  · exact absurd rfl h

/-- An expression leaves the same way from any two states with the same X: by induction on it,
whatever checks it leaves out. -/
theorem asm_alike (e : Expr) (hp : ∀ p ∈ e.leaves, primOk p ctx.link = true) (hok : ctx.Ok) :
    Alike (Vm.machine pkt) (· = .packetLoad) (asm mode e ctx).1.code (SameX ctx)
      (SameX (asm mode e ctx).2) fun _ _ => True := by
  induction e generalizing ctx with
  | primitive p => exact asmPrimitive_alike (hp p List.mem_cons_self) hok
  | and l r hl hr =>
    obtain ⟨hpl, hpr⟩ := List.forall_mem_append.mp hp
    have hlink : (andRight mode l ctx).link = ctx.link := (asm_frame mode l ctx).1
    have h₂ := @hr (andRight mode l ctx) (by rw [hlink]; exact hpr) (asm_ok mode l hok)
    exact Alike.seq (vm_no_exit pkt) (hl hpl hok) h₂
  | or l r hl hr =>
    obtain ⟨hpl, hpr⟩ := List.forall_mem_append.mp hp
    have hlink₀ : (orEntry mode l r ctx).link = ctx.link := (asmGuards_frame _ ctx).1
    have hlink₁ := (asm_frame mode l (orEntry mode l r ctx)).1
    have hlinkR : (orRight mode l r ctx).link = ctx.link := hlink₁.trans hlink₀
    have hok₀ : (orEntry mode l r ctx).Ok := asmGuards_ok _ hok
    have h₁ := @hl (orEntry mode l r ctx) (by rw [hlink₀]; exact hpl) hok₀
    have h₂ := @hr (orRight mode l r ctx) (by rw [hlinkR]; exact hpr) (restore_ok hok₀ hlink₁)
    have hafter : (asm mode (.or l r) ctx).2.facts =
        (asm mode l (orEntry mode l r ctx)).2.facts.meet
          (asm mode r (orRight mode l r ctx)).2.facts := rfl
    have harms : Alike (Vm.machine pkt) (· = .packetLoad)
        (Frag.alt Piece.jaCell (asm mode l (orEntry mode l r ctx)).1.code
          (asm mode r (orRight mode l r ctx)).1.code)
        (SameX (orEntry mode l r ctx)) (SameX (asm mode (.or l r) ctx).2) fun _ _ => True := by
      intro s s' hs
      refine Alike.alt (vm_no_exit pkt) (vm_jumps pkt) (P := fun t t' => t = s ∧ t' = s')
        (Q := SameX (orRight mode l r ctx)) ?_ (fun t t' ht => ?_) s s' ⟨rfl, rfl⟩
      · rintro t t' ⟨rfl, rfl⟩
        refine ((h₁ t t' hs).leaves (asm_keeps_x mode l _ t) (asm_keeps_x mode l _ t')).mono
          (fun u u' h hready => h.1 (meet_ready hready).1) fun u u' h => ?_
        exact hs.restore h.2.1 h.2.2
      · exact (h₂ t t' ht).mono (fun u u' h hready => h (meet_ready hready).2) fun _ _ h => h
    obtain ⟨k, hs, hk⟩ := asmGuards_sealed (frontGuards mode l r ctx.link) hok
    exact hs.before hk harms
  | not e ih =>
    intro s s' hs
    refine Alike.neg (vm_no_exit pkt) (vm_jumps pkt) (P := fun t t' => t = s ∧ t' = s') ?_ s s'
      ⟨rfl, rfl⟩
    rintro t t' ⟨rfl, rfl⟩
    refine ((ih hp hok t t' hs).leaves (asm_keeps_x mode e ctx t) (asm_keeps_x mode e ctx t')).mono
      (fun _ _ _ => trivial) fun u u' h => ?_
    exact hs.restore h.2.1 h.2.2

end Runs

section Start

variable {mode : HoistMode} {e : Expr} {link : LinkType} {insns : List Insn} {pkt : Vm.Packet}

theorem sameX_start (link : LinkType) (s s' : Vm.Regs) : SameX (.start link) s s' := by
  intro h
  cases link with
  | ethernet => exact absurd rfl h
  | linuxSll => exact absurd rfl h
  | rawIp => exact absurd rfl h

/-- The code of an expression as it stands at the start of a program: from any two states it
has one outcome. -/
theorem start_fits (pkt : Vm.Packet) (hl : Links mode e link) (s s' : Vm.Regs) : ∃ t,
    ((Vm.machine pkt).cells.run (asm mode e (.start link)).1.code 0 s).Fits (· = .packetLoad)
      (fun _ => True) (fun _ => True) t ∧
    ((Vm.machine pkt).cells.run (asm mode e (.start link)).1.code 0 s').Fits (· = .packetLoad)
      (fun _ => True) (fun _ => True) t :=
  (asm_alike e hl.1.leaves (start_ok link) s s' (sameX_start link s s')).fits

/-- From a state of any registers, a compiled program ends as its code before the passes does. -/
theorem run_compiled (hc : compileWith mode e link = .ok insns) (hj : JumpsFitIn mode e link)
    {s : Vm.Regs} {t : Tri} (h : ((Vm.machine pkt).cells.run (asm mode e (.start link)).1.code 0
      s).Fits (· = .packetLoad) (fun _ => True) (fun _ => True) t) :
    (Vm.machine pkt).run insns 0 s = ending t := by
  obtain ⟨hl, rfl⟩ := compileWith_ok.mp hc
  have hopt := run_optimize (assembled_wellFormed hl) (hj.assembled hl) (vm_laws pkt) s
  have hraw := run_raw (vm_laws pkt) (assembled_linked hl) 0 s
  exact (hopt.trans hraw).trans (run_program h)

/-- What A, X and the scratch memory hold when a filter starts has no say in how it ends. -/
theorem start_irrelevant (e : Expr) (link : LinkType) (insns : List Insn)
    (hc : compile e link = .ok insns) (hj : JumpsFit e link) (pkt : Vm.Packet) (s : Vm.Regs) :
    (Vm.machine pkt).run insns 0 s = Vm.exec insns pkt := by
  obtain ⟨t, hs, hstart⟩ := start_fits pkt (compileWith_ok.mp hc).1 s .start
  have h := run_compiled hc hj hs
  have h' := run_compiled hc hj hstart
  exact h.trans h'.symm

/-- `tcp port 80 or tcp port 53`, and registers no filter expects. -/
theorem start_irrelevant_web : ∃ insns, compile webOrDns .ethernet = .ok insns ∧
    (Vm.machine toWeb).run insns 0 ⟨7, 9, Vector.replicate 16 3⟩ = Vm.exec insns toWeb := by
  have hok : (compile webOrDns .ethernet).isOk = true := by decide +kernel
  have hlen : (assembled .hoist webOrDns .ethernet).length ≤ 2 ^ 32 := by decide +kernel
  cases hc : compile webOrDns .ethernet with
  | error err =>
    rw [hc] at hok
    cases hok
  | ok insns =>
    exact ⟨insns, rfl, start_irrelevant webOrDns .ethernet insns hc (jumpsFitIn_of_length hlen)
      toWeb _⟩

end Start

end PktBaffle.Proofs.Classic
