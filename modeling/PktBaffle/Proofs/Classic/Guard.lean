import PktBaffle.Proofs.Classic.Facts

namespace PktBaffle.Proofs.Classic
open Bpf Forward PktBaffle.Classic PktBaffle.Optimizer PktBaffle.Proofs.Optimizer

section Steps

variable {pkt : Vm.Packet} {t : Traced}

theorem does_ldh (pkt : Vm.Packet) (k : UInt32) : Does pkt (.ldhAbs k) (.load (Vm.half pkt k)) := by
  have h : Does pkt (.ldhAbs k) _ := does_abs (by simp +decide only [Insn.ldhAbs])
    (by simp +decide only [Insn.ldhAbs])
  have hv : Vm.sizedLoad pkt k ((Insn.ldhAbs k).code &&& 0x18) = Vm.half pkt k := by
    simp +decide only [Vm.sizedLoad, Insn.ldhAbs, if_true, if_false]
  exact hv ▸ h

theorem does_ldb (pkt : Vm.Packet) (k : UInt32) : Does pkt (.ldbAbs k) (.load (Vm.byte pkt k)) := by
  have h : Does pkt (.ldbAbs k) _ := does_abs (by simp +decide only [Insn.ldbAbs])
    (by simp +decide only [Insn.ldbAbs])
  have hv : Vm.sizedLoad pkt k ((Insn.ldbAbs k).code &&& 0x18) = Vm.byte pkt k := by
    simp +decide only [Vm.sizedLoad, Insn.ldbAbs, if_true, if_false]
  exact hv ▸ h

theorem isLdAbs_ldh (k : UInt32) : isLdAbs (.ldhAbs k) = true := by
  simp +decide only [isLdAbs, Insn.ldhAbs]

theorem isLdAbs_ldb (k : UInt32) : isLdAbs (.ldbAbs k) = true := by
  simp +decide only [isLdAbs, Insn.ldbAbs]

/-- The state behind an absolute load. -/
def Traced.loaded (t : Traced) (i : Insn) (a : UInt32) : Traced :=
  ⟨{ t.regs with a := a }, some (i.code, i.k), t.events⟩

theorem load_stop {i : Insn} (hd : Does pkt i (.load none)) (c : Code) :
    (traced pkt).cells.run (.op i :: c) 0 t = .stop .packetLoad := by
  refine Machine.run_stop ?_
  show (Vm.act pkt i t.regs).map _ = _
  rw [hd.2]
  rfl

theorem load_run {i : Insn} {a : UInt32} (hd : Does pkt i (.load (some a))) (hl : isLdAbs i = true)
    (c : Code) : (traced pkt).cells.run (.op i :: c) 0 t = (traced pkt).cells.run c 0 (t.loaded i a) := by
  refine Machine.run_next ?_
  show (Vm.act pkt i t.regs).map (observe i t) = _
  rw [hd.2]
  simp only [Effect.apply, Vm.orStop, Except.map, observe, hl, if_true]
  rfl

theorem loadX_stop {i : Insn} (hd : Does pkt i (.loadX none)) (c : Code) :
    (traced pkt).cells.run (.op i :: c) 0 t = .stop .packetLoad := by
  refine Machine.run_stop ?_
  show (Vm.act pkt i t.regs).map (observe i t) = _
  rw [hd.2]
  rfl

theorem loadX_run {i : Insn} {x : UInt32} (hd : Does pkt i (.loadX (some x)))
    (hl : isLdAbs i = false) (hw : writesA i = false) (c : Code) :
    (traced pkt).cells.run (.op i :: c) 0 t =
      (traced pkt).cells.run c 0 { t with regs := { t.regs with x := x } } := by
  refine Machine.run_next ?_
  show (Vm.act pkt i t.regs).map (observe i t) = _
  rw [hd.2]
  simp only [Effect.apply, Vm.orStop, Except.map, observe, hl, hw]
  rfl

/-- The state behind a comparison. -/
def Traced.compared (t : Traced) (l : UInt16 × UInt32) (jump : UInt16) (k : UInt32) (b : Bool) :
    Traced := { t with events := ⟨l, jump, k, b⟩ :: t.events }

theorem jeq_act (pkt : Vm.Packet) (k : UInt32) (jt jf : UInt8) {l : UInt16 × UInt32} (hl : t.last = some l) :
    (traced pkt).act (.jeqK k jt jf) t =
      .ok (.jump (if t.regs.a == k then .jt else .jf) (t.compared l jeqCode k (t.regs.a == k))) := by
  have hact : Vm.act pkt (.jeqK k jt jf) t.regs =
      .ok (.jump (if t.regs.a == k then .jt else .jf) t.regs) := by
    simp +decide only [Vm.act, Insn.jeqK, Vm.taken, Vm.usesX, if_true, if_false]
    rfl
  have hc : isCondJump (.jeqK k jt jf) = true := by simp +decide only [isCondJump, Insn.jeqK]
  show (Vm.act pkt _ t.regs).map (observe (.jeqK k jt jf) t) = _
  rw [hact]
  simp only [Except.map, observe, Traced.compared, hl, hc, if_true]
  cases t.regs.a == k <;> rfl

theorem jset_act (pkt : Vm.Packet) (k : UInt32) (jt jf : UInt8) {l : UInt16 × UInt32} (hl : t.last = some l) :
    (traced pkt).act (.jsetK k jt jf) t =
      .ok (.jump (if t.regs.a &&& k != 0 then .jt else .jf)
        (t.compared l jsetCode k (t.regs.a &&& k != 0))) := by
  have hact : Vm.act pkt (.jsetK k jt jf) t.regs =
      .ok (.jump (if t.regs.a &&& k != 0 then .jt else .jf) t.regs) := by
    simp +decide only [Vm.act, Insn.jsetK, Vm.taken, Vm.usesX, if_true, if_false]
    rfl
  have hc : isCondJump (.jsetK k jt jf) = true := by simp +decide only [isCondJump, Insn.jsetK]
  show (Vm.act pkt _ t.regs).map (observe (.jsetK k jt jf) t) = _
  rw [hact]
  simp only [Except.map, observe, Traced.compared, hl, hc, if_true]
  cases t.regs.a &&& k != 0 <;> rfl

theorem jeqFail_run (k : UInt32) (c : Code) {l : UInt16 × UInt32} (hl : t.last = some l) :
    (traced pkt).cells.run (jeqFail k :: c) 0 t =
      if t.regs.a == k then (traced pkt).cells.run c 0 (t.compared l jeqCode k true)
      else .exit .failure (t.compared l jeqCode k false) := by
  have hact : (traced pkt).cells.act (jeqFail k) t = _ := jeq_act pkt k 0 0xff hl
  cases hb : t.regs.a == k with
  | true =>
    rw [hb] at hact
    exact Machine.run_jump hact rfl
  | false =>
    rw [hb] at hact
    exact Machine.run_exit hact rfl

end Steps

section Codes

variable {pkt : Vm.Packet}

/-- One load and one comparison. -/
theorem test_falls {load : Insn} {v : Option UInt32} (hd : Does pkt load (.load v))
    (hl : isLdAbs load = true) (k : UInt32) (t : Traced) :
    ((traced pkt).cells.run (test load k) 0 t).Falls (· = .packetLoad)
      (fun t' => ⟨(load.code, load.k), jeqCode, k, true⟩ ∈ t'.events) (fun _ => True)
      (equals v k) := by
  cases v with
  | none => exact ⟨_, rfl, load_stop hd _⟩
  | some a =>
    have hrun : (traced pkt).cells.run (test load k) 0 t = _ :=
      (load_run hd hl _).trans (jeqFail_run (t := t.loaded load a) k [] rfl)
    rw [hrun]
    show Result.Falls _ _ _ (some (a == k)) (if (a == k) = true then _ else _)
    cases a == k with
    | true => exact ⟨_, List.mem_cons_self, rfl⟩
    | false => exact ⟨_, trivial, rfl⟩

/-- The protocol set, with the protocol byte in A. -/
theorem l4Check_falls (want : L4Set) {off : Nat} {t : Traced}
    (hl : t.last = some (ldbCode, .ofNat off)) :
    ((traced pkt).cells.run (l4Check want) 0 t).Falls (· = .packetLoad) (l4Seen off want)
      (fun _ => True) (some (admits want t.regs.a)) := by
  cases want with
  | one n =>
    have hrun : (traced pkt).cells.run _ 0 t = _ := jeqFail_run n.toUInt32 [] hl
    show Result.Falls _ _ _ (some (t.regs.a == n.toUInt32)) _
    rw [l4Check, hrun]
    cases t.regs.a == n.toUInt32 with
    | true =>
      exact ⟨_, ⟨n, by simp [L4Set.contains], List.mem_cons_self⟩, rfl⟩
    | false => exact ⟨_, trivial, rfl⟩
  | tcpOrUdp =>
    show Result.Falls _ _ _ (some (t.regs.a == 6 || t.regs.a == 17)) _
    have hact : (traced pkt).cells.act ⟨.jeqK 6 0xff 0, some (.jt, .skip 1)⟩ t = _ :=
      jeq_act pkt 6 0xff 0 hl
    cases h6 : t.regs.a == 6 with
    | true =>
      rw [h6] at hact
      refine ⟨t.compared (ldbCode, .ofNat off) jeqCode 6 true,
        ⟨6, by decide, List.mem_cons_self⟩, ?_⟩
      exact (Machine.run_jump hact rfl).trans rfl
    | false =>
      rw [h6] at hact
      have hrun : (traced pkt).cells.run (l4Check .tcpOrUdp) 0 t = _ :=
        (Machine.run_jump (n := 0) hact rfl).trans (jeqFail_run
          (t := t.compared (ldbCode, .ofNat off) jeqCode 6 false) 17 [] hl)
      rw [hrun]
      show Result.Falls _ _ _ (some (false || t.regs.a == 17))
        (if (t.regs.a == 17) = true then _ else _)
      cases t.regs.a == 17 with
      | true => exact ⟨_, ⟨17, by decide, List.mem_cons_self⟩, rfl⟩
      | false => exact ⟨_, trivial, rfl⟩

theorem loadL4_falls (pkt : Vm.Packet) (off : Nat) (want : L4Set) (t : Traced) :
    ((traced pkt).cells.run (loadL4 off want) 0 t).Falls (· = .packetLoad) (l4Seen off want)
      (fun _ => True) (l4Val pkt off want) := by
  unfold l4Val
  have hd := does_ldb pkt (.ofNat off)
  cases hv : Vm.byte pkt (.ofNat off) with
  | none =>
    rw [hv] at hd
    exact ⟨_, rfl, load_stop hd _⟩
  | some a =>
    rw [hv] at hd
    have hrun : (traced pkt).cells.run (loadL4 off want) 0 t = _ :=
      load_run hd (isLdAbs_ldb _) (l4Check want)
    rw [hrun]
    exact l4Check_falls want (t := t.loaded (.ldbAbs (.ofNat off)) a) rfl

/-- The fragment test, and the header length into X. -/
theorem fragMsh_falls (pkt : Vm.Packet) (link : LinkType) (d : Nat) (t : Traced) :
    ((traced pkt).cells.run (fragMsh (netAt link d)) 0 t).Falls (· = .packetLoad)
      (fun t' => fragSeen link d t' ∧ some t'.regs.x = ihl pkt link d) (fun _ => True)
      ((fragVal pkt link d).and ((ihl pkt link d).map fun _ => true)) := by
  unfold fragVal
  have hd := does_ldh pkt (.ofNat (netAt link d + 6))
  cases hv : Vm.half pkt (.ofNat (netAt link d + 6)) with
  | none =>
    rw [hv] at hd
    exact ⟨_, rfl, load_stop hd _⟩
  | some a =>
    rw [hv] at hd
    have hrun : (traced pkt).cells.run (fragMsh (netAt link d)) 0 t = _ :=
      load_run hd (isLdAbs_ldh _) _
    rw [hrun]
    have hact : (traced pkt).cells.act (.hole (.jsetK 0x1fff 0xff 0) .jt .failure)
        (t.loaded (.ldhAbs (.ofNat (netAt link d + 6))) a) = _ := 
      jset_act pkt 0x1fff 0xff 0 rfl
    have hzero : (a &&& 0x1fff == 0) = !(a &&& 0x1fff != 0) := by simp [bne]
    simp only [Option.map_some, hzero]
    have hact' : (traced pkt).cells.act (.hole (.jsetK 0x1fff 0xff 0) .jt .failure)
        (t.loaded (.ldhAbs (.ofNat (netAt link d + 6))) a) =
        .ok (.jump (if a &&& 0x1fff != 0 then .jt else .jf)
          ((t.loaded (.ldhAbs (.ofNat (netAt link d + 6))) a).compared
            (ldhCode, .ofNat (netAt link d + 6)) jsetCode 0x1fff (a &&& 0x1fff != 0))) := hact
    cases hb : (a &&& 0x1fff != 0) with
    | true =>
      rw [hb] at hact'
      exact ⟨_, trivial, Machine.run_exit hact' rfl⟩
    | false =>
      rw [hb] at hact'
      rw [Machine.run_jump (n := 0) hact' rfl]
      have hm : Does pkt (.ldxMsh (.ofNat (netAt link d))) _ := does_msh rfl
      simp only [Bool.not_false, Tri.and_true]
      have hihl : ((Vm.byte pkt (Insn.ldxMsh (.ofNat (netAt link d))).k).map
          fun b => 4 * (b &&& 0xf)) = ihl pkt link d := rfl
      rw [hihl] at hm
      cases hi : ihl pkt link d with
      | none =>
        rw [hi] at hm
        exact ⟨_, rfl, loadX_stop hm _⟩
      | some x =>
        rw [hi] at hm
        have hla : isLdAbs (.ldxMsh (.ofNat (netAt link d))) = false := by
          simp +decide only [isLdAbs, Insn.ldxMsh]
        have hwa : writesA (.ldxMsh (.ofNat (netAt link d))) = false := by
          simp +decide only [writesA, Insn.ldxMsh]
        rw [loadX_run hm hla hwa]
        exact ⟨_, ⟨List.mem_cons_self, rfl⟩, Machine.run_nil _ _ _⟩

theorem ldx40_run (t : Traced) :
    (traced pkt).cells.run ldx40 0 t = .past 0 { t with regs := { t.regs with x := 40 } } := by
  have hm : Does pkt (.ldxImm 40) _ := does_imm rfl
  have hrun := loadX_run (t := t) hm (by decide) (by decide) []
  exact hrun.trans (Machine.run_nil _ _ _)

/-- The IPv4 half of the prologue. -/
theorem ports4_falls (pkt : Vm.Packet) (link : LinkType) (d : Nat) (want : L4Set) (t : Traced) :
    ((traced pkt).cells.run (loadL4 (netAt link d + 9) want ++ fragMsh (netAt link d)) 0 t).Falls
      (· = .packetLoad)
      (fun t' => l4Seen (netAt link d + 9) want t' ∧ fragSeen link d t' ∧
        some t'.regs.x = ihl pkt link d) (fun _ => True) (ports4 pkt link d want) := by
  rw [Machine.run_append]
  refine (loadL4_falls pkt (netAt link d + 9) want t).bind (fun _ t₁ hl => ?_)
  have hf := (fragMsh_falls pkt link d t₁).leaves (events_leaves _ 0 t₁)
  refine hf.mono ?_ (fun _ _ => trivial)
  rintro t₂ ⟨⟨hs, hx⟩, he⟩
  exact ⟨hl.mono he, hs, hx⟩

theorem ports6_falls (pkt : Vm.Packet) (link : LinkType) (d : Nat) (want : L4Set) (t : Traced) :
    ((traced pkt).cells.run (loadL4 (netAt link d + 6) want ++ ldx40) 0 t).Falls (· = .packetLoad)
      (fun t' => l4Seen (netAt link d + 6) want t' ∧ t'.regs.x = 40) (fun _ => True)
      (ports6 pkt link d want) := by
  rw [Machine.run_append]
  have h := (loadL4_falls pkt (netAt link d + 6) want t).bind (u := some true)
    (f := (traced pkt).cells.run ldx40)
    (T := fun t' => l4Seen (netAt link d + 6) want t' ∧ t'.regs.x = 40)
    (fun _ t₁ hl => ⟨{ t₁ with regs := { t₁.regs with x := 40 } }, ⟨hl, rfl⟩, ldx40_run t₁⟩)
  rw [Tri.and_accept] at h
  exact h

theorem jaSkip_run (n : Nat) (c : Code) (t : Traced) :
    (traced pkt).cells.run (⟨.ja 0, some (.ja, .skip n)⟩ :: c) 0 t =
      (traced pkt).cells.run c n t := by
  have hact : (traced pkt).cells.act ⟨.ja 0, some (.ja, .skip n)⟩ t = .ok (.jump .ja t) := by
    have hmap : (traced pkt).act (.ja 0) t =
        (Vm.act pkt (.ja 0) t.regs).map (observe (.ja 0) t) := rfl
    have hja : Vm.act pkt (.ja 0) t.regs = .ok (.jump .ja t.regs) := (vm_jumps pkt).act t.regs
    have hc : isCondJump (.ja 0) = false := by decide
    rw [Machine.cells_act, hmap, hja]
    simp only [Except.map, observe, hc]
    cases t with
    | mk regs last events => cases last <;> rfl
  exact Machine.run_jump hact rfl

/-- The whole prologue, when the IP version is open. -/
theorem dualCode_falls {link : LinkType} {d off : Nat} (ho : etherAt link d = some off)
    (want : L4Set) (t : Traced) :
    ((traced pkt).cells.run (dualCode want off (netAt link d)) 0 t).Falls (· = .packetLoad)
      (fun t' => portsSeen pkt link d want t' ∧ t'.regs.x = portsX pkt link d) (fun _ => True)
      (portsVal pkt link d want) := by
  obtain ⟨v4, hv4⟩ : ∃ v4, v4 = loadL4 (netAt link d + 9) want ++ fragMsh (netAt link d) := ⟨_, rfl⟩
  obtain ⟨v6, hv6⟩ : ∃ v6, v6 = loadL4 (netAt link d + 6) want ++ ldx40 := ⟨_, rfl⟩
  have hcode : dualCode want off (netAt link d) = .op (.ldhAbs (.ofNat off)) ::
      ⟨.jeqK 0x86dd 0xff 0, some (.jt, .skip (v4.length + 2))⟩ :: jeqFail 0x0800 ::
      (v4 ++ ⟨.ja 0, some (.ja, .skip v6.length)⟩ :: v6) := by
    rw [hv4, hv6]
    rfl
  rw [hcode]
  simp only [portsVal, portsX, ho]
  have hd := does_ldh pkt (.ofNat off)
  cases hv : Vm.half pkt (.ofNat off) with
  | none =>
    rw [hv] at hd
    exact ⟨_, rfl, load_stop hd _⟩
  | some et =>
    rw [hv] at hd
    dsimp only
    rw [load_run hd (isLdAbs_ldh _)]
    obtain ⟨t₁, ht₁⟩ : ∃ t₁, t₁ = t.loaded (.ldhAbs (.ofNat off)) et := ⟨_, rfl⟩
    have hl₁ : t₁.last = some (ldhCode, .ofNat off) := by rw [ht₁]; rfl
    have ha₁ : t₁.regs.a = et := by rw [ht₁]; rfl
    rw [← ht₁]
    have hact : (traced pkt).cells.act
        ⟨.jeqK 0x86dd 0xff 0, some (.jt, .skip (v4.length + 2))⟩ t₁ =
        .ok (.jump (if et == 0x86dd then .jt else .jf)
          (t₁.compared (ldhCode, .ofNat off) jeqCode 0x86dd (et == 0x86dd))) := by
      rw [Machine.cells_act, jeq_act pkt 0x86dd 0xff 0 hl₁, ha₁]
    by_cases h6 : et = 0x86dd
    · -- Over the IPv4 path and its jump.
      have hb : (et == 0x86dd) = true := by simp [h6]
      rw [hb] at hact
      rw [Machine.run_jump (n := v4.length + 2) hact rfl]
      have hskip : ∀ t', (traced pkt).cells.run
          (jeqFail 0x0800 :: (v4 ++ ⟨.ja 0, some (.ja, .skip v6.length)⟩ :: v6)) (v4.length + 2) t' =
          (traced pkt).cells.run v6 0 t' := by
        intro t'
        rw [Machine.run_skip, Machine.run_append, Machine.run_past]
        rfl
      rw [hskip, if_pos h6, hv6]
      have hf := (ports6_falls pkt link d want
        (t₁.compared (ldhCode, .ofNat off) jeqCode 0x86dd true)).leaves (events_leaves _ 0 _)
      refine hf.mono (fun t' hfall => ?_) (fun _ _ => trivial)
      obtain ⟨⟨hs, hx⟩, he⟩ := hfall
      refine ⟨.inr ⟨?_, ?_, ?_, hs⟩, ?_⟩
      · simp [ho]
      · simp [etherVal, ho, hv, equals, h6]
      · simp only [etherSeen, ho]
        exact he List.mem_cons_self
      · rw [if_pos (by rw [h6])]
        exact hx
    · have hb : (et == 0x86dd) = false := by simp [h6]
      rw [hb] at hact
      rw [Machine.run_jump (n := 0) hact rfl]
      have hl₂ : (t₁.compared (ldhCode, .ofNat off) jeqCode 0x86dd false).last =
          some (ldhCode, .ofNat off) := hl₁
      rw [jeqFail_run _ _ hl₂, if_neg h6]
      have ha₂ : (t₁.compared (ldhCode, .ofNat off) jeqCode 0x86dd false).regs.a = et := ha₁
      rw [ha₂]
      by_cases h4 : et = 0x0800
      · have hb4 : (et == 0x0800) = true := by simp [h4]
        have hn6 : ¬ some et = some (0x86dd : UInt32) := by rw [h4]; decide
        simp only [hb4, if_true, if_pos h4, if_neg hn6]
        rw [Machine.run_append, hv4]
        have hf := (ports4_falls pkt link d want
          ((t₁.compared (ldhCode, .ofNat off) jeqCode 0x86dd false).compared (ldhCode, .ofNat off)
            jeqCode 0x0800 true)).leaves (events_leaves _ 0 _)
        have hb := hf.bind (u := some true)
          (f := (traced pkt).cells.run (⟨.ja 0, some (.ja, .skip v6.length)⟩ :: v6))
          (T := fun t' => (l4Seen (netAt link d + 9) want t' ∧ fragSeen link d t' ∧
            some t'.regs.x = ihl pkt link d) ∧ etherSeen link d 0x0800 t') ?_
        · rw [Tri.and_accept] at hb
          refine (hb.mono (G := fun _ => True) (fun t' hfall => ?_) (fun _ _ => trivial))
          obtain ⟨⟨hs, hfr, hx⟩, he⟩ := hfall
          refine ⟨.inl ⟨?_, he, hs, hfr⟩, ?_⟩
          · simp [etherVal, ho, hv, equals, h4]
          rw [← hx]
          rfl
        · intro _ t' hfall
          obtain ⟨hs, he⟩ := hfall
          refine ⟨t', ⟨hs, ?_⟩, ?_⟩
          · simp only [etherSeen, ho]
            exact he List.mem_cons_self
          · rw [jaSkip_run]
            have hp := Machine.run_past ((traced pkt).cells) v6 0 t'
            rw [Nat.add_zero] at hp
            exact hp
      · have hb4 : (et == 0x0800) = false := by simp [h4]
        simp only [hb4, if_neg h4]
        exact ⟨_, trivial, rfl⟩

end Codes

section Emitted

variable {pkt : Vm.Packet} {ctx : Ctx} {tags : Tags} {t : Traced}

/-- The facts behind a piece of code, with the depths at which they were recorded. -/
def SatAfter (pkt : Vm.Packet) (ctx ctx' : Ctx) (tags : Tags) (t' : Traced) : Prop :=
  Sat pkt ctx.link ctx'.facts (retag ctx.vlanDepth ctx.facts ctx'.facts tags) t'

theorem test_quiet {load : Insn} (h : writesX load = false) (k : UInt32) : quiet (test load k) := by
  intro a ha
  simp only [test, List.mem_cons, List.not_mem_nil, or_false] at ha
  rcases ha with rfl | rfl
  · exact h
  · exact writesX_jeqK k _ _

/-- A test and what the run leaves as it was. -/
theorem test_leaves {load : Insn} (hp : plain load = true) (hw : writesX load = false) {v : Option UInt32}
    (hd : Does pkt load (.load v)) (hl : isLdAbs load = true) (k : UInt32) (t : Traced) :
    ((traced pkt).cells.run (test load k) 0 t).Falls (· = .packetLoad)
      (fun t' => (⟨(load.code, load.k), jeqCode, k, true⟩ ∈ t'.events ∧ equals v k = some true) ∧
        t.events ⊆ t'.events ∧ t'.regs.x = t.regs.x) (fun _ => True) (equals v k) := by
  have h := ((test_falls hd hl k t).accepts.leaves (events_leaves _ 0 t)).leaves
    (quiet_traced (solid_test hp k).shaped (test_quiet hw k) 0 t)
  refine h.mono ?_ (fun _ _ => trivial)
  rintro t' ⟨⟨h, he⟩, hx⟩
  exact ⟨h, he, hx⟩

theorem record_eq {α : Type} {old : Option α} {new v : α} (h : record old new = some v) :
    old = some v ∨ v = new := by
  cases old with
  | none =>
    simp only [record, Option.none_or, Option.some.injEq] at h
    exact .inr h.symm
  | some w => exact .inl h

/-- The ethertype guard, made or left out. -/
theorem asmEthertype_falls (et : UInt32) (hsat : Sat pkt ctx.link ctx.facts tags t)
    (hf : Fresh (asmEthertype et ctx).1.skips tags) :
    ((traced pkt).cells.run (asmEthertype et ctx).1.code 0 t).Falls (· = .packetLoad)
      (fun t' => SatAfter pkt ctx (asmEthertype et ctx).2 tags t' ∧
        Seen pkt ctx.link ctx.vlanDepth (.ethertype et) t') (fun _ => True)
      (etherVal pkt ctx.link ctx.vlanDepth et) := by
  have hoff : ctx.etherProtoOffset = etherAt ctx.link ctx.vlanDepth := rfl
  unfold asmEthertype at hf ⊢
  rw [hoff] at hf ⊢
  cases ho : etherAt ctx.link ctx.vlanDepth with
  | none =>
    have hval : etherVal pkt ctx.link ctx.vlanDepth et = some true := by simp only [etherVal, ho]
    rw [hval]
    refine ⟨t, ⟨?_, by simp only [etherSeen, ho], hval⟩, Machine.run_nil _ _ _⟩
    show Sat _ _ _ _ _
    rw [retag_self]
    exact hsat
  | some off =>
    rw [ho] at hf
    by_cases hk : ctx.facts.ethertype = some et
    · simp only [hk, if_true] at hf ⊢
      have htag : tags.ether = ctx.vlanDepth := hf ⟨0, .ethertype et, ctx.vlanDepth⟩ (by
        simp [Piece.skip])
      have hseen : Seen pkt ctx.link ctx.vlanDepth (.ethertype et) t := by
        have := hsat (.ethertype et) hk
        simp only [tagOf, htag] at this
        exact this
      rw [hseen.2]
      refine ⟨t, ⟨?_, hseen⟩, Machine.run_nil _ _ _⟩
      show Sat _ _ _ _ _
      rw [retag_self]
      exact hsat
    · simp only [hk, if_false]
      have hval : etherVal pkt ctx.link ctx.vlanDepth et =
          equals (Vm.half pkt (.ofNat off)) et := by simp only [etherVal, ho]
      rw [hval]
      refine (test_leaves (by simp) (by simp) (does_ldh pkt _) (isLdAbs_ldh _) et t).mono
        (fun t' hfall => ?_) (fun _ _ => trivial)
      obtain ⟨⟨hev, hv⟩, he, hx⟩ := hfall
      have hseen : Seen pkt ctx.link ctx.vlanDepth (.ethertype et) t' := by
        refine ⟨?_, hval.trans hv⟩
        simp only [etherSeen, ho]
        exact hev
      refine ⟨hsat.record he hx (fun check hc => ?_), hseen⟩
      cases check with
      | ethertype et' =>
        rcases record_eq hc with h | rfl
        · exact .inl h
        · exact .inr hseen
      | ip4Proto n => exact .inl hc
      | ip6Nh n => exact .inl hc
      | ports want => exact .inl hc

/-- A check of one byte behind another guard, made unless it is already known to hold. -/
theorem byteTest_falls {known : Prop} [Decidable known] (off : Nat) (n : UInt8) (t : Traced)
    (hk : known → byteSeen off n t ∧ equals (Vm.byte pkt (.ofNat off)) n.toUInt32 = some true) :
    ((traced pkt).cells.run (if known then [] else test (.ldbAbs (.ofNat off)) n.toUInt32) 0 t).Falls
      (· = .packetLoad)
      (fun t' => (byteSeen off n t' ∧ equals (Vm.byte pkt (.ofNat off)) n.toUInt32 = some true) ∧
        t.events ⊆ t'.events ∧ t'.regs.x = t.regs.x) (fun _ => True)
      (equals (Vm.byte pkt (.ofNat off)) n.toUInt32) := by
  split
  · rename_i h
    rw [(hk h).2]
    exact ⟨t, ⟨⟨(hk h).1, rfl⟩, List.Subset.refl _, rfl⟩, Machine.run_nil _ _ _⟩
  · exact test_leaves (by simp) (by simp) (does_ldb pkt _) (isLdAbs_ldb _) _ t

theorem asmEthertype_facts (et : UInt32) (ctx : Ctx) :
    ∃ v, (asmEthertype et ctx).2.facts = { ctx.facts with ethertype := v } := by
  unfold asmEthertype
  split
  · split
    · exact ⟨_, rfl⟩
    · exact ⟨_, rfl⟩
  · exact ⟨_, rfl⟩

/-- Two steps that change different facts. -/
theorem retag_trans {d : Nat} {f g h : Facts} {tags : Tags}
    (h₁ : f.ethertype = g.ethertype ∨ g.ethertype = h.ethertype)
    (h₂ : f.ip4Proto = g.ip4Proto ∨ g.ip4Proto = h.ip4Proto)
    (h₃ : f.ip6Nh = g.ip6Nh ∨ g.ip6Nh = h.ip6Nh)
    (h₄ : f.portsReady = g.portsReady ∨ g.portsReady = h.portsReady) :
    retag d g h (retag d f g tags) = retag d f h tags := by
  unfold retag
  congr 1
  · rcases h₁ with h | h <;> simp [h]
  · rcases h₂ with h | h <;> simp [h]
  · rcases h₃ with h | h <;> simp [h]
  · rcases h₄ with h | h <;> simp [h]

theorem asmIp4L4_code (n : UInt8) (ctx : Ctx) : (asmIp4L4 n ctx).1.code =
    (asmEthertype 0x0800 ctx).1.code ++ (if ctx.facts.ip4Proto = some n then [] else
      test (.ldbAbs (.ofNat (netAt ctx.link ctx.vlanDepth + 9))) n.toUInt32) := by
  obtain ⟨v, hv⟩ := asmEthertype_facts 0x0800 ctx
  have hnet : (asmEthertype 0x0800 ctx).2.netOffset = netAt ctx.link ctx.vlanDepth := by
    rw [Ctx.netOffset, asmEthertype_link, asmEthertype_vlanDepth]
    rfl
  have hk : (asmEthertype 0x0800 ctx).2.facts.ip4Proto = ctx.facts.ip4Proto := by rw [hv]
  unfold asmIp4L4
  dsimp only
  rw [hk, hnet]
  split <;> simp [Piece.append, Piece.skip]

theorem asmIp6L4_code (n : UInt8) (ctx : Ctx) : (asmIp6L4 n ctx).1.code =
    (asmEthertype 0x86dd ctx).1.code ++ (if ctx.facts.ip6Nh = some n then [] else
      test (.ldbAbs (.ofNat (netAt ctx.link ctx.vlanDepth + 6))) n.toUInt32) := by
  obtain ⟨v, hv⟩ := asmEthertype_facts 0x86dd ctx
  have hnet : (asmEthertype 0x86dd ctx).2.netOffset = netAt ctx.link ctx.vlanDepth := by
    rw [Ctx.netOffset, asmEthertype_link, asmEthertype_vlanDepth]
    rfl
  have hk : (asmEthertype 0x86dd ctx).2.facts.ip6Nh = ctx.facts.ip6Nh := by rw [hv]
  unfold asmIp6L4
  dsimp only
  rw [hk, hnet]
  split <;> simp [Piece.append, Piece.skip]

theorem asmIp4L4_facts (n : UInt8) (ctx : Ctx) : (asmIp4L4 n ctx).2.facts =
    { (asmEthertype 0x0800 ctx).2.facts with ip4Proto := record ctx.facts.ip4Proto n } := by
  obtain ⟨v, hv⟩ := asmEthertype_facts 0x0800 ctx
  unfold asmIp4L4
  dsimp only
  split
  · rename_i h
    rw [hv] at h ⊢
    simp only at h
    simp [h, record]
  · simp [Ctx.withFacts, hv]

theorem asmIp6L4_facts (n : UInt8) (ctx : Ctx) : (asmIp6L4 n ctx).2.facts =
    { (asmEthertype 0x86dd ctx).2.facts with ip6Nh := record ctx.facts.ip6Nh n } := by
  obtain ⟨v, hv⟩ := asmEthertype_facts 0x86dd ctx
  unfold asmIp6L4
  dsimp only
  split
  · rename_i h
    rw [hv] at h ⊢
    simp only at h
    simp [h, record]
  · simp [Ctx.withFacts, hv]

/-- The check behind the ethertype is left out only at the depth of its fact. -/
def freshByte (skips : List Skipped) (tags : Tags) (ether : Tri) : Prop :=
  ether = some true → Fresh skips tags

theorem asmIp4L4_falls (n : UInt8) (hsat : Sat pkt ctx.link ctx.facts tags t)
    (hf : Fresh (asmEthertype 0x0800 ctx).1.skips tags)
    (hf' : freshByte (asmIp4L4 n ctx).1.skips tags (etherVal pkt ctx.link ctx.vlanDepth 0x0800)) :
    ((traced pkt).cells.run (asmIp4L4 n ctx).1.code 0 t).Falls (· = .packetLoad)
      (SatAfter pkt ctx (asmIp4L4 n ctx).2 tags) (fun _ => True)
      (guardVal pkt ctx.link ctx.vlanDepth (.ip4 n)) := by
  obtain ⟨v, hv⟩ := asmEthertype_facts 0x0800 ctx
  rw [asmIp4L4_code, Machine.run_append]
  refine (asmEthertype_falls 0x0800 hsat hf).bind (fun hval t₁ hfall => ?_)
  have hs₁ := hfall.1
  have hknown : ctx.facts.ip4Proto = some n →
      byteSeen (netAt ctx.link ctx.vlanDepth + 9) n t₁ ∧
        ip4Val pkt ctx.link ctx.vlanDepth n = some true := by
    intro hk
    have htag : tags.ip4 = ctx.vlanDepth := by
      refine hf' hval ⟨(asmEthertype 0x0800 ctx).1.code.length, .ip4Proto n, ctx.vlanDepth⟩ ?_
      unfold asmIp4L4
      dsimp only
      rw [if_pos (by rw [hv]; exact hk), asmEthertype_vlanDepth]
      simp [Piece.append, Piece.skip, shift]
    have h := hs₁ (.ip4Proto n) (by rw [hv]; exact hk)
    have htag₁ : tagOf (retag ctx.vlanDepth ctx.facts (asmEthertype 0x0800 ctx).2.facts tags)
        (.ip4Proto n) = ctx.vlanDepth := by
      simp [tagOf, retag, hv, htag]
    rw [htag₁] at h
    exact h
  refine (byteTest_falls _ n t₁ hknown).mono (fun t₂ hfall₂ => ?_) (fun _ _ => trivial)
  obtain ⟨hseen, he, hx⟩ := hfall₂
  unfold SatAfter
  rw [asmIp4L4_facts, ← retag_trans (g := (asmEthertype 0x0800 ctx).2.facts)]
  · refine hs₁.record he hx (fun check hc => ?_)
    cases check with
    | ip4Proto m =>
      rcases record_eq hc with h | rfl
      · exact .inl (by rw [hv]; exact h)
      · exact .inr hseen
    | ethertype et => exact .inl hc
    | ip6Nh m => exact .inl hc
    | ports want => exact .inl hc
  · exact .inr rfl
  · exact .inl (by rw [hv])
  · exact .inr rfl
  · exact .inr rfl

theorem asmIp6L4_falls (n : UInt8) (hsat : Sat pkt ctx.link ctx.facts tags t)
    (hf : Fresh (asmEthertype 0x86dd ctx).1.skips tags)
    (hf' : freshByte (asmIp6L4 n ctx).1.skips tags (etherVal pkt ctx.link ctx.vlanDepth 0x86dd)) :
    ((traced pkt).cells.run (asmIp6L4 n ctx).1.code 0 t).Falls (· = .packetLoad)
      (SatAfter pkt ctx (asmIp6L4 n ctx).2 tags) (fun _ => True)
      (guardVal pkt ctx.link ctx.vlanDepth (.ip6 n)) := by
  obtain ⟨v, hv⟩ := asmEthertype_facts 0x86dd ctx
  rw [asmIp6L4_code, Machine.run_append]
  refine (asmEthertype_falls 0x86dd hsat hf).bind (fun hval t₁ hfall => ?_)
  have hs₁ := hfall.1
  have hknown : ctx.facts.ip6Nh = some n →
      byteSeen (netAt ctx.link ctx.vlanDepth + 6) n t₁ ∧
        ip6Val pkt ctx.link ctx.vlanDepth n = some true := by
    intro hk
    have htag : tags.ip6 = ctx.vlanDepth := by
      refine hf' hval ⟨(asmEthertype 0x86dd ctx).1.code.length, .ip6Nh n, ctx.vlanDepth⟩ ?_
      unfold asmIp6L4
      dsimp only
      rw [if_pos (by rw [hv]; exact hk), asmEthertype_vlanDepth]
      simp [Piece.append, Piece.skip, shift]
    have h := hs₁ (.ip6Nh n) (by rw [hv]; exact hk)
    have htag₁ : tagOf (retag ctx.vlanDepth ctx.facts (asmEthertype 0x86dd ctx).2.facts tags)
        (.ip6Nh n) = ctx.vlanDepth := by
      simp [tagOf, retag, hv, htag]
    rw [htag₁] at h
    exact h
  refine (byteTest_falls _ n t₁ hknown).mono (fun t₂ hfall₂ => ?_) (fun _ _ => trivial)
  obtain ⟨hseen, he, hx⟩ := hfall₂
  unfold SatAfter
  rw [asmIp6L4_facts, ← retag_trans (g := (asmEthertype 0x86dd ctx).2.facts)]
  · refine hs₁.record he hx (fun check hc => ?_)
    cases check with
    | ip6Nh m =>
      rcases record_eq hc with h | rfl
      · exact .inl (by rw [hv]; exact h)
      · exact .inr hseen
    | ethertype et => exact .inl hc
    | ip4Proto m => exact .inl hc
    | ports want => exact .inl hc
  · exact .inr rfl
  · exact .inr rfl
  · exact .inl (by rw [hv])
  · exact .inr rfl

theorem loadL4_quiet (off : Nat) (want : L4Set) : quiet (loadL4 off want) := by
  intro a ha
  cases want with
  | one n =>
    simp only [loadL4, l4Check, List.mem_cons, List.not_mem_nil, or_false] at ha
    rcases ha with rfl | rfl
    · exact writesX_ldbAbs _
    · exact writesX_jeqK _ _ _
  | tcpOrUdp =>
    simp only [loadL4, l4Check, List.mem_cons, List.not_mem_nil, or_false] at ha
    rcases ha with rfl | rfl | rfl
    · exact writesX_ldbAbs _
    · exact writesX_jeqK _ _ _
    · exact writesX_jeqK _ _ _

/-- The protocol byte and what the run leaves as it was. -/
theorem loadL4_leaves (off : Nat) (want : L4Set) (t : Traced) :
    ((traced pkt).cells.run (loadL4 off want) 0 t).Falls (· = .packetLoad)
      (fun t' => (l4Seen off want t' ∧ l4Val pkt off want = some true) ∧ t.events ⊆ t'.events ∧
        t'.regs.x = t.regs.x) (fun _ => True) (l4Val pkt off want) := by
  have h := ((loadL4_falls pkt off want t).accepts.leaves (events_leaves _ 0 t)).leaves
    (quiet_traced (solid_loadL4 off want).shaped (loadL4_quiet off want) 0 t)
  refine h.mono ?_ (fun _ _ => trivial)
  rintro t' ⟨⟨h, he⟩, hx⟩
  exact ⟨h, he, hx⟩

/-- The prologue of a known IP version. `T` is what its tail establishes, and what an earlier
prologue has left behind. -/
theorem knownPrereqs_falls {want : L4Set} {off : Nat} {ready : Option L4Set} {known : Option UInt8}
    {check : UInt8 → Check} {tail : Code} {depth : Nat} {T : Traced → Prop} {v : Tri}
    (htail : ∀ t, ((traced pkt).cells.run tail 0 t).Falls (· = .packetLoad) T (fun _ => True) v)
    (hT : ∀ t t', T t → t.events ⊆ t'.events → t'.regs.x = t.regs.x → T t')
    (hready : ∀ set, ready = some set → T t ∧ v = some true)
    (hknown : ∀ n, ready = none → known = some n → want.contains n = true →
      byteSeen off n t ∧ equals (Vm.byte pkt (.ofNat off)) n.toUInt32 = some true) :
    ((traced pkt).cells.run (knownPrereqs want off ready known check tail depth).1.code 0 t).Falls
      (· = .packetLoad)
      (fun t' => l4Seen off (knownPrereqs want off ready known check tail depth).2 t' ∧
        l4Val pkt off (knownPrereqs want off ready known check tail depth).2 = some true ∧
        T t' ∧ v = some true ∧ t.events ⊆ t'.events) (fun _ => True)
      ((l4Val pkt off want).and v) := by
  have full : ((traced pkt).cells.run (loadL4 off want ++ tail) 0 t).Falls (· = .packetLoad)
      (fun t' => l4Seen off want t' ∧ l4Val pkt off want = some true ∧ T t' ∧ v = some true ∧
        t.events ⊆ t'.events) (fun _ => True) ((l4Val pkt off want).and v) := by
    rw [Machine.run_append]
    refine (loadL4_leaves off want t).bind (fun hv t₁ hl => ?_)
    obtain ⟨⟨hs, -⟩, he, -⟩ := hl
    refine ((htail t₁).accepts.leaves (events_leaves tail 0 t₁)).mono ?_ (fun _ _ => trivial)
    rintro t₂ ⟨⟨ht, hv'⟩, he'⟩
    exact ⟨hs.mono he', hv, ht, hv', List.Subset.trans he he'⟩
  cases ready with
  | some set =>
    obtain ⟨ht, rfl⟩ := hready set rfl
    simp only [knownPrereqs, Tri.and_accept]
    refine (loadL4_leaves off want t).mono ?_ (fun _ _ => trivial)
    rintro t₁ ⟨⟨hs, hv⟩, he, hx⟩
    exact ⟨hs, hv, hT t t₁ ht he hx, trivial, he⟩
  | none =>
    cases known with
    | none => exact full
    | some n =>
      simp only [knownPrereqs]
      cases hc : want.contains n with
      | false => exact full
      | true =>
        obtain ⟨hb, he⟩ := hknown n rfl rfl hc
        simp only [if_true]
        rw [l4Val_one hc he, Tri.and_true]
        refine ((htail t).accepts.leaves (events_leaves tail 0 t)).mono ?_ (fun _ _ => trivial)
        rintro t₁ ⟨⟨ht, hv⟩, hsub⟩
        exact ⟨⟨n, by simp [L4Set.contains], hsub hb⟩, he, ht, hv, hsub⟩

theorem after_facts (ctx : Ctx) (c : Code) :
    ∃ r, (ctx.after c).facts = { ctx.facts with portsReady := r } := by
  induction c generalizing ctx with
  | nil => exact ⟨_, rfl⟩
  | cons a c ih =>
    obtain ⟨r, hr⟩ := ih (ctx.push a.insn)
    refine ⟨r, ?_⟩
    rw [Ctx.after_cons, hr]
    unfold Ctx.push
    split <;> rfl

/-- The facts behind a port prologue that has just been made. -/
theorem Sat.ports {link : LinkType} {d : Nat} {f : Facts} {est : L4Set} {p4 p6 : Option UInt8}
    {t' : Traced} (h : Sat pkt link f tags t) (he : t.events ⊆ t'.events)
    (hnot : f.portsReady ≠ some est) (hseen : Seen pkt link d (.ports est) t')
    (h4 : ∀ m, p4 = some m → f.ip4Proto = some m ∨ Seen pkt link d (.ip4Proto m) t')
    (h6 : ∀ m, p6 = some m → f.ip6Nh = some m ∨ Seen pkt link d (.ip6Nh m) t') :
    Sat pkt link ⟨f.ethertype, p4, p6, some est⟩
      (Classic.retag d f ⟨f.ethertype, p4, p6, some est⟩ tags) t' := by
  refine h.retag he (fun w ho hn => ?_) (fun check hn ho => ?_)
  · have hw : w = est := Option.some.inj hn.symm
    rw [hw] at ho
    exact absurd ho hnot
  · cases check with
    | ethertype et => exact absurd hn ho
    | ip4Proto m => exact (h4 m hn).resolve_left ho
    | ip6Nh m => exact (h6 m hn).resolve_left ho
    | ports w =>
      have hw : w = est := Option.some.inj hn.symm
      rw [hw]
      exact hseen

/-- The one number of an established set has been compared. -/
theorem l4Seen_single {est : L4Set} {off : Nat} (hs : l4Seen off est t)
    (hv : l4Val pkt off est = some true) {old : Option UInt8} {m : UInt8}
    (h : old.or est.single = some m) : old = some m ∨
      (byteSeen off m t ∧ equals (Vm.byte pkt (.ofNat off)) m.toUInt32 = some true) := by
  cases old with
  | some w => exact .inl h
  | none =>
    cases est with
    | tcpOrUdp => cases h
    | one n =>
      have hm : n = m := Option.some.inj h
      subst hm
      obtain ⟨k, hk, hb⟩ := hs
      have hkn : n = k := by simpa [L4Set.contains] using hk
      exact .inr ⟨hkn ▸ hb, hv⟩

theorem fresh_append {p q : Piece} :
    Fresh (p.append q).skips tags ↔ Fresh p.skips tags ∧ Fresh q.skips tags := by
  simp only [Fresh, Piece.append, List.mem_append, or_imp, forall_and, List.mem_map,
    forall_exists_index, and_imp, forall_apply_eq_imp_iff₂, shift]

/-- The IP version a prologue relies on. -/
theorem version_seen {et : UInt32} (hk : ctx.facts.ethertype = some et)
    (hsat : Sat pkt ctx.link ctx.facts tags t) (hf : Fresh (skipVersion et ctx).skips tags) :
    Seen pkt ctx.link ctx.vlanDepth (.ethertype et) t := by
  have hoff : ctx.etherProtoOffset = etherAt ctx.link ctx.vlanDepth := rfl
  unfold skipVersion at hf
  rw [hoff] at hf
  cases ho : etherAt ctx.link ctx.vlanDepth with
  | none =>
    refine ⟨?_, ?_⟩
    · simp only [etherSeen, ho]
    · simp only [etherVal, ho]
  | some off =>
    simp only [ho, Option.isSome_some, if_true] at hf
    have htag : tags.ether = ctx.vlanDepth := hf ⟨0, .ethertype et, ctx.vlanDepth⟩ (by
      simp [Piece.skip])
    have h := hsat (.ethertype et) hk
    simp only [tagOf, htag] at h
    exact h

theorem portsReady_ne {want : L4Set} {f : Facts} {off : Nat} {known : Option UInt8} {check : UInt8 → Check}
    {tail : Code} {depth : Nat}
    (hnot : ∀ set, ctx.facts.portsReady = some set → set.subsetOf want = false)
    (hf : f.portsReady = ctx.facts.portsReady) :
    f.portsReady ≠ some (knownPrereqs want off ctx.facts.portsReady known check tail depth).2 := by
  rw [hf]
  intro h
  have hs := hnot _ h
  rw [h] at hs
  simp only [knownPrereqs] at hs
  rw [subsetOf_refl] at hs
  cases hs

section Prologue

variable {want : L4Set} (hsat : Sat pkt ctx.link ctx.facts tags t)
  (hnot : ∀ set, ctx.facts.portsReady = some set → set.subsetOf want = false)
include hsat hnot

/-- The prologue on a path that proves IPv4. -/
theorem prologue4_falls (hk : ctx.facts.ethertype = some 0x0800)
    (hf : Fresh (asmPortPrologue want ctx).1.skips tags) :
    ((traced pkt).cells.run (asmPortPrologue want ctx).1.code 0 t).Falls (· = .packetLoad)
      (fun t' => SatAfter pkt ctx (asmPortPrologue want ctx).2 tags t' ∧
        t'.regs.x = portsX pkt ctx.link ctx.vlanDepth) (fun _ => True)
      (portsVal pkt ctx.link ctx.vlanDepth want) := by
  obtain ⟨d, hd⟩ : ∃ d, d = ctx.vlanDepth := ⟨_, rfl⟩
  have hnet : ctx.netOffset = netAt ctx.link d := by rw [hd]; rfl
  unfold asmPortPrologue at hf ⊢
  simp only [hk, if_true, hnet] at hf ⊢
  obtain ⟨hf₁, hf₂⟩ := fresh_append.mp hf
  have hver := version_seen hk hsat hf₁
  rw [← hd] at hver hf₂ ⊢
  have hval := fun w => (portsVal_ip4 hver.2 w).1
  have hX := (portsVal_ip4 hver.2 want).2
  have hx : ∀ x : UInt32, some x = ihl pkt ctx.link d → x = portsX pkt ctx.link d := by
    intro x h
    rw [hX, ← h]
    rfl
  have hcode : ((skipVersion 0x0800 ctx).append (knownPrereqs want (netAt ctx.link d + 9)
      ctx.facts.portsReady ctx.facts.ip4Proto .ip4Proto (fragMsh (netAt ctx.link d)) d).1).code =
      (knownPrereqs want (netAt ctx.link d + 9) ctx.facts.portsReady ctx.facts.ip4Proto .ip4Proto
        (fragMsh (netAt ctx.link d)) d).1.code := by
    simp [Piece.append, skipVersion_code]
  rw [hcode, hval want]
  refine (knownPrereqs_falls (fragMsh_falls pkt ctx.link d)
    (fun t t' h he hx => ⟨he h.1, by rw [hx]; exact h.2⟩) (fun set hr => ?_)
    (fun n hr hn hc => ?_)).mono (fun t' hfall => ?_) (fun _ _ => trivial)
  · -- An earlier prologue at this depth has made the fragment test and set X.
    have htag : tags.ports = d := hf₂ ⟨0, .ports set, d⟩ (by simp [knownPrereqs, hr])
    have h := hsat (.ports set) hr
    simp only [tagOf, htag] at h
    obtain ⟨hseen, hv, hx'⟩ := h
    rw [hval] at hv
    obtain ⟨-, hv⟩ := Tri.and_eq_true.mp hv
    refine ⟨⟨?_, ?_⟩, hv⟩
    · rcases hseen with ⟨-, -, -, h⟩ | ⟨ho, h6, -, -⟩
      · exact h
      · exact absurd (etherVal_unique ho hver.2 h6) (by decide)
    · obtain ⟨-, hi⟩ := Tri.and_eq_true.mp hv
      obtain ⟨i, hi, -⟩ := Option.map_eq_some_iff.mp hi
      rw [hx', hX, hi]
      rfl
  · have htag : tags.ip4 = d := hf₂ ⟨0, .ip4Proto n, d⟩ (by simp [knownPrereqs, hr, hn, hc])
    have h := hsat (.ip4Proto n) hn
    simp only [tagOf, htag] at h
    exact h
  · obtain ⟨hs, hl, ⟨hfr, hi⟩, hv, he⟩ := hfall
    refine ⟨?_, hx _ hi⟩
    obtain ⟨r, hr⟩ := after_facts ctx (knownPrereqs want (netAt ctx.link d + 9)
      ctx.facts.portsReady ctx.facts.ip4Proto .ip4Proto (fragMsh (netAt ctx.link d)) d).1.code
    unfold SatAfter
    simp only [Ctx.withFacts, hr, ← hd]
    refine hsat.ports he (portsReady_ne hnot rfl)
      ⟨.inl ⟨hver.2, hver.1.mono he, hs, hfr⟩, ?_, hx _ hi⟩ (fun m hm => l4Seen_single hs hl hm)
      (fun m hm => .inl hm)
    rw [hval]
    exact Tri.and_eq_true.mpr ⟨hl, hv⟩

/-- The prologue on a path that proves IPv6. -/
theorem prologue6_falls (hok : ctx.Ok) (hk : ctx.facts.ethertype = some 0x86dd)
    (hf : Fresh (asmPortPrologue want ctx).1.skips tags) :
    ((traced pkt).cells.run (asmPortPrologue want ctx).1.code 0 t).Falls (· = .packetLoad)
      (fun t' => SatAfter pkt ctx (asmPortPrologue want ctx).2 tags t' ∧
        t'.regs.x = portsX pkt ctx.link ctx.vlanDepth) (fun _ => True)
      (portsVal pkt ctx.link ctx.vlanDepth want) := by
  obtain ⟨d, hd⟩ : ∃ d, d = ctx.vlanDepth := ⟨_, rfl⟩
  have hnet : ctx.netOffset = netAt ctx.link d := by rw [hd]; rfl
  have ho : (etherAt ctx.link d).isSome = true := by
    cases hl : ctx.link with
    | rawIp =>
      rw [hok hl] at hk
      cases hk
    | ethernet => rfl
    | linuxSll => rfl
  have h4 : ¬ ctx.facts.ethertype = some 0x0800 := by rw [hk]; decide
  unfold asmPortPrologue at hf ⊢
  simp only [h4, if_false, hnet] at hf ⊢
  simp only [hk, if_true] at hf ⊢
  obtain ⟨hf₁, hf₂⟩ := fresh_append.mp hf
  have hver := version_seen hk hsat hf₁
  rw [← hd] at hver hf₂ ⊢
  have hval := fun w => (portsVal_ip6 ho hver.2 w).1
  have hX := (portsVal_ip6 ho hver.2 want).2
  have hcode : ((skipVersion 0x86dd ctx).append (knownPrereqs want (netAt ctx.link d + 6)
      ctx.facts.portsReady ctx.facts.ip6Nh .ip6Nh ldx40 d).1).code =
      (knownPrereqs want (netAt ctx.link d + 6) ctx.facts.portsReady ctx.facts.ip6Nh .ip6Nh
        ldx40 d).1.code := by
    simp [Piece.append, skipVersion_code]
  rw [hcode, hval want, show ports6 pkt ctx.link d want =
    (l4Val pkt (netAt ctx.link d + 6) want).and (some true) from (Tri.and_accept _).symm]
  refine (knownPrereqs_falls (T := fun t' => t'.regs.x = 40) (v := some true)
    (fun t => ⟨_, rfl, ldx40_run t⟩)
    (fun t t' h _ hx => hx.trans h) (fun set hr => ?_)
    (fun n hr hn hc => ?_)).mono (fun t' hfall => ?_) (fun _ _ => trivial)
  · have htag : tags.ports = d := hf₂ ⟨0, .ports set, d⟩ (by simp [knownPrereqs, hr])
    have h := hsat (.ports set) hr
    simp only [tagOf, htag] at h
    exact ⟨h.2.2.trans hX, rfl⟩
  · have htag : tags.ip6 = d := hf₂ ⟨0, .ip6Nh n, d⟩ (by simp [knownPrereqs, hr, hn, hc])
    have h := hsat (.ip6Nh n) hn
    simp only [tagOf, htag] at h
    exact h
  · obtain ⟨hs, hl, hi, hv, he⟩ := hfall
    refine ⟨?_, hi.trans hX.symm⟩
    obtain ⟨r, hr⟩ := after_facts ctx (knownPrereqs want (netAt ctx.link d + 6)
      ctx.facts.portsReady ctx.facts.ip6Nh .ip6Nh ldx40 d).1.code
    unfold SatAfter
    simp only [Ctx.withFacts, hr, ← hd]
    refine hsat.ports he (portsReady_ne hnot rfl)
      ⟨.inr ⟨ho, hver.2, hver.1.mono he, hs⟩, ?_, hi.trans hX.symm⟩ (fun m hm => .inl hm)
      (fun m hm => l4Seen_single hs hl hm)
    rw [hval]
    exact hl

/-- The prologue on a path that leaves the IP version open. -/
theorem prologueDual_falls (hok : ctx.Ok) (h4 : ctx.facts.ethertype ≠ some 0x0800)
    (h6 : ctx.facts.ethertype ≠ some 0x86dd) :
    ((traced pkt).cells.run (asmPortPrologue want ctx).1.code 0 t).Falls (· = .packetLoad)
      (fun t' => SatAfter pkt ctx (asmPortPrologue want ctx).2 tags t' ∧
        t'.regs.x = portsX pkt ctx.link ctx.vlanDepth) (fun _ => True)
      (portsVal pkt ctx.link ctx.vlanDepth want) := by
  obtain ⟨off, ho⟩ : ∃ off, etherAt ctx.link ctx.vlanDepth = some off := by
    cases hl : ctx.link with
    | rawIp => exact absurd (hok hl) h4
    | ethernet => exact ⟨_, rfl⟩
    | linuxSll => exact ⟨_, rfl⟩
  have hoff : ctx.etherProtoOffset.getD 0 = off := by
    rw [show ctx.etherProtoOffset = etherAt ctx.link ctx.vlanDepth from rfl, ho]
    rfl
  have hnet : ctx.netOffset = netAt ctx.link ctx.vlanDepth := rfl
  unfold asmPortPrologue
  simp only [h4, h6, if_false, hoff, hnet]
  refine ((dualCode_falls ho want t).accepts.leaves (events_leaves _ 0 t)).mono ?_
    (fun _ _ => trivial)
  rintro t' ⟨⟨⟨hs, hx⟩, hv⟩, he⟩
  refine ⟨?_, hx⟩
  obtain ⟨r, hr⟩ := after_facts ctx (dualCode want off (netAt ctx.link ctx.vlanDepth))
  unfold SatAfter
  simp only [Ctx.withFacts, hr]
  refine hsat.ports he (fun h => ?_) ⟨hs, hv, hx⟩ (fun m hm => .inl hm) (fun m hm => .inl hm)
  have := hnot want h
  rw [subsetOf_refl] at this
  cases this

end Prologue

/-- The port prologue, made or left out. -/
theorem asmPortPrereqs_falls (want : L4Set) (hok : ctx.Ok)
    (hsat : Sat pkt ctx.link ctx.facts tags t)
    (hf : Fresh (asmPortPrereqs want ctx).1.skips tags) :
    ((traced pkt).cells.run (asmPortPrereqs want ctx).1.code 0 t).Falls (· = .packetLoad)
      (fun t' => SatAfter pkt ctx (asmPortPrereqs want ctx).2 tags t' ∧
        t'.regs.x = portsX pkt ctx.link ctx.vlanDepth) (fun _ => True)
      (portsVal pkt ctx.link ctx.vlanDepth want) := by
  have prologue : (∀ set, ctx.facts.portsReady = some set → set.subsetOf want = false) →
      Fresh (asmPortPrologue want ctx).1.skips tags →
      ((traced pkt).cells.run (asmPortPrologue want ctx).1.code 0 t).Falls (· = .packetLoad)
      (fun t' => SatAfter pkt ctx (asmPortPrologue want ctx).2 tags t' ∧
        t'.regs.x = portsX pkt ctx.link ctx.vlanDepth) (fun _ => True)
      (portsVal pkt ctx.link ctx.vlanDepth want) := by
    intro hnot hf
    by_cases h4 : ctx.facts.ethertype = some 0x0800
    · exact prologue4_falls hsat hnot h4 hf
    · by_cases h6 : ctx.facts.ethertype = some 0x86dd
      · exact prologue6_falls hsat hnot hok h6 hf
      · exact prologueDual_falls hsat hnot hok h4 h6
  unfold asmPortPrereqs at hf ⊢
  cases hr : ctx.facts.portsReady with
  | none =>
    simp only [hr] at hf ⊢
    exact prologue (fun set h => by rw [hr] at h; cases h) hf
  | some set =>
    simp only [hr] at hf ⊢
    cases hs : set.subsetOf want with
    | false =>
      simp only [hs, Bool.false_eq_true, if_false] at hf ⊢
      exact prologue (fun set' h => by rw [hr] at h; cases h; exact hs) hf
    | true =>
      simp only [hs, if_true] at hf ⊢
      have htag : tags.ports = ctx.vlanDepth := hf ⟨0, .ports set, ctx.vlanDepth⟩ (by
        simp [Piece.skip])
      have h := hsat (.ports set) hr
      simp only [tagOf, htag] at h
      rw [portsVal_subset hs h.2.1]
      refine ⟨t, ⟨?_, h.2.2⟩, Machine.run_nil _ _ _⟩
      unfold SatAfter
      rw [retag_self]
      exact hsat

/-- On the path the packet takes through a guard, every check left out rests on a fact that
was recorded at the depth of the check. -/
def freshGuard (pkt : Vm.Packet) (g : Guard) (ctx : Ctx) (tags : Tags) : Prop :=
  match g with
  | .ip4 n => Fresh (asmEthertype 0x0800 ctx).1.skips tags ∧
      freshByte (asmIp4L4 n ctx).1.skips tags (etherVal pkt ctx.link ctx.vlanDepth 0x0800)
  | .ip6 n => Fresh (asmEthertype 0x86dd ctx).1.skips tags ∧
      freshByte (asmIp6L4 n ctx).1.skips tags (etherVal pkt ctx.link ctx.vlanDepth 0x86dd)
  | .none => True
  | .ethertype et => Fresh (asmEthertype et ctx).1.skips tags
  | .ports want => Fresh (asmPortPrereqs want ctx).1.skips tags

/-- A guard has the value of its fields at the current depth, whatever of it is left out. -/
theorem asmGuard_falls (g : Guard) (hok : ctx.Ok) (hsat : Sat pkt ctx.link ctx.facts tags t)
    (hf : freshGuard pkt g ctx tags) :
    ((traced pkt).cells.run (asmGuard g ctx).1.code 0 t).Falls (· = .packetLoad)
      (fun t' => SatAfter pkt ctx (asmGuard g ctx).2 tags t' ∧
        ∀ want, g = .ports want → t'.regs.x = portsX pkt ctx.link ctx.vlanDepth) (fun _ => True)
      (guardVal pkt ctx.link ctx.vlanDepth g) := by
  cases g with
  | none =>
    refine ⟨t, ⟨?_, fun _ h => by cases h⟩, Machine.run_nil _ _ _⟩
    unfold SatAfter
    rw [show (asmGuard .none ctx).2 = ctx from rfl, retag_self]
    exact hsat
  | ethertype et =>
    exact (asmEthertype_falls et hsat hf).mono (fun t' h => ⟨h.1, fun _ h => by cases h⟩)
      (fun _ _ => trivial)
  | ip4 n =>
    exact (asmIp4L4_falls n hsat hf.1 hf.2).mono (fun t' h => ⟨h, fun _ h => by cases h⟩)
      (fun _ _ => trivial)
  | ip6 n =>
    exact (asmIp6L4_falls n hsat hf.1 hf.2).mono (fun t' h => ⟨h, fun _ h => by cases h⟩)
      (fun _ _ => trivial)
  | ports want =>
    exact (asmPortPrereqs_falls want hok hsat hf).mono (fun t' h => ⟨h.1, fun _ _ => h.2⟩)
      (fun _ _ => trivial)

end Emitted

end PktBaffle.Proofs.Classic
