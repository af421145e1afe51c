import PktBaffle.Proofs.Classic.Link

namespace PktBaffle.Proofs.Classic
open Bpf Forward PktBaffle.Classic PktBaffle.Optimizer PktBaffle.Proofs.Optimizer

/-- What an instruction of the generator that neither jumps nor returns does. -/
inductive Effect where
  | load (v : Option UInt32)
  | loadInd (v : UInt32 → Option UInt32)
  | loadX (v : Option UInt32)
  | alu (f : UInt32 → UInt32)
  | store
  | reload
  | copy

namespace Effect

/-- The effect on the registers; only a load from the packet can stop the run. -/
def apply : Effect → Vm.Regs → Except Vm.Stop Vm.Regs
  | .load v, s => (Vm.orStop .packetLoad v).map fun a => { s with a := a }
  | .loadInd v, s => (Vm.orStop .packetLoad (v s.x)).map fun a => { s with a := a }
  | .loadX v, s => (Vm.orStop .packetLoad v).map fun x => { s with x := x }
  | .alu f, s => .ok { s with a := f s.a }
  | .store, s => .ok { s with scratch := s.scratch.set 0 s.a }
  | .reload, s => .ok { s with x := s.scratch[0] }
  | .copy, s => .ok { s with x := s.a }

end Effect

/-- The kinds of effect, as the opcode tells them apart. -/
inductive Kind where
  | load
  | loadInd
  | loadX
  | alu
  | store
  | reload
  | copy
  deriving DecidableEq

def Effect.kind : Effect → Kind
  | .load _ => .load
  | .loadInd _ => .loadInd
  | .loadX _ => .loadX
  | .alu _ => .alu
  | .store => .store
  | .reload => .reload
  | .copy => .copy

def kind (i : Insn) : Kind :=
  if i.code &&& 0x07 = bpfLd then (if i.code &&& 0xe0 = bpfInd then .loadInd else .load)
  else if i.code = ldxMemCode then .reload
  else if i.code &&& 0x07 = bpfLdx then .loadX
  else if i.code &&& 0x07 = bpfAlu then .alu
  else if i.code &&& 0x07 = bpfSt then .store
  else .copy

def Does (pkt : Vm.Packet) (i : Insn) (ef : Effect) : Prop :=
  ef.kind = kind i ∧ ∀ s, Vm.act pkt i s = (ef.apply s).map Move.next

section Does

variable {pkt : Vm.Packet} {i : Insn}

theorem map_map_next {α : Type} (r : Except Vm.Stop α) (f : α → Vm.Regs) :
    r.map (fun v => (Move.next (f v) : Move Slot Vm.Regs Bool)) = (r.map f).map Move.next := by
  cases r <;> rfl

theorem does_abs (hc : i.code &&& 0x07 = bpfLd) (hm : i.code &&& 0xe0 = bpfAbs) :
    Does pkt i (.load (Vm.sizedLoad pkt i.k (i.code &&& 0x18))) := by
  refine ⟨by simp +decide only [kind, hc, hm, if_true, Effect.kind, if_false], fun s => ?_⟩
  simp only [Vm.act, hc, if_true, Vm.loadA, hm, Effect.apply, map_map_next]

theorem does_ind (hc : i.code &&& 0x07 = bpfLd) (hm : i.code &&& 0xe0 = bpfInd) :
    Does pkt i (.loadInd fun x => Vm.sizedLoad pkt (x + i.k) (i.code &&& 0x18)) := by
  refine ⟨by simp only [kind, hc, hm, if_true, Effect.kind], fun s => ?_⟩
  simp +decide only [Vm.act, hc, if_true, Vm.loadA, hm, Effect.apply, map_map_next, if_false]

theorem does_len (h : i.code = bpfLd ||| bpfLen) :
    Does pkt i (.load (some (Vm.pktLen pkt))) := by
  refine ⟨by simp +decide only [kind, h, if_true, Effect.kind, if_false], fun s => ?_⟩
  simp +decide only [Vm.act, h, if_true, Vm.loadA, Effect.apply, if_false, Except.map, Vm.orStop]

theorem does_msh (h : i.code = bpfLdx ||| bpfB ||| bpfMsh) :
    Does pkt i (.loadX ((Vm.byte pkt i.k).map fun b => 4 * (b &&& 0xf))) := by
  refine ⟨by simp +decide only [kind, h, if_true, Effect.kind, if_false], fun s => ?_⟩
  simp +decide only [Vm.act, h, if_true, Vm.loadX, Effect.apply, if_false, map_map_next, and_self]
  cases Vm.byte pkt i.k <;> rfl

theorem does_imm (h : i.code = bpfLdx ||| bpfW ||| bpfImm) : Does pkt i (.loadX (some i.k)) := by
  refine ⟨by simp +decide only [kind, h, if_true, Effect.kind, if_false], fun s => ?_⟩
  simp +decide only [Vm.act, h, if_true, Vm.loadX, Effect.apply, if_false, and_false,
    Except.map, Vm.orStop]

theorem does_reload (h : i.code = ldxMemCode) (hk : i.k = 0) : Does pkt i .reload := by
  refine ⟨by simp +decide only [kind, h, if_true, Effect.kind, if_false], fun s => ?_⟩
  simp +decide only [Vm.act, h, hk, if_true, Vm.loadX, Effect.apply, if_false, and_false]
  rfl

theorem does_store (h : i.code = bpfSt) (hk : i.k = 0) : Does pkt i .store := by
  refine ⟨by simp +decide only [kind, h, if_true, Effect.kind, if_false], fun s => ?_⟩
  simp +decide only [Vm.act, h, hk, if_true, Vm.store, Effect.apply, if_false]
  rfl

theorem does_copy (h : i.code = bpfMisc ||| bpfTax) : Does pkt i .copy := by
  refine ⟨by simp +decide only [kind, h, Effect.kind, if_false], fun s => ?_⟩
  simp +decide only [Vm.act, h, if_true, Effect.apply, if_false]
  rfl

theorem does_alu {f : UInt32 → UInt32} (hc : i.code &&& 0x07 = bpfAlu)
    (hx : i.code &&& 0x08 ≠ bpfX) (hf : ∀ a, Vm.alu (i.code &&& 0xf0) a i.k = .ok (f a)) :
    Does pkt i (.alu f) := by
  have hu : Vm.usesX i = false := by simpa [Vm.usesX] using hx
  have hm : i.code ≠ ldxMemCode := by
    intro h
    rw [h] at hc
    exact absurd hc (by decide)
  refine ⟨by simp +decide only [kind, hc, hm, if_true, Effect.kind, if_false], fun s => ?_⟩
  simp +decide only [Vm.act, hc, hu, hf, if_true, Effect.apply, if_false, Except.map]

/-- Every plain instruction has one of these effects. -/
theorem plain_does (pkt : Vm.Packet) {i : Insn} (h : plain i = true) : ∃ ef, Does pkt i ef := by
  simp only [plain, Bool.or_eq_true, Bool.and_eq_true, beq_iff_eq, bne_iff_ne] at h
  rcases h with (h | ⟨h, hk⟩) | ⟨h | h, hk⟩
  · have hmem : i.code ∈ plainCodes := by simpa using h
    simp only [plainCodes, List.mem_append, List.map_cons, List.map_nil, List.mem_cons,
      List.not_mem_nil, or_false] at hmem
    rcases hmem with ((hm | hm) | hm) | hm
    · rcases hm with hm | hm | hm <;>
        exact ⟨_, does_abs (by rw [hm]; decide) (by rw [hm]; decide)⟩
    · rcases hm with hm | hm | hm <;>
        exact ⟨_, does_ind (by rw [hm]; decide) (by rw [hm]; decide)⟩
    · rcases hm with hm | hm | hm | hm
      · exact ⟨_, does_len hm⟩
      · exact ⟨_, does_msh hm⟩
      · exact ⟨_, does_imm hm⟩
      · exact ⟨_, does_copy hm⟩
    · rcases hm with hm | hm | hm | hm | hm | hm | hm | hm <;>
        refine ⟨.alu fun a => (Vm.alu (i.code &&& 0xf0) a i.k).toOption.getD 0,
          does_alu (by rw [hm]; decide) (by rw [hm]; decide) (fun a => ?_)⟩ <;>
        rw [hm] <;> simp +decide only [Vm.alu, if_false, if_true] <;> rfl
  · refine ⟨.alu (· / i.k), does_alu (by rw [h]; decide) (by rw [h]; decide) (fun a => ?_)⟩
    rw [h]
    simp +decide only [Vm.alu, if_false, if_true, hk]
  · exact ⟨_, does_store h hk⟩
  · exact ⟨_, does_reload h hk⟩

end Does

section Branch

variable {pkt : Vm.Packet} {i : Insn}

theorem branch_act (h : branchCodes.contains i.code = true) (s : Vm.Regs) :
    ∃ b, Vm.taken (i.code &&& 0xf0) s.a (if Vm.usesX i then s.x else i.k) = .ok b ∧
      Vm.act pkt i s = .ok (.jump (if b then .jt else .jf) s) := by
  have hc := (branch_code h).2
  simp only [isCondJump, Bool.and_eq_true, beq_iff_eq, bne_iff_ne] at hc
  have hact : Vm.act pkt i s = (Vm.taken (i.code &&& 0xf0) s.a
      (if Vm.usesX i then s.x else i.k)).map (fun b => .jump (if b then .jt else .jf) s) := by
    simp only [Vm.act, hc.1, hc.2, if_false]
    rfl
  have htotal : branchCodes.all (fun c => [bpfJeq, bpfJgt, bpfJge, bpfJset].contains
      (c &&& 0xf0)) = true := by decide
  have hop := List.all_eq_true.mp htotal i.code (by simpa using h)
  simp only [List.contains_eq_mem, List.mem_cons, List.not_mem_nil, or_false,
    decide_eq_true_eq] at hop
  rw [hact]
  rcases hop with hop | hop | hop | hop <;> rw [hop] <;>
    exact ⟨_, by simp +decide only [Vm.taken, if_true, if_false], rfl⟩

/-- A branch decides by A, and by X if it compares with it. -/
theorem branch_same (h : branchCodes.contains i.code = true) {s s' : Vm.Regs} (ha : s.a = s'.a)
    (hx : Vm.usesX i = true → s.x = s'.x) :
    ∃ b : Bool, Vm.act pkt i s = .ok (.jump (if b then .jt else .jf) s) ∧
      Vm.act pkt i s' = .ok (.jump (if b then .jt else .jf) s') := by
  obtain ⟨b, ht, hact⟩ := branch_act h s
  obtain ⟨b', ht', hact'⟩ := branch_act h s'
  have harg : (if Vm.usesX i = true then s.x else i.k) =
      if Vm.usesX i = true then s'.x else i.k := by
    split
    · exact hx ‹_›
    · rfl
  rw [ha, harg, ht'] at ht
  obtain rfl : b' = b := Except.ok.inj ht
  exact ⟨b', hact, hact'⟩

end Branch

/-- The registers two runs agree on. -/
structure Flags where
  a : Bool
  x : Bool
  m : Bool
  deriving DecidableEq

structure Same (fl : Flags) (s s' : Vm.Regs) : Prop where
  a : fl.a = true → s.a = s'.a
  x : fl.x = true → s.x = s'.x
  m : fl.m = true → s.scratch[0] = s'.scratch[0]

/-- What two runs agree on behind an instruction, if it reads only what they agree on. -/
def flow (i : Insn) (fl : Flags) : Option Flags :=
  match kind i with
  | .load => some { fl with a := true }
  | .loadInd => if fl.x then some { fl with a := true } else none
  | .loadX => some { fl with x := true }
  | .alu => if fl.a then some fl else none
  | .store => if fl.a then some { fl with m := true } else none
  | .reload => if fl.m then some { fl with x := true } else none
  | .copy => if fl.a then some { fl with x := true } else none

theorem orStop_cases (v : Option UInt32) :
    Vm.orStop .packetLoad v = .error .packetLoad ∨ ∃ w, Vm.orStop .packetLoad v = .ok w := by
  cases v with
  | none => exact .inl rfl
  | some w => exact .inr ⟨w, rfl⟩

theorem apply_same {ef : Effect} {i : Insn} (hk : ef.kind = kind i) {fl fl' : Flags}
    (hf : flow i fl = some fl') {s s' : Vm.Regs} (h : Same fl s s') :
    (ef.apply s = .error .packetLoad ∧ ef.apply s' = .error .packetLoad) ∨
      ∃ t t', ef.apply s = .ok t ∧ ef.apply s' = .ok t' ∧ Same fl' t t' := by
  unfold flow at hf
  rw [← hk] at hf
  cases ef with
  | load v =>
    simp only [Effect.kind, Option.some.injEq] at hf
    subst hf
    simp only [Effect.apply]
    rcases orStop_cases v with he | ⟨w, he⟩
    · rw [he]
      exact .inl ⟨rfl, rfl⟩
    · rw [he]
      exact .inr ⟨_, _, rfl, rfl, fun _ => rfl, h.x, h.m⟩
  | loadInd v =>
    simp only [Effect.kind, Option.ite_none_right_eq_some, Option.some.injEq] at hf
    obtain ⟨hx, rfl⟩ := hf
    simp only [Effect.apply, ← h.x hx]
    rcases orStop_cases (v s.x) with he | ⟨w, he⟩
    · rw [he]
      exact .inl ⟨rfl, rfl⟩
    · rw [he]
      exact .inr ⟨_, _, rfl, rfl, fun _ => rfl, fun _ => rfl, h.m⟩
  | loadX v =>
    simp only [Effect.kind, Option.some.injEq] at hf
    subst hf
    simp only [Effect.apply]
    rcases orStop_cases v with he | ⟨w, he⟩
    · rw [he]
      exact .inl ⟨rfl, rfl⟩
    · rw [he]
      exact .inr ⟨_, _, rfl, rfl, h.a, fun _ => rfl, h.m⟩
  | alu f =>
    simp only [Effect.kind, Option.ite_none_right_eq_some, Option.some.injEq] at hf
    obtain ⟨ha, rfl⟩ := hf
    exact .inr ⟨_, _, rfl, rfl, fun _ => by rw [h.a ha], h.x, h.m⟩
  | store =>
    simp only [Effect.kind, Option.ite_none_right_eq_some, Option.some.injEq] at hf
    obtain ⟨ha, rfl⟩ := hf
    exact .inr ⟨_, _, rfl, rfl, h.a, h.x, fun _ => by simp [h.a ha]⟩
  | reload =>
    simp only [Effect.kind, Option.ite_none_right_eq_some, Option.some.injEq] at hf
    obtain ⟨hm, rfl⟩ := hf
    exact .inr ⟨_, _, rfl, rfl, h.a, fun _ => h.m hm, h.m⟩
  | copy =>
    simp only [Effect.kind, Option.ite_none_right_eq_some, Option.some.injEq] at hf
    obtain ⟨ha, rfl⟩ := hf
    exact .inr ⟨_, _, rfl, rfl, h.a, fun _ => h.a ha, h.m⟩

theorem flow_x {i : Insn} {fl fl' : Flags} (hf : flow i fl = some fl') (hx : fl.x = true) :
    fl'.x = true := by
  unfold flow at hf
  split at hf
  · cases hf
    exact hx
  · simp only [Option.ite_none_right_eq_some, Option.some.injEq] at hf
    rw [← hf.2]
    exact hx
  · cases hf
    rfl
  · simp only [Option.ite_none_right_eq_some, Option.some.injEq] at hf
    rw [← hf.2]
    exact hx
  · simp only [Option.ite_none_right_eq_some, Option.some.injEq] at hf
    rw [← hf.2]
    exact hx
  · simp only [Option.ite_none_right_eq_some, Option.some.injEq] at hf
    rw [← hf.2]
  · simp only [Option.ite_none_right_eq_some, Option.some.injEq] at hf
    rw [← hf.2]

/-- At an entry at most X is known. -/
def Flags.entry (x : Bool) : Flags := ⟨false, x, false⟩

theorem Same.weaken {fl : Flags} {s s' : Vm.Regs} (h : Same fl s s') {b : Bool}
    (hb : b = true → fl.x = true) : Same (.entry b) s s' :=
  ⟨fun h => Bool.noConfusion h, fun hx => h.x (hb hx), fun h => Bool.noConfusion h⟩

/-- Two runs that leave the same way, in states that agree; `b` says whether X is agreed
on at an exit. -/
def Twin (b : Bool) (fl : Flags) : Result Vm.Stop Vm.Regs Bool → Result Vm.Stop Vm.Regs Bool → Prop
  | .past 0 s, .past 0 s' => Same fl s s'
  | .exit x s, .exit x' s' => x = x' ∧ Same (.entry b) s s'
  | .stop e, .stop e' => e = .packetLoad ∧ e' = .packetLoad
  | _, _ => False

/-- Code whose runs from states that agree on `fl` stay together. -/
def Similar (pkt : Vm.Packet) (b : Bool) (fl fl' : Flags) (c : Code) : Prop :=
  ∀ s s', Same fl s s' →
    Twin b fl' ((Vm.machine pkt).cells.run c 0 s) ((Vm.machine pkt).cells.run c 0 s')

theorem vm_no_exit (pkt : Vm.Packet) : ∀ i k y, (Vm.machine pkt).tgt i k ≠ .exit y :=
  fun _ _ _ h => by cases h

theorem vm_jumps (pkt : Vm.Packet) : Jumps (Vm.machine pkt) (.ja 0) .ja :=
  ⟨fun s => (vm_laws pkt).ja _ s (by decide)⟩

section Similar

variable {pkt : Vm.Packet} {b : Bool} {fl fl₁ fl₂ : Flags} {c c₁ c₂ : Code}

/-- The three ways two twin runs can end. -/
theorem Twin.cases {r r' : Result Vm.Stop Vm.Regs Bool} (h : Twin b fl r r') :
    (∃ s s', r = .past 0 s ∧ r' = .past 0 s' ∧ Same fl s s') ∨
    (∃ x s s', r = .exit x s ∧ r' = .exit x s' ∧ Same (.entry b) s s') ∨
    (r = .stop .packetLoad ∧ r' = .stop .packetLoad) := by
  rcases r with ⟨_ | n, s⟩ | ⟨x, s⟩ | v | e
  · rcases r' with ⟨_ | n', s'⟩ | ⟨x', s'⟩ | v' | e'
    · exact .inl ⟨s, s', rfl, rfl, h⟩
    all_goals exact h.elim
  · rcases r' with ⟨_ | n', s'⟩ | ⟨x', s'⟩ | v' | e' <;> exact h.elim
  · rcases r' with ⟨_ | n', s'⟩ | ⟨x', s'⟩ | v' | e'
    · exact h.elim
    · exact h.elim
    · obtain ⟨rfl, hs⟩ := h
      exact .inr (.inl ⟨x, s, s', rfl, rfl, hs⟩)
    · exact h.elim
    · exact h.elim
  · rcases r' with ⟨_ | n', s'⟩ | ⟨x', s'⟩ | v' | e' <;> exact h.elim
  · rcases r' with ⟨_ | n', s'⟩ | ⟨x', s'⟩ | v' | e'
    · exact h.elim
    · exact h.elim
    · exact h.elim
    · exact h.elim
    · obtain ⟨rfl, rfl⟩ := h
      exact .inr (.inr ⟨rfl, rfl⟩)

theorem Similar.nil : Similar pkt b fl fl [] := fun s s' h => by
  simp only [Machine.run_nil]
  exact h

theorem Similar.append (h₁ : Similar pkt b fl fl₁ c₁) (h₂ : Similar pkt b fl₁ fl₂ c₂) :
    Similar pkt b fl fl₂ (c₁ ++ c₂) := by
  intro s s' h
  rw [Machine.run_append, Machine.run_append]
  rcases (h₁ s s' h).cases with ⟨t, t', hr, hr', hs⟩ | ⟨x, t, t', hr, hr', hs⟩ | ⟨hr, hr'⟩
  · rw [hr, hr']
    exact h₂ t t' hs
  · rw [hr, hr']
    exact ⟨rfl, hs⟩
  · rw [hr, hr']
    exact ⟨rfl, rfl⟩

theorem similar_op {i : Insn} (hp : plain i = true) (hf : flow i fl = some fl₁) :
    Similar pkt b fl fl₁ [.op i] := by
  intro s s' h
  obtain ⟨ef, hk, hact⟩ := plain_does pkt hp
  have hrun : ∀ s, (Vm.machine pkt).cells.act (.op i) s = (ef.apply s).map Move.next := hact
  rcases apply_same hk hf h with ⟨he, he'⟩ | ⟨t, t', he, he', hs⟩
  · rw [Machine.run_stop (by rw [hrun, he]; rfl), Machine.run_stop (by rw [hrun, he']; rfl)]
    exact ⟨rfl, rfl⟩
  · rw [Machine.run_next (by rw [hrun, he]; rfl), Machine.run_next (by rw [hrun, he']; rfl)]
    simp only [Machine.run_nil]
    exact hs

/-- A branch that leaves through its slot and falls through otherwise. -/
theorem branch_run {a : Cell Insn Slot} (hs : shaped a = true) {j k : Slot} {x : Exit}
    (hk : a.slot = some (k, .exit x)) (hn : k ≠ .ja) (hj : j ≠ .ja) {s : Vm.Regs}
    (hact : Vm.act pkt a.insn s = .ok (.jump j s)) :
    (Vm.machine pkt).cells.run [a] 0 s = if j = k then .exit x s else .past 0 s := by
  have hact' : (Vm.machine pkt).cells.act a s = .ok (.jump j s) := hact
  have hlinked : linked a := .inl hs
  by_cases he : j = k
  · rw [if_pos he]
    refine Machine.run_exit hact' ?_
    simp [Machine.cells, hk, he]
  · rw [if_neg he]
    have hoff : a.insn.off j = 0 := by
      refine hlinked.other ?_ (fun t ht => he ?_)
      · cases j with
        | ja => exact absurd rfl hj
        | jt => exact hlinked.branch hk hn
        | jf => exact hlinked.branch hk hn
      · rw [hk] at ht
        cases ht
        rfl
    have ht : (Vm.machine pkt).cells.tgt a j = .skip 0 := by
      simp only [Machine.cells, hk, if_neg (Ne.symm he)]
      show Target.skip (a.insn.off j) = _
      rw [hoff]
    rw [Machine.run_jump hact' ht, Machine.run_nil]

theorem branch_of_shaped {a : Cell Insn Slot} (hs : shaped a = true) {k : Slot} {t : Target}
    (hk : a.slot = some (k, t)) (hn : k ≠ .ja) : branchCodes.contains a.insn.code = true := by
  obtain ⟨i, slot⟩ := a
  simp only at hk
  subst hk
  cases k with
  | jt => exact (Bool.and_eq_true_iff.mp hs).1
  | jf => exact (Bool.and_eq_true_iff.mp hs).1
  | ja => exact absurd rfl hn

theorem similar_branch {a : Cell Insn Slot} (hs : shaped a = true) {k : Slot} {x : Exit}
    (hk : a.slot = some (k, .exit x)) (hn : k ≠ .ja) (ha : fl.a = true)
    (hx : Vm.usesX a.insn = true → fl.x = true) (hb : b = true → fl.x = true) :
    Similar pkt b fl fl [a] := by
  intro s s' h
  obtain ⟨t, hact, hact'⟩ := branch_same (branch_of_shaped hs hk hn) (h.a ha)
    (fun hu => h.x (hx hu))
  have hj : (if t then Slot.jt else Slot.jf) ≠ .ja := by cases t <;> decide
  rw [branch_run hs hk hn hj hact, branch_run hs hk hn hj hact']
  by_cases he : (if t then Slot.jt else Slot.jf) = k
  · rw [if_pos he, if_pos he]
    exact ⟨rfl, h.weaken hb⟩
  · rw [if_neg he, if_neg he]
    exact h

theorem ja_run (s : Vm.Regs) (x : Exit) (c : Code) :
    (Vm.machine pkt).cells.run (Piece.jaCell x :: c) 0 s = .exit x s := by
  have hact : (Vm.machine pkt).cells.act (Piece.jaCell x) s = .ok (.jump .ja s) := by
    rw [Machine.cells_act, Piece.jaCell, Cell.hole_insn, (vm_jumps pkt).act]
  exact Machine.run_exit hact rfl

theorem Similar.alt (h₁ : Similar pkt b fl fl₁ c₁) (hb : b = true → fl₁.x = true)
    (h₂ : Similar pkt b (.entry b) fl₂ c₂) :
    Similar pkt b fl fl₂ (Frag.alt Piece.jaCell c₁ c₂) := by
  intro s s' h
  rw [Frag.alt, Machine.run_append, Machine.run_append, Machine.run_resolve _ (vm_no_exit pkt),
    Machine.run_resolve _ (vm_no_exit pkt)]
  rcases (h₁ s s' h).cases with ⟨t, t', hr, hr', hs⟩ | ⟨x, t, t', hr, hr', hs⟩ | ⟨hr, hr'⟩
  · rw [hr, hr']
    show Twin b fl₂ ((Vm.machine pkt).cells.run _ 0 t) ((Vm.machine pkt).cells.run _ 0 t')
    rw [ja_run, ja_run]
    exact ⟨rfl, hs.weaken hb⟩
  · rw [hr, hr']
    cases x with
    | success => exact ⟨rfl, hs⟩
    | failure => exact h₂ t t' hs
  · rw [hr, hr']
    exact ⟨rfl, rfl⟩

/-- What is agreed on behind straight code, if it reads only what is agreed on. -/
def flowAll : Code → Flags → Option Flags
  | [], fl => some fl
  | a :: c, fl =>
    match a.slot with
    | none => (flow a.insn fl).bind (flowAll c)
    | some (.jt, .exit _) => if fl.a && (!Vm.usesX a.insn || fl.x) then flowAll c fl else none
    | some (.jf, .exit _) => if fl.a && (!Vm.usesX a.insn || fl.x) then flowAll c fl else none
    | _ => none

theorem Similar.of_flow (hs : ∀ a ∈ c, shaped a = true) (hb : b = true → fl.x = true)
    (hf : flowAll c fl = some fl₁) : Similar pkt b fl fl₁ c ∧ (b = true → fl₁.x = true) := by
  induction c generalizing fl with
  | nil =>
    cases hf
    exact ⟨.nil, hb⟩
  | cons a c ih =>
    have hs' : ∀ b ∈ c, shaped b = true := fun b hb => hs b (List.mem_cons_of_mem _ hb)
    have ha := hs a List.mem_cons_self
    have branch : ∀ {k : Slot} {x : Exit}, a.slot = some (k, .exit x) → k ≠ .ja →
        (fl.a && (!Vm.usesX a.insn || fl.x)) = true → Similar pkt b fl fl [a] := by
      intro k x hk hn h
      simp only [Bool.and_eq_true, Bool.or_eq_true, Bool.not_eq_true'] at h
      exact similar_branch ha hk hn h.1 (fun hu => h.2.resolve_left (by simp [hu])) hb
    rw [← List.singleton_append]
    obtain ⟨i, _ | ⟨_ | _ | _, t | x⟩⟩ := a
    · simp only [flowAll] at hf
      obtain ⟨fl', hf', hrest⟩ := Option.bind_eq_some_iff.mp hf
      obtain ⟨h₂, hx⟩ := ih hs' (fun h => flow_x hf' (hb h)) hrest
      exact ⟨(similar_op ha hf').append h₂, hx⟩
    · cases hf
    · simp only [flowAll, Option.ite_none_right_eq_some] at hf
      obtain ⟨h₂, hx⟩ := ih hs' hb hf.2
      exact ⟨(branch rfl (by decide) hf.1).append h₂, hx⟩
    · cases hf
    · simp only [flowAll, Option.ite_none_right_eq_some] at hf
      obtain ⟨h₂, hx⟩ := ih hs' hb hf.2
      exact ⟨(branch rfl (by decide) hf.1).append h₂, hx⟩
    · cases hf
    · cases hf

theorem flowAll_append (c₁ c₂ : Code) (fl : Flags) :
    flowAll (c₁ ++ c₂) fl = (flowAll c₁ fl).bind (flowAll c₂) := by
  induction c₁ generalizing fl with
  | nil => rfl
  | cons a c ih =>
    obtain ⟨i, _ | ⟨_ | _ | _, t | x⟩⟩ := a
    · simp only [List.cons_append, flowAll, ih, Option.bind_assoc]
    · rfl
    · simp only [List.cons_append, flowAll, ih]
      split <;> rfl
    · rfl
    · simp only [List.cons_append, flowAll, ih]
      split <;> rfl
    · rfl
    · rfl

section Flows

variable (k : UInt32)

theorem flow_alu {i : Insn} (h : kind i = .alu) (ha : fl.a = true) : flow i fl = some fl := by
  simp only [flow, h, ha, if_true]

@[simp] theorem kind_ldwAbs : kind (.ldwAbs k) = .load := by simp +decide only [kind, Insn.ldwAbs]
@[simp] theorem kind_ldhAbs : kind (.ldhAbs k) = .load := by simp +decide only [kind, Insn.ldhAbs]
@[simp] theorem kind_ldbAbs : kind (.ldbAbs k) = .load := by simp +decide only [kind, Insn.ldbAbs]
@[simp] theorem kind_ldhInd : kind (.ldhInd k) = .loadInd := by simp +decide only [kind, Insn.ldhInd]
@[simp] theorem kind_ldwInd : kind (.ldwInd k) = .loadInd := by simp +decide only [kind, Insn.ldwInd]
@[simp] theorem kind_ldbInd : kind (.ldbInd k) = .loadInd := by simp +decide only [kind, Insn.ldbInd]
@[simp] theorem kind_andK : kind (.andK k) = .alu := by simp +decide only [kind, Insn.andK]
@[simp] theorem kind_rshK : kind (.rshK k) = .alu := by simp +decide only [kind, Insn.rshK]
@[simp] theorem kind_ldxMsh : kind (.ldxMsh k) = .loadX := by simp +decide only [kind, Insn.ldxMsh]

@[simp] theorem usesX_jeqK (jt jf : UInt8) : Vm.usesX (.jeqK k jt jf) = false := by
  simp +decide only [Vm.usesX, Insn.jeqK]

@[simp] theorem usesX_jgtK (jt jf : UInt8) : Vm.usesX (.jgtK k jt jf) = false := by
  simp +decide only [Vm.usesX, Insn.jgtK]

@[simp] theorem usesX_jgeK (jt jf : UInt8) : Vm.usesX (.jgeK k jt jf) = false := by
  simp +decide only [Vm.usesX, Insn.jgeK]

@[simp] theorem usesX_jsetK (jt jf : UInt8) : Vm.usesX (.jsetK k jt jf) = false := by
  simp +decide only [Vm.usesX, Insn.jsetK]

theorem kind_sized (off : Nat) (size : AccessSize) (ind : Bool) :
    kind (sizedInsn off size ind) = if ind then .loadInd else .load := by
  cases size <;> cases ind <;> simp [sizedInsn]

theorem kind_alu {op : ArithOp} {i : Insn} (h : aluInsn op k = .ok i) : kind i = .alu := by
  cases op with
  | div =>
    simp only [aluInsn] at h
    split at h
    · cases h
    · cases h
      simp +decide only [kind, Insn.divK]
  | mod => cases h
  | _ =>
    cases h
    simp +decide only [kind, Insn.andK, Insn.orK, Insn.xorK, Insn.addK, Insn.subK, Insn.mulK,
      Insn.lshK, Insn.rshK]

/-- ALU operations keep what is known once A is. -/
theorem flowAll_aluCode (alu : List (ArithOp × UInt32)) (ha : fl.a = true) :
    flowAll (ops (aluCode alu)) fl = some fl := by
  have hall : ∀ is : List Insn, (∀ i ∈ is, kind i = .alu) → flowAll (ops is) fl = some fl := by
    intro is h
    induction is with
    | nil => rfl
    | cons i is ih =>
      have hi := flow_alu (h i List.mem_cons_self) ha
      simp only [ops, List.map_cons, flowAll, Cell.op_slot, Cell.op_insn, hi, Option.bind_some]
      exact ih (fun j hj => h j (List.mem_cons_of_mem _ hj))
  refine hall _ (fun i hi => ?_)
  obtain ⟨⟨op, operand⟩, -, he⟩ := List.mem_filterMap.mp hi
  cases hr : aluInsn op operand with
  | error e => simp [hr, Except.toOption] at he
  | ok j =>
    simp only [hr, Except.toOption, Option.some.injEq] at he
    exact kind_alu operand (he ▸ hr)

end Flows

/-- Code whose way out depends on the packet only, and on X if `b` says so. -/
def Settled (pkt : Vm.Packet) (b : Bool) (c : Code) : Prop :=
  ∃ fl, (b = true → fl.x = true) ∧ Similar pkt b (.entry b) fl c

theorem Settled.nil : Settled pkt b [] := ⟨.entry b, id, .nil⟩

theorem Settled.append (h₁ : Settled pkt b c₁) (h₂ : Settled pkt b c₂) :
    Settled pkt b (c₁ ++ c₂) := by
  obtain ⟨fl₁, hx₁, h₁⟩ := h₁
  obtain ⟨fl₂, hx₂, h₂⟩ := h₂
  exact ⟨fl₂, hx₂, h₁.append (fun s s' hs => h₂ s s' (hs.weaken hx₁))⟩

theorem Settled.alt (h₁ : Settled pkt b c₁) (h₂ : Settled pkt b c₂) :
    Settled pkt b (Frag.alt Piece.jaCell c₁ c₂) := by
  obtain ⟨fl₁, hx₁, h₁⟩ := h₁
  obtain ⟨fl₂, hx₂, h₂⟩ := h₂
  exact ⟨fl₂, hx₂, h₁.alt hx₁ h₂⟩

theorem Settled.of_flow (hs : Solid c) (hf : (flowAll c (.entry b)).isSome = true) :
    Settled pkt b c := by
  obtain ⟨fl, hf⟩ := Option.isSome_iff_exists.mp hf
  obtain ⟨h, hx⟩ := Similar.of_flow (b := b) hs.shaped id hf
  exact ⟨fl, hx, h⟩

theorem settled_test {load : Insn} (hp : plain load = true) (hk : kind load = .load) (k : UInt32) :
    Settled pkt b (test load k) :=
  .of_flow (solid_test hp k) (by simp [test, jeqFail, flowAll, flow, hk])

theorem settled_bothCode {c : Nat → Code} (h : ∀ off, Settled pkt b (c off))
    (src dst first second : Nat) (dir : Dir) :
    Settled pkt b (bothCode c src dst first second dir) := by
  cases dir with
  | src => exact h src
  | dst => exact h dst
  | srcAndDst => exact (h first).append (h second)
  | srcOrDst => exact (h first).alt (h second)

theorem settled_segsCode (off i : Nat) (segs : List UInt16) :
    Settled pkt b (segsCode off i segs) := by
  induction segs generalizing i with
  | nil => exact .nil
  | cons seg segs ih => exact (settled_test (by simp) (by simp) _).append (ih _)

theorem settled_net6Code (prefixLen off i : Nat) (segs : List UInt16) :
    Settled pkt b (net6Code prefixLen off i segs) := by
  induction segs generalizing i with
  | nil => exact .nil
  | cons seg segs ih =>
    unfold net6Code
    split
    · exact .nil
    · refine Settled.append ?_ (ih _)
      split
      · exact settled_test (by simp) (by simp) _
      · exact .of_flow (Solid.of_open (by simp) (by simp [jeqFail]))
          (by simp [jeqFail, flowAll, flow])

theorem settled_addrCode {l : Nat → List Insn} (hs : ∀ off, ∀ i ∈ l off, plain i = true)
    (hf : ∀ off (fl : Flags), fl.x = b → flowAll (ops (l off)) fl = some { fl with a := true })
    (k : UInt32) (src dst : Nat) (dir : Dir) : Settled pkt b (addrCode l k src dst dir) := by
  refine .of_flow (solid_addrCode hs k src dst dir) ?_
  have h₀ : ∀ off, flowAll (ops (l off)) (.entry b) = some ⟨true, b, false⟩ :=
    fun off => hf off (.entry b) rfl
  have h₁ : ∀ off, flowAll (ops (l off)) ⟨true, b, false⟩ = some ⟨true, b, false⟩ :=
    fun off => hf off ⟨true, b, false⟩ rfl
  cases dir <;> simp [addrCode, flowAll_append, h₀, h₁, flowAll, jeqFail]

/-- A byte access loads A before it computes and compares. -/
theorem flowAll_constCode (ba : ByteAccess) (value : UInt32) (net : Nat) :
    (flowAll (constCode ba value net) (.entry b)).isSome = true := by
  have hcmp : ∀ fl : Flags, fl.a = true →
      (flowAll [cmpCell (cmpInsn ba.op value)] fl).isSome = true := by
    intro fl ha
    cases ba.op <;> simp [cmpCell, cmpInsn, flowAll, ha]
  have finish : ∀ is (fl : Flags), fl.a = true → flowAll (ops is) (.entry b) = some fl →
      (((flowAll (ops is) (.entry b)).bind (flowAll (ops (aluCode ba.aluOps)))).bind
        (flowAll [cmpCell (cmpInsn ba.op value)])).isSome = true := by
    intro is fl ha hfl
    rw [hfl, Option.bind_some, flowAll_aluCode _ ha]
    exact hcmp _ ha
  simp only [constCode, ops_append, flowAll_append]
  cases ba.layer with
  | raw => exact finish _ ⟨true, b, false⟩ rfl (by simp [ops, flowAll, flow, kind_sized, Flags.entry])
  | net => exact finish _ ⟨true, b, false⟩ rfl (by simp [ops, flowAll, flow, kind_sized, Flags.entry])
  | trans =>
    exact finish _ ⟨true, true, false⟩ rfl (by simp [ops, flowAll, flow, kind_sized, Flags.entry])

/-- One side of a byte access; a second transport access finds X in place. -/
theorem flowAll_loadSide (layer : Layer) (off : UInt32) (size : AccessSize) (net : Nat) (msh : Bool)
    (fl : Flags) (h : layer = .trans → msh = false → fl.x = true) :
    ∃ fl', fl'.a = true ∧ fl'.m = fl.m ∧ (fl.x = true ∨ layer = .trans → fl'.x = true) ∧
      flowAll (ops (loadSide layer off size net msh)) fl = some fl' := by
  unfold loadSide
  split
  · rename_i ht
    cases msh with
    | true =>
      exact ⟨⟨true, true, fl.m⟩, rfl, rfl, fun _ => rfl, by simp [ops, flowAll, flow, kind_sized]⟩
    | false =>
      have hx := h ht rfl
      exact ⟨⟨true, fl.x, fl.m⟩, rfl, rfl, fun _ => hx,
        by simp [ops, flowAll, flow, kind_sized, hx]⟩
  · rename_i ht
    exact ⟨⟨true, fl.x, fl.m⟩, rfl, rfl, fun hx => hx.resolve_right ht,
      by simp [ops, flowAll, flow, kind_sized]⟩

theorem flowAll_loadCode (ba : ByteAccess) (rhs : ByteLoad) (net : Nat) :
    (flowAll (loadCode ba rhs net) (.entry b)).isSome = true := by
  have hcmp : ∀ fl : Flags, fl.a = true → fl.x = true →
      (flowAll [cmpCell (cmpXInsn ba.op)] fl).isSome = true := by
    intro fl ha hx
    cases ba.op <;> simp [cmpCell, cmpXInsn, flowAll, ha, hx]
  have hst : kind (.st 0) = .store := by decide
  have hmem : kind (.ldxMem 0) = .reload := by decide
  have htax : kind .tax = .copy := by decide
  unfold loadCode
  split
  · obtain ⟨fl₁, ha₁, hm₁, hx₁, hf₁⟩ := flowAll_loadSide ba.layer ba.offset.toUInt32 ba.size net true
      (.entry b) (fun _ h => Bool.noConfusion h)
    obtain ⟨fl₂, ha₂, hm₂, -, hf₂⟩ := flowAll_loadSide rhs.layer rhs.offset.toUInt32 rhs.size net
      (ba.layer != .trans) { fl₁ with m := true }
      (fun _ h => hx₁ (.inr (by simpa using h)))
    simp only [ops_append, flowAll_append, hf₁, Option.bind_some, flowAll_aluCode _ ha₁]
    have hs : flowAll (ops [.st 0]) fl₁ = some { fl₁ with m := true } := by
      simp [ops, flowAll, flow, hst, ha₁]
    have hl : flowAll (ops [.ldxMem 0]) fl₂ = some { fl₂ with x := true } := by
      simp [ops, flowAll, flow, hmem, hm₂]
    rw [hs, Option.bind_some, hf₂, Option.bind_some, hl, Option.bind_some]
    exact hcmp _ ha₂ rfl
  · have hone : ∀ off size (fl : Flags), flowAll (ops [sizedInsn off size false]) fl =
        some { fl with a := true } := by
      intro off size fl
      simp [ops, flowAll, flow, kind_sized]
    have ht : flowAll (ops [.tax]) ⟨true, b, false⟩ = some ⟨true, true, false⟩ := by
      simp [ops, flowAll, flow, htax]
    have halu : flowAll (ops (aluCode ba.aluOps)) ⟨true, b, false⟩ = some ⟨true, b, false⟩ :=
      flowAll_aluCode _ rfl
    simp only [ops_append, flowAll_append, hone, Option.bind_some, Flags.entry, halu, ht]
    exact hcmp _ rfl rfl

/-- The primitives that read the transport offset in X. -/
def readsX : Primitive → Bool
  | .port .. => true
  | .portRange .. => true
  | _ => false

/-- The code of a primitive behind its guard leaves the way the packet says, and X for the
port tests. -/
theorem settled_body (pkt : Vm.Packet) (p : Primitive) (link : LinkType) (depth : Nat) :
    Settled pkt (readsX p) (body p link depth) := by
  cases p with
  | host addr dir =>
    cases addr with
    | v4 a =>
      exact settled_addrCode (l := fun off => [.ldwAbs (.ofNat off)]) (by simp)
        (fun off fl _ => by simp [ops, flowAll, flow]) _ _ _ _
    | v6 a => exact settled_bothCode (fun _ => settled_segsCode _ _ _) _ _ _ _ _
  | net n dir =>
    exact settled_addrCode (l := fun off => [.ldwAbs (.ofNat off), .andK n.mask]) (by simp)
      (fun off fl _ => by simp [ops, flowAll, flow]) _ _ _ _
  | net6 n dir => exact settled_bothCode (fun _ => settled_net6Code _ _ _ _) _ _ _ _ _
  | port port dir proto =>
    exact settled_addrCode (l := fun off => [.ldhInd (.ofNat off)]) (by simp)
      (fun off fl hx => by simp [ops, flowAll, flow, hx, readsX]) _ _ _ _
  | portRange lo hi dir proto =>
    refine settled_bothCode (c := rangeCode lo hi) (fun off => ?_) _ _ _ _ _
    exact .of_flow (solid_rangeCode lo hi off) (by simp [rangeCode, flowAll, flow, Flags.entry, readsX])
  | etherHost addr dir =>
    refine settled_bothCode (c := macCode addr) (fun off => ?_) _ _ _ _ _
    exact (settled_test (by simp) (by simp) _).append (settled_test (by simp) (by simp) _)
  | etherMulticast =>
    exact .of_flow (solid_body .etherMulticast link depth) (by simp [body, flowAll, flow])
  | ipBroadcast => exact settled_test (by simp) (by simp) _
  | ipMulticast =>
    exact .of_flow (solid_body .ipMulticast link depth) (by simp [body, flowAll, flow, jeqFail])
  | ip6Multicast => exact settled_test (by simp) (by simp) _
  | vlan id =>
    cases id with
    | none => exact .nil
    | some vid =>
      exact .of_flow (solid_body (.vlan (some vid)) link depth)
        (by simp [body, flowAll, flow, jeqFail])
  | mpls label =>
    refine .of_flow (solid_body (.mpls label) link depth) ?_
    cases label <;> simp [body, mplsCode, flowAll, flow, jeqFail]
  | pppoeSession sid =>
    cases sid with
    | none => exact .nil
    | some id => exact settled_test (by simp) (by simp) _
  | len op value =>
    refine .of_flow (solid_body (.len op value) link depth) ?_
    have hk : kind .ldLen = .load := by decide
    cases op <;> simp [body, cmpCell, cmpInsn, flowAll, flow, hk]
  | byteAccess ba =>
    simp only [body]
    cases ba.rhs with
    | const value => exact .of_flow (solid_constCode _ _ _) (flowAll_constCode _ _ _)
    | load rhs => exact .of_flow (solid_loadCode _ _ _) (flowAll_loadCode _ _ _)
  | proto | etherProto | pppoeDiscovery | ipProtoChain | ip6ProtoChain | inbound | outbound =>
    exact .nil

end Similar

/-- Code that leaves X alone. -/
def quiet (c : Code) : Prop := ∀ a ∈ c, writesX a.insn = false

def Kind.writesX : Kind → Bool
  | .loadX => true
  | .reload => true
  | .copy => true
  | _ => false

theorem plainCodes_kind : (divCode :: bpfSt :: ldxMemCode :: plainCodes).all (fun c =>
    Classic.writesX ⟨c, 0, 0, 0⟩ == (kind ⟨c, 0, 0, 0⟩).writesX) = true := by decide

theorem plain_writesX {i : Insn} (h : plain i = true) : Classic.writesX i = (kind i).writesX := by
  have hmem : i.code ∈ divCode :: bpfSt :: ldxMemCode :: plainCodes := by
    simp only [plain, Bool.or_eq_true, Bool.and_eq_true, beq_iff_eq] at h
    rcases h with (h | ⟨h, -⟩) | ⟨h | h, -⟩
    · simp only [List.mem_cons]
      exact .inr (.inr (.inr (by simpa using h)))
    · rw [h]
      simp
    · rw [h]
      simp
    · rw [h]
      simp
  exact eq_of_beq (List.all_eq_true.mp plainCodes_kind i.code hmem)

theorem apply_keeps_x {ef : Effect} (h : ef.kind.writesX = false) {s t : Vm.Regs}
    (ha : ef.apply s = .ok t) : t.x = s.x := by
  cases ef with
  | load v =>
    simp only [Effect.apply] at ha
    rcases orStop_cases v with he | ⟨w, he⟩ <;> rw [he] at ha <;> cases ha
    rfl
  | loadInd v =>
    simp only [Effect.apply] at ha
    rcases orStop_cases (v s.x) with he | ⟨w, he⟩ <;> rw [he] at ha <;> cases ha
    rfl
  | loadX v => cases h
  | alu f =>
    cases ha
    rfl
  | store =>
    cases ha
    rfl
  | reload => cases h
  | copy => cases h

section Outcome

variable {pkt : Vm.Packet} {c : Code}

theorem shaped_keeps_x {a : Cell Insn Slot} (hs : shaped a = true)
    (hq : Classic.writesX a.insn = false) (x : UInt32) {s : Vm.Regs} (hx : s.x = x) :
    Move.Keeps (fun s : Vm.Regs => s.x = x) ((Vm.machine pkt).cells.act a s) := by
  rw [Machine.cells_act]
  show Move.Keeps _ (Vm.act pkt a.insn s)
  have jump : ∀ k s', Vm.act pkt a.insn s = .ok (.jump k s') →
      Move.Keeps (fun s : Vm.Regs => s.x = x) (Vm.act pkt a.insn s) := by
    intro k s' h
    rw [h, act_jump_same pkt h]
    exact hx
  obtain ⟨i, _ | ⟨k, t⟩⟩ := a
  · obtain ⟨ef, hk, hact⟩ := plain_does pkt hs
    have hw : ef.kind.writesX = false := by
      rw [hk, ← plain_writesX hs]
      exact hq
    show Move.Keeps _ (Vm.act pkt i s)
    rw [hact]
    cases ha : ef.apply s with
    | error e => trivial
    | ok t => exact (apply_keeps_x hw ha).trans hx
  · by_cases hn : k = .ja
    · subst hn
      exact jump .ja s ((vm_laws pkt).ja _ _ (ja_code hs).2)
    · obtain ⟨b, -, hact⟩ := branch_act
        (branch_of_shaped (a := ⟨i, some (k, t)⟩) hs rfl hn) s
      exact jump _ s hact

theorem quiet_leaves (pkt : Vm.Packet) (hs : ∀ a ∈ c, shaped a = true) (hq : quiet c) (n : Nat) (s : Vm.Regs) :
    ((Vm.machine pkt).cells.run c n s).Leaves (fun s' => s'.x = s.x) :=
  Machine.run_leaves _ (fun a ha _ hx => shaped_keeps_x (hs a ha) (hq a ha) s.x hx) n rfl

/-- The outcome of a run. -/
def Result.tri : Result Vm.Stop Vm.Regs Bool → Tri
  | .past 0 _ => some true
  | .exit .success _ => some true
  | .exit .failure _ => some false
  | _ => none

/-- The outcome of settled code when X holds `x`. -/
def outcome (pkt : Vm.Packet) (c : Code) (x : UInt32) : Tri :=
  Result.tri ((Vm.machine pkt).cells.run c 0 { Vm.Regs.start with x := x })

/-- Settled code leaves with its outcome, and with X as it was if it is quiet. -/
theorem Settled.fits {b : Bool} (h : Settled pkt b c) (hs : ∀ a ∈ c, shaped a = true) (x : UInt32)
    (s : Vm.Regs) (hx : b = true → s.x = x) :
    ((Vm.machine pkt).cells.run c 0 s).Fits (· = .packetLoad) (fun s' => quiet c → s'.x = s.x)
      (fun s' => quiet c → s'.x = s.x) (outcome pkt c x) := by
  obtain ⟨fl, -, h⟩ := h
  have hsame : Same (.entry b) s { Vm.Regs.start with x := x } :=
    ⟨fun h => Bool.noConfusion h, hx, fun h => Bool.noConfusion h⟩
  have hleave : ((Vm.machine pkt).cells.run c 0 s).Leaves (fun s' => quiet c → s'.x = s.x) := by
    by_cases hq : quiet c
    · have hl := quiet_leaves pkt hs hq 0 s
      cases hr : (Vm.machine pkt).cells.run c 0 s with
      | past n s' =>
        rw [hr] at hl
        exact fun _ => hl
      | exit y s' =>
        rw [hr] at hl
        exact fun _ => hl
      | halt v => trivial
      | stop e => trivial
    · cases (Vm.machine pkt).cells.run c 0 s with
      | past n s' => exact fun hq' => absurd hq' hq
      | exit y s' => exact fun hq' => absurd hq' hq
      | halt v => trivial
      | stop e => trivial
  unfold outcome
  rcases (h _ _ hsame).cases with ⟨t, t', hr, hr', -⟩ | ⟨y, t, t', hr, hr', -⟩ | ⟨hr, hr'⟩
  · rw [hr] at hleave
    rw [hr, hr']
    exact ⟨t, hleave, .inl rfl⟩
  · rw [hr] at hleave
    rw [hr, hr']
    cases y with
    | success => exact ⟨t, hleave, .inr rfl⟩
    | failure => exact ⟨t, hleave, rfl⟩
  · rw [hr, hr']
    exact ⟨_, rfl, rfl⟩

/-- Counting X writes tells whether code is quiet. -/
theorem after_xWrites (ctx : Ctx) (c : Code) : ctx.xWrites ≤ (ctx.after c).xWrites ∧
    ((ctx.after c).xWrites = ctx.xWrites → quiet c) := by
  induction c generalizing ctx with
  | nil => exact ⟨Nat.le_refl _, fun _ a ha => absurd ha List.not_mem_nil⟩
  | cons a c ih =>
    obtain ⟨hle, hq⟩ := ih (ctx.push a.insn)
    rw [Ctx.after_cons]
    cases hw : Classic.writesX a.insn with
    | true =>
      have hp : (ctx.push a.insn).xWrites = ctx.xWrites + 1 := by simp [Ctx.push, hw]
      exact ⟨by omega, fun h => by omega⟩
    | false =>
      have hp : ctx.push a.insn = ctx := push_quiet ctx hw
      rw [hp] at hle hq ⊢
      refine ⟨hle, fun h b hb => ?_⟩
      rcases List.mem_cons.mp hb with rfl | hb
      · exact hw
      · exact hq h b hb

end Outcome

end PktBaffle.Proofs.Classic
