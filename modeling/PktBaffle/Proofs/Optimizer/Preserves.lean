import PktBaffle.Proofs.Optimizer.Sound

namespace PktBaffle.Proofs.Optimizer
open Bpf Forward PktBaffle.Optimizer

/-- What the passes promise about one program: the same verdict on every packet, jumps
that go forward and stay inside, and branches whose displacement is the distance to the
instruction they are meant for. -/
structure Preserved (insns : List Insn) : Prop where
  verdict : ∀ pkt, Vm.run (optimize insns) pkt = Vm.run insns pkt
  inside : ∀ j insn, (optimize insns)[j]? = some insn → ∀ t ∈ jumpTargets j insn,
    j < t ∧ t < (optimize insns).length
  exact : ∀ j insn', (optimize insns)[j]? = some insn' →
    ∃ i insn, Exact insns (optimize insns) j insn' i insn

theorem run_eq_of_exec {a b : List Insn} {pkt : Vm.Packet} (h : Vm.exec a pkt = Vm.exec b pkt) :
    Vm.run a pkt = Vm.run b pkt := by
  rw [Vm.run, Vm.run, Vm.inner, Vm.inner, h]

theorem jumpTargets_gt {i t : Nat} {insn : Insn} (h : t ∈ jumpTargets i insn) : i < t := by
  obtain ⟨k, _, rfl⟩ := mem_jumpTargets.mp h
  unfold target
  omega

/-- A well-formed program in which no chain of unconditional jumps spans 2³² instructions
keeps its meaning. -/
theorem optimize_preserves (insns : List Insn) (h : WellFormed insns) (hf : JaFits insns) :
    Preserved insns where
  verdict pkt := run_eq_of_exec (run_optimize h hf (vm_laws pkt) .start)
  inside j insn hj t ht := ⟨jumpTargets_gt ht, h.optimize.inside j insn hj t ht⟩
  exact _ _ hj := optimize_exact h hj

/-- A jump over `n` returns onto a second jump. -/
def farJump (n : Nat) : List Insn :=
  .ja (UInt32.ofNat n) :: (List.replicate n (.retK bpfDrop) ++
    [.ja 1, .retK bpfDrop, .retK bpfAccept])

section FarJump

variable (n : Nat)

theorem farJump_length : (farJump n).length = n + 4 := by
  simp [farJump]

theorem farJump_first : (farJump n)[0]? = some (.ja (UInt32.ofNat n)) := rfl

theorem farJump_mid {i : Nat} (h : i < n) : (farJump n)[i + 1]? = some (.retK bpfDrop) := by
  rw [farJump, List.getElem?_cons_succ, List.getElem?_append_left (by simpa using h)]
  simp [h]

theorem farJump_tail (i : Nat) : (farJump n)[i + n + 1]? =
    [Insn.ja 1, Insn.retK bpfDrop, Insn.retK bpfAccept][i]? := by
  rw [farJump, List.getElem?_cons_succ, List.getElem?_append_right (by simp)]
  simp

/-- The program is made of its first jump, returns, and the second jump. -/
theorem farJump_cases {i : Nat} {insn : Insn} (h : (farJump n)[i]? = some insn) :
    (i = 0 ∧ insn = .ja (UInt32.ofNat n)) ∨ (i = n + 1 ∧ insn = .ja 1) ∨
      insn = .retK bpfDrop ∨ insn = .retK bpfAccept := by
  cases i with
  | zero =>
    rw [farJump_first, Option.some.injEq] at h
    exact .inl ⟨rfl, h.symm⟩
  | succ i =>
    rcases Nat.lt_or_ge i n with hlt | hge
    · rw [farJump_mid n hlt, Option.some.injEq] at h
      exact .inr (.inr (.inl h.symm))
    · obtain ⟨j, rfl⟩ : ∃ j, i = j + n := ⟨i - n, by omega⟩
      rw [farJump_tail n j] at h
      match j with
      | 0 => exact .inr (.inl ⟨by omega, by simpa using h.symm⟩)
      | 1 => exact .inr (.inr (.inl (by simpa using h.symm)))
      | 2 => exact .inr (.inr (.inr (by simpa using h.symm)))
      | j + 3 => simp at h

theorem isJa_ja (k : UInt32) : isJa (.ja k) = true := by
  simp only [isJa, Insn.ja]
  decide

theorem ret_targets (i : Nat) (k : UInt32) : jumpTargets i (.retK k) = [] := by
  have hj : isJa (.retK k) = false := by
    simp only [isJa, Insn.retK]
    decide
  have hc : isCondJump (.retK k) = false := by
    simp only [isCondJump, Insn.retK]
    decide
  simp [jumpTargets, hj, hc]

theorem ja_targets (i : Nat) (k : UInt32) : jumpTargets i (.ja k) = [target i k.toNat] := by
  rw [jumpTargets, if_pos (isJa_ja k)]
  rfl

theorem farJump_wellFormed (h : n < 2 ^ 32) : WellFormed (farJump n) where
  opcodes insn hm := by
    obtain ⟨i, hi⟩ := List.mem_iff_getElem?.mp hm
    have hja : bpfJmp ||| bpfJa ∈ opcodes := by decide
    have hret : bpfRet ||| bpfK ∈ opcodes := by decide
    rcases farJump_cases n hi with ⟨_, rfl⟩ | ⟨_, rfl⟩ | rfl | rfl
    · exact hja
    · exact hja
    · exact hret
    · exact hret
  ret := by
    refine ⟨.retK bpfAccept, ?_, rfl⟩
    rw [List.getLast?_eq_getElem?, farJump_length, show n + 4 - 1 = 2 + n + 1 by omega,
      farJump_tail]
    rfl
  inside i insn hi t ht := by
    rw [farJump_length]
    rcases farJump_cases n hi with ⟨rfl, rfl⟩ | ⟨rfl, rfl⟩ | rfl | rfl
    · rw [ja_targets, List.mem_singleton, UInt32.toNat_ofNat', Nat.mod_eq_of_lt h] at ht
      unfold target at ht
      omega
    · rw [ja_targets, List.mem_singleton] at ht
      have : t = n + 1 + 1 + 1 := ht
      omega
    · rw [ret_targets] at ht
      cases ht
    · rw [ret_targets] at ht
      cases ht

theorem farJump_accepts (h : n < 2 ^ 32) (pkt : Vm.Packet) : Vm.run (farJump n) pkt = true := by
  have hlaws := vm_laws pkt
  have hk : (Insn.ja (UInt32.ofNat n)).off .ja = n := by
    simp only [Insn.off, Insn.ja, UInt32.toNat_ofNat']
    exact Nat.mod_eq_of_lt h
  have hexec : Vm.exec (farJump n) pkt = .halt true := by
    rw [Vm.exec, farJump, Machine.run_jump (hlaws.ja _ .start (isJa_ja _)) (hlaws.tgt _ .ja), hk,
      Machine.run_append]
    have hpast := (Vm.machine pkt).run_past (List.replicate n (Insn.retK bpfDrop)) 0 .start
    rw [List.length_replicate, Nat.add_zero] at hpast
    rw [hpast]
    rfl
  rw [Vm.run, Vm.inner, hexec]
  rfl

/-- With 2³² instructions between its two jumps the first one is threaded to the wrong
place: `as u32` keeps only the low bits of the distance. -/
theorem farJump_optimized (h : n + 1 = 2 ^ 32) (pkt : Vm.Packet) :
    Vm.run (optimize (farJump n)) pkt = false := by
  have hwf := farJump_wellFormed n (by omega)
  have hlaws := vm_laws pkt
  have hpos : 0 < (farJump n).length := by rw [farJump_length]; omega
  have hk : (Insn.ja (UInt32.ofNat n)).k.toNat = n := by
    simp only [Insn.ja, UInt32.toNat_ofNat']
    exact Nat.mod_eq_of_lt (by omega)
  have hend : finalTarget (finTable (farJump n)) (n + 3) = n + 3 :=
    finalTarget_other
      (by rw [show n + 3 = 2 + n + 1 by omega, farJump_tail]; rfl) rfl
  have hmid : finalTarget (finTable (farJump n)) (n + 1) = n + 3 := by
    rw [finalTarget_ja
      (by rw [show n + 1 = 0 + n + 1 by omega, farJump_tail]; rfl) rfl]
    exact hend
  have hfirst : (threadJumps (farJump n))[0]? = some (.ja 1) := by
    rw [threadJumps_get (farJump_first n)]
    have hd : threadDist (finTable (farJump n)) 0 (target 0 n) = 2 ^ 32 + 1 := by
      rw [threadDist, show target 0 n = n + 1 by unfold target; omega, hmid]
      omega
    rw [threadInsn, if_pos (isJa_ja _), hk, hd]
    rfl
  have hthird : (threadJumps (farJump n))[2]? = some (.retK bpfDrop) := by
    rw [threadJumps_get (farJump_mid n (i := 1) (by omega))]
    rfl
  have hrem := from_removeUnkept hwf.threadJumps hlaws (farJump n).length 0 (by simp) hpos .start
    .entry .unknown ((swept _).entry (by simpa using hpos)) trivial
  rw [newPos_zero, from_jump hfirst (hlaws.ja _ _ rfl) (hlaws.tgt _ .ja)
    (by rw [threadJumps_length, farJump_length]; show 2 ≤ n + 4; omega)] at hrem
  have hexec : Vm.exec (optimize (farJump n)) pkt = .halt false :=
    hrem.trans (from_halt hthird rfl)
  rw [Vm.run, Vm.inner, hexec]
  rfl

end FarJump

theorem optimize_far_jump : ¬ ∀ insns, WellFormed insns → Preserved insns := by
  intro hall
  have hwf := farJump_wellFormed (2 ^ 32 - 1) (by omega)
  have hverdict := (hall _ hwf).verdict []
  rw [farJump_optimized _ (by omega), farJump_accepts _ (by omega)] at hverdict
  cases hverdict

theorem JaPath.inside {insns : List Insn} (h : WellFormed insns) {i t : Nat}
    (hp : JaPath insns i t) : t < insns.length := by
  induction hp with
  | one i insn hi hj => exact h.inside i insn hi _ (by simp [jumpTargets, hj])
  | step _ _ _ _ _ _ ih => exact ih

/-- No chain is longer than the program. -/
theorem WellFormed.jaFits {insns : List Insn} (h : WellFormed insns)
    (hl : insns.length ≤ 2 ^ 32) : JaFits insns := by
  intro i t hp
  have := hp.inside h
  omega

/-- A load, a test and the trampoline of a negation. -/
def trampoline : List Insn :=
  [.ldhAbs 12, .jeqK 0x0800 0 2, .ja 0, .retK bpfAccept, .retK bpfDrop]

/-- The bound on the targets as a check over the finished list. -/
theorem inside_of_zipIdx {insns : List Insn}
    (h : ∀ p ∈ insns.zipIdx, ∀ t ∈ jumpTargets p.2 p.1, t < insns.length) (i : Nat) (insn : Insn)
    (hi : insns[i]? = some insn) : ∀ t ∈ jumpTargets i insn, t < insns.length :=
  h (insn, i) (List.mem_iff_getElem?.mpr ⟨i, by simp [hi]⟩)

theorem trampoline_wellFormed : WellFormed trampoline where
  opcodes := by decide
  ret := ⟨.retK bpfDrop, rfl, rfl⟩
  inside := inside_of_zipIdx (by decide)

theorem trampoline_preserved :
    WellFormed trampoline ∧ JaFits trampoline ∧ Preserved trampoline :=
  ⟨trampoline_wellFormed, trampoline_wellFormed.jaFits (by decide),
    optimize_preserves trampoline trampoline_wellFormed
      (trampoline_wellFormed.jaFits (by decide))⟩

end PktBaffle.Proofs.Optimizer
