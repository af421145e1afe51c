import PktBaffle.Proofs.Ebpf.Bytes
import PktBaffle.Proofs.Ebpf.Code

namespace PktBaffle.Proofs.Ebpf
open PktBaffle.Ebpf Forward Interp PktBaffle.Extended
open Vm (Packet fromBe2 fromBe4)
open PktBaffle.Classic (LinkType)

/-- The interpreter as a forward machine. The program counter of a fault is not kept. -/
def machine (pkt : Packet) (host : Endian) : Machine Insn Unit Regs Fault UInt64 where
  act := act pkt host 0
  tgt i _ := .skip i.off.toInt.toNat

/-- The one fault that a byte access may still run into. -/
def Shifts (f : Fault) : Prop := f = .badShift 0

/-- The field of `size` bytes at `off`, in network order. -/
def field (pkt : Packet) (size : AccessSize) (off : Nat) : UInt32 :=
  match size, pkt.drop off with
  | .byte, a :: _ => a.toUInt32
  | .half, a :: b :: _ => fromBe2 a b
  | .word, a :: b :: c :: d :: _ => fromBe4 a b c d
  | _, _ => 0

/-- The packet bounds in R2 and R3, and what is known of R4 and R6. -/
structure Holds (pkt : Packet) (four six : Option UInt64) (s : Regs) : Prop where
  two : s.get 2 = some pktBase
  three : s.get 3 = some (dataEnd pkt)
  four : ∀ x, four = some x → s.get 4 = some x
  six : ∀ x, six = some x → s.get 6 = some x

namespace Holds

variable {pkt : Packet} {a b : Option UInt64} {s : Regs} {x : UInt64}

theorem forget (h : Holds pkt a b s) : Holds pkt none none s :=
  ⟨h.two, h.three, by simp, by simp⟩

theorem forget_four (h : Holds pkt a b s) : Holds pkt none b s :=
  ⟨h.two, h.three, by simp, h.six⟩

theorem set_zero (h : Holds pkt a b s) : Holds pkt a b (s.set 0 x) :=
  ⟨by simpa using h.two, by simpa using h.three, by simpa using h.four, by simpa using h.six⟩

theorem set_four (h : Holds pkt a b s) : Holds pkt (some x) b (s.set 4 x) :=
  ⟨by simpa using h.two, by simpa using h.three, by simp, by simpa using h.six⟩

theorem set_five (h : Holds pkt a b s) : Holds pkt a b (s.set 5 x) :=
  ⟨by simpa using h.two, by simpa using h.three, by simpa using h.four, by simpa using h.six⟩

theorem set_six (h : Holds pkt a b s) : Holds pkt a (some x) (s.set 6 x) :=
  ⟨by simpa using h.two, by simpa using h.three, by simpa using h.four, by simp⟩

end Holds

theorem run_op {pkt : Packet} {host : Endian} {i : Insn} {c : Code} {s s' : Regs}
    (h : act pkt host 0 i s = .ok (.next s')) :
    (machine pkt host).cells.run (.op i :: c) 0 s = (machine pkt host).cells.run c 0 s' :=
  Machine.run_cell_next (M := machine pkt host) (a := .op i) h

section Blocks

variable {pkt : Packet} {host : Endian} {a b : Option UInt64}

/-- The load of `size` bytes at `off` behind register `q`, if they are in the packet. -/
theorem ldxBe_drops (size : AccessSize) {r : UInt8} {q : Fin 11} (hq : decodes r4 r 4 q = true)
    {n off : Nat} (hoff : off ≤ 32767) (hn : n < 2 ^ 16)
    (hreg : ∀ s, Holds pkt a b s → s.get q = some (addr n))
    (hlen : n + off + AccessSize.bytes size ≤ pkt.length) :
    Drops (machine pkt host) Shifts (ops (ldxBe size r4 r (.ofNat off))) (Holds pkt a b) (some true)
      (Holds pkt (some (field pkt size (n + off)).toUInt64) b) (Holds pkt none none) := by
  have haddr : addr n + sext (Int16.ofNat off).toInt = addr (n + off) := by
    rw [sext_off hoff]
    simp [addr, UInt64.add_assoc]
  intro s hs
  have hload := fun ctx => @load_packet pkt ctx (n + off) (AccessSize.bytes size) 0 (by omega) hlen
  have hdrop : AccessSize.bytes size ≤ (pkt.drop (n + off)).length := by
    rw [List.length_drop]
    omega
  cases size with
  | byte =>
    obtain ⟨x, rest, hx⟩ : ∃ x rest, pkt.drop (n + off) = x :: rest := by
      rcases hd : pkt.drop (n + off) with _ | ⟨x, rest⟩
      · rw [hd] at hdrop
        cases hdrop
      · exact ⟨x, rest, rfl⟩
    have hact : (machine pkt host).act (.ldxB r4 r (.ofNat off)) s =
        .ok (.next (s.set 4 x.toUInt64)) := by
      refine (act_ldx hq (by decide) (by decide) (hreg s hs)).trans ?_
      rw [haddr]
      show (load _ pkt (addr (n + off)) (AccessSize.bytes .byte) 0).map _ = _
      rw [hload, hx]
      show Except.ok (Move.next (s.set 4 (host.read [x]))) = _
      rw [read_one]
    refine ⟨s.set 4 x.toUInt64, ?_, ?_⟩
    · simpa [field, hx] using hs.set_four (x := x.toUInt64)
    · exact (run_op hact).trans (Machine.run_nil ..)
  | half =>
    obtain ⟨x, y, rest, hx⟩ : ∃ x y rest, pkt.drop (n + off) = x :: y :: rest := by
      rcases hd : pkt.drop (n + off) with _ | ⟨x, _ | ⟨y, rest⟩⟩
      · rw [hd] at hdrop
        exact absurd hdrop (by decide)
      · rw [hd] at hdrop
        exact absurd hdrop (by simp [AccessSize.bytes])
      · exact ⟨x, y, rest, rfl⟩
    have hact : (machine pkt host).act (.ldxH r4 r (.ofNat off)) s =
        .ok (.next (s.set 4 (host.read [x, y]))) := by
      refine (act_ldx hq (by decide) (by decide) (hreg s hs)).trans ?_
      rw [haddr]
      show (load _ pkt (addr (n + off)) (AccessSize.bytes .half) 0).map _ = _
      rw [hload, hx]
      rfl
    have hend := @act_be16 pkt _ 0 _ _ _ (Regs.get_set_same s 4 (host.read [x, y]))
    refine ⟨(s.set 4 (host.read [x, y])).set 4 (fromBe2 x y).toUInt64, ?_, ?_⟩
    · simpa [field, hx] using (hs.set_four (x := host.read [x, y])).set_four (x := (fromBe2 x y).toUInt64)
    · exact (run_op hact).trans ((run_op hend).trans (Machine.run_nil ..))
  | word =>
    obtain ⟨x, y, z, w, rest, hx⟩ : ∃ x y z w rest, pkt.drop (n + off) = x :: y :: z :: w :: rest := by
      rcases hd : pkt.drop (n + off) with _ | ⟨x, _ | ⟨y, _ | ⟨z, _ | ⟨w, rest⟩⟩⟩⟩
      · rw [hd] at hdrop
        exact absurd hdrop (by decide)
      · rw [hd] at hdrop
        exact absurd hdrop (by simp [AccessSize.bytes])
      · rw [hd] at hdrop
        exact absurd hdrop (by simp [AccessSize.bytes])
      · rw [hd] at hdrop
        exact absurd hdrop (by simp [AccessSize.bytes])
      · exact ⟨x, y, z, w, rest, rfl⟩
    have hact : (machine pkt host).act (.ldxW r4 r (.ofNat off)) s =
        .ok (.next (s.set 4 (host.read [x, y, z, w]))) := by
      refine (act_ldx hq (by decide) (by decide) (hreg s hs)).trans ?_
      rw [haddr]
      show (load _ pkt (addr (n + off)) (AccessSize.bytes .word) 0).map _ = _
      rw [hload, hx]
      rfl
    have hend := @act_be32 pkt _ 0 _ _ _ _ _ (Regs.get_set_same s 4 (host.read [x, y, z, w]))
    refine ⟨(s.set 4 (host.read [x, y, z, w])).set 4 (fromBe4 x y z w).toUInt64, ?_, ?_⟩
    · simpa [field, hx] using
        (hs.set_four (x := host.read [x, y, z, w])).set_four (x := (fromBe4 x y z w).toUInt64)
    · exact (run_op hact).trans ((run_op hend).trans (Machine.run_nil ..))

/-- The value of a conditional jump on R4. -/
theorem tests_four {i : Insn} {v : UInt64} {t : Bool}
    (h : ∀ s, s.get 4 = some v → act pkt host 0 i s = .ok (if t then .jump () s else .next s)) :
    Tests (machine pkt host) i () (Holds pkt (some v) b) t :=
  fun s hs => h s (hs.four v rfl)

/-- A comparison of R4 that leaves through failure. -/
theorem failing_drops {i : Insn} {v : UInt64} {t : Bool}
    (h : ∀ s, s.get 4 = some v → act pkt host 0 i s = .ok (if t then .jump () s else .next s)) :
    Drops (machine pkt host) Shifts [failing i] (Holds pkt (some v) b) (some !t)
      (Holds pkt (some v) b) (Holds pkt none none) :=
  (tests_four h).failure (fun _ hs => hs) (fun _ hs => hs.forget)

/-- The bounds check that R5 is compared with `data_end` for. -/
theorem bound_drops {n : Nat} (hn : n < 2 ^ 32) :
    Drops (machine pkt host) Shifts [failing (.jgtReg r5 r3 0)]
      (fun s => Holds pkt a b s ∧ s.get 5 = some (addr n))
      (some (decide (pktBase.toNat + n ≤ (dataEnd pkt).toNat))) (Holds pkt a b)
      (Holds pkt none none) := by
  have htest : Tests (machine pkt host) (.jgtReg r5 r3 0) ()
      (fun s => Holds pkt a b s ∧ s.get 5 = some (addr n)) (decide (dataEnd pkt < addr n)) :=
    fun s hs => @act_jgt_r5_r3 pkt host _ _ _ _ 0 hs.2 hs.1.three
  have hb : (!decide (dataEnd pkt < addr n)) =
      decide (pktBase.toNat + n ≤ (dataEnd pkt).toNat) := by
    rw [← decide_not]
    apply decide_eq_decide.mpr
    rw [UInt64.lt_iff_toNat_lt, addr_toNat hn, pktBase_toNat]
    omega
  rw [← hb]
  exact htest.failure (fun _ hs => hs.1) (fun _ hs => hs.1.forget)

theorem drops_next {i : Insn} {P S F : Regs → Prop} {f : Regs → Regs}
    (h : ∀ s, P s → act pkt host 0 i s = .ok (.next (f s))) (hf : ∀ s, P s → S (f s)) :
    Drops (machine pkt host) Shifts [.op i] P (some true) S F :=
  Drops.op (fun s hs => ⟨f s, h s hs, hf s hs⟩)

/-- R5 set to `stop` bytes behind a register that points into the packet, and checked. -/
theorem check_drops {r : UInt8} {q : Fin 11} (hq : decodes r5 r 5 q = true) {n stop : Nat}
    (hn : n < 2 ^ 16) (hstop : stop < 2 ^ 31)
    (hreg : ∀ s, Holds pkt a b s → s.get q = some (addr n)) :
    Drops (machine pkt host) Shifts
      (ops [.mov64Reg r5 r, .add64Imm r5 (.ofNat stop)] ++ [failing (.jgtReg r5 r3 0)])
      (Holds pkt a b) (some (decide (pktBase.toNat + (n + stop) ≤ (dataEnd pkt).toNat)))
      (Holds pkt a b) (Holds pkt none none) := by
  have hmov : Drops (machine pkt host) Shifts [.op (.mov64Reg r5 r)] (Holds pkt a b) (some true)
      (fun s => Holds pkt a b s ∧ s.get 5 = some (addr n)) (Holds pkt none none) :=
    drops_next (fun s hs => act_mov64_reg hq (by decide) (hreg s hs))
      (fun s hs => ⟨hs.set_five, by simp⟩)
  have hadd : Drops (machine pkt host) Shifts [.op (.add64Imm r5 (.ofNat stop))]
      (fun s => Holds pkt a b s ∧ s.get 5 = some (addr n)) (some true)
      (fun s => Holds pkt a b s ∧ s.get 5 = some (addr (n + stop))) (Holds pkt none none) := by
    refine drops_next (f := fun s => s.set 5 (addr n + sext (Int32.ofNat stop).toInt))
      (fun s hs => act_add64_imm _ (by decide) (by decide) hs.2)
      (fun s hs => ⟨hs.1.set_five, ?_⟩)
    rw [Regs.get_set_same, sext_imm hstop]
    simp [addr, UInt64.add_assoc]
  exact (hmov.append_drops fun _ => hadd.append_drops fun _ =>
    bound_drops (n := n + stop) (by omega))

/-- A bounds check and a load from the packet start. -/
theorem load_drops (size : AccessSize) {off : Nat} (hoff : off ≤ 32767) :
    Drops (machine pkt host) Shifts (loadCode size off) (Holds pkt a b)
      (some (fits pkt off (AccessSize.bytes size)))
      (Holds pkt (some (field pkt size off).toUInt64) b) (Holds pkt none none) := by
  have hsize : AccessSize.bytes size ≤ 4 := by cases size <;> decide
  have htwo : ∀ s, Holds pkt a b s → s.get 2 = some (addr 0) := by
    intro s hs
    rw [hs.two]
    simp [addr]
  have hcheck := @check_drops _ host _ _ r2 2 (by decide) 0 (off + AccessSize.bytes size)
    (by omega) (by omega) htwo
  rw [Nat.zero_add] at hcheck
  refine (hcheck.append_drops (t := some true) fun hfit => ?_).weaken (fun _ h => h)
    (fun _ h => h) (fun _ h => h) |> (fun h => by simpa [loadCode, fits] using h)
  have hlen : off + AccessSize.bytes size ≤ pkt.length :=
    length_of_fits pkt (Option.some.inj hfit)
  have := @ldxBe_drops _ host _ _ size r2 2 (by decide) 0 _ hoff (by omega) htwo (by omega)
  rwa [Nat.zero_add] at this

end Blocks

end PktBaffle.Proofs.Ebpf
