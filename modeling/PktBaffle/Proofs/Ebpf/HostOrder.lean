import PktBaffle.Forward.Lockstep
import PktBaffle.Proofs.Ebpf.Verdict

namespace PktBaffle.Proofs.Ebpf
open PktBaffle.Ebpf Forward Interp PktBaffle.Extended
open Vm (Packet)
open PktBaffle.Classic (LinkType)

/-- The two hosts side by side. -/
def hosts (pkt : Packet) : Machine Insn Unit (Regs × Regs) (Option Fault) UInt64 :=
  (machine pkt .little).pair (machine pkt .big)

/-- The pointers that loads go through: the start of the packet in R2 and, once R6 is written,
a transport header near it in R6. -/
structure Based (s : Regs) : Prop where
  two : s.get 2 = some pktBase
  six : ∀ x, s.get 6 = some x → pktBase.toNat ≤ x.toNat ∧ x.toNat ≤ pktBase.toNat + 200

theorem hosts_act (pkt : Packet) (i : Insn) (s : Regs × Regs) : (hosts pkt).act i s =
    Move.both (act pkt .little 0 i s.1) (act pkt .big 0 i s.2) := rfl

/-- Code that both hosts enter in one state and leave in one state, and where they fault, they
fault alike. -/
def Locked (pkt : Packet) (c : Code) : Prop :=
  Stays (hosts pkt) Agreed c (Same Based) (Same Based) (Same Based)

theorem Based.set {s : Regs} (h : Based s) {r : Fin 11} (h₂ : r ≠ 2) (h₆ : r ≠ 6) (x : UInt64) :
    Based (s.set r x) := by
  refine ⟨?_, fun y hy => h.2 y ?_⟩
  · rw [Regs.get_set_other s x h₂]
    exact h.1
  · rwa [Regs.get_set_other s x h₆] at hy

section Alike

variable {pkt : Packet} {pc : Nat} {i : Insn} {s : Regs} {S : Regs → Prop}
  {J : Unit → Regs → Prop}

theorem within_bind {α : Type} {x : Except Fault α} {f : α → Except Fault (Move Unit Regs UInt64)}
    (h : ∀ a, x = .ok a → Move.Within (fun _ => True) S J (f a)) :
    Move.Within (fun _ => True) S J (x >>= f) := by
  cases x with
  | error e => trivial
  | ok a => exact h a rfl

theorem wr_within {r : Fin 11} {x : UInt64} (h : S (s.set r x)) :
    Move.Within (fun _ => True) S J
      (s.wr r x pc >>= fun s' => (pure (.next s') : Except Fault (Move Unit Regs UInt64))) := by
  unfold Regs.wr
  split
  · trivial
  · exact h

/-- Only loads and byte swaps ask for the host. -/
theorem act_alike (hl : i.code &&& 0x07 ≠ bpfLdx) (he : i.code &&& 0xf0 ≠ bpfEnd) :
    act pkt .big pc i s = act pkt .little pc i s := by
  have halu : ∀ d q, actAlu .big pc i d q s = actAlu .little pc i d q s := by
    intro d q
    unfold actAlu
    simp only [he, if_false]
  unfold act
  simp only [hl, if_false, halu]

theorem within_ite {p : Prop} [Decidable p] {x y : Except Fault (Move Unit Regs UInt64)}
    (hx : Move.Within (fun _ => True) S J x) (hy : Move.Within (fun _ => True) S J y) :
    Move.Within (fun _ => True) S J (if p then x else y) := by
  split
  · exact hx
  · exact hy

theorem within_throw (e : Fault) (f : PUnit → Except Fault (Move Unit Regs UInt64)) :
    Move.Within (fun _ => True) S J (throw e >>= f) := trivial

/-- Arithmetic writes one register. -/
theorem actAlu_within {host : Endian} {d q : Fin 11} (he : i.code &&& 0xf0 ≠ bpfEnd)
    (h : ∀ x, S (s.set d x)) : Move.Within (fun _ => True) S J (actAlu host pc i d q s) := by
  have hrest : ∀ dv sv : UInt64, ∀ is64 mask, Move.Within (fun _ => True) S J
      (alu is64 (i.code &&& 0xf0) (dv &&& mask) (sv &&& mask) pc i.code >>= fun r =>
        s.wr d (r &&& mask) pc >>= fun s' => pure (.next s')) :=
    fun _ _ _ _ => within_bind fun r _ => wr_within (h _)
  unfold actAlu
  simp only [he, if_false]
  refine within_ite (within_throw ..) (within_ite (within_bind fun _ _ => ?_)
    (within_bind fun _ _ => ?_))
  · exact within_ite (within_bind fun _ _ => hrest ..) (within_bind fun _ _ => hrest ..)
  · exact within_ite (within_bind fun _ _ => hrest ..) (within_bind fun _ _ => hrest ..)

/-- A jump changes no register. -/
theorem actJmp_within {d q : Fin 11} (hs : S s) (hj : J () s) :
    Move.Within (fun _ => True) S J (actJmp pc i d q s) := by
  have hrest : ∀ hit : Bool, Move.Within (fun _ => True) S J
      (pure (if hit then .jump () s else .next s) : Except Fault (Move Unit Regs UInt64)) := by
    intro hit
    cases hit with
    | true => exact hj
    | false => exact hs
  unfold actJmp
  dsimp only
  refine within_ite (within_throw ..) (within_ite (within_bind fun _ _ => trivial)
    (within_ite hj (within_bind fun a _ => within_ite (within_bind fun b _ => hrest _)
      (within_bind fun b _ => hrest _))))

end Alike

section Quiet

variable {pkt : Packet} {i : Insn} {c d : Code}

/-- Arithmetic that is no byte swap and leaves the pointers alone, by opcode and registers. -/
def quiet (code regs : UInt8) : Bool :=
  (code &&& 0x07 == bpfAlu || code &&& 0x07 == bpfAlu64) && code &&& 0xf0 != bpfEnd &&
    (regs &&& 0xf == r0 || regs &&& 0xf == r4 || regs &&& 0xf == r5)

/-- A jump that reads no more than its registers, or the end of the program. -/
def jumping (code : UInt8) : Bool := code &&& 0x07 == bpfJmp && code &&& 0xf0 != bpfEnd

theorem quiet_new {code dst src : UInt8} {off : Int16} {imm : Int32}
    (h : quiet code ((dst &&& 0xf) ||| ((src &&& (0xf : UInt8)) <<< (4 : UInt8))) = true) :
    quiet (Insn.new code dst src off imm).code (Insn.new code dst src off imm).regs = true := h

theorem jumping_new {code dst src : UInt8} {off : Int16} {imm : Int32} (h : jumping code = true) :
    jumping (Insn.new code dst src off imm).code = true := h

theorem alike_new {code dst src : UInt8} {off : Int16} {imm : Int32} {s : Regs}
    (h : (code &&& 0x07 != bpfLdx && code &&& 0xf0 != bpfEnd) = true) :
    (machine pkt .big).act (.new code dst src off imm) s =
      (machine pkt .little).act (.new code dst src off imm) s := by
  simp only [Bool.and_eq_true, bne_iff_ne] at h
  exact act_alike h.1 h.2

theorem jumping_test (h : IsTest i) : jumping i.code = true := by
  cases h <;> exact jumping_new (by decide)

theorem jumping_ja : jumping (Insn.ja 0).code = true := jumping_new (by decide)

theorem jumping_beyond : jumping (Insn.jgtReg r5 r3 0).code = true := jumping_new (by decide)

theorem quiet_alike (h : quiet i.code i.regs = true) (s : Regs) :
    (machine pkt .big).act i s = (machine pkt .little).act i s := by
  simp only [quiet, Bool.and_eq_true, Bool.or_eq_true, beq_iff_eq, bne_iff_ne] at h
  refine act_alike ?_ h.1.2
  rcases h.1.1 with h7 | h7
  · rw [h7]
    decide
  · rw [h7]
    decide

theorem jumping_alike (h : jumping i.code = true) (s : Regs) :
    (machine pkt .big).act i s = (machine pkt .little).act i s := by
  simp only [jumping, Bool.and_eq_true, beq_iff_eq, bne_iff_ne] at h
  refine act_alike ?_ h.2
  rw [h.1]
  decide

theorem quiet_within (h : quiet i.code i.regs = true) (s : Regs) (hs : Based s) :
    Move.Within (fun _ => True) Based (fun _ _ => False) ((machine pkt .little).act i s) := by
  simp only [quiet, Bool.and_eq_true, Bool.or_eq_true, beq_iff_eq, bne_iff_ne] at h
  obtain ⟨⟨h7, he⟩, hr⟩ := h
  show Move.Within _ _ _ (act pkt .little 0 i s)
  unfold act
  split
  · rename_i hlt
    have hd : ∀ x, Based (s.set ⟨i.dst.toNat, hlt.1⟩ x) := by
      have hr' : i.dst = r0 ∨ i.dst = r4 ∨ i.dst = r5 := by
        rcases hr with (hr | hr) | hr
        · exact .inl hr
        · exact .inr (.inl hr)
        · exact .inr (.inr hr)
      refine hs.set (fun h2 => ?_) (fun h6 => ?_)
      · have hv : i.dst.toNat = 2 := congrArg Fin.val h2
        rcases hr' with hr | hr | hr <;> rw [hr] at hv <;> exact absurd hv (by decide)
      · have hv : i.dst.toNat = 6 := congrArg Fin.val h6
        rcases hr' with hr | hr | hr <;> rw [hr] at hv <;> exact absurd hv (by decide)
    have hl : i.code &&& 0x07 ≠ bpfLdx := by
      rcases h7 with h7 | h7
      · rw [h7]
        decide
      · rw [h7]
        decide
    simp only [hl, if_false, h7, if_true]
    exact actAlu_within he hd
  · trivial

theorem jumping_within (h : jumping i.code = true) (s : Regs) {S : Regs → Prop} (hs : S s) :
    Move.Within (fun _ => True) S (fun j s => j = () ∧ S s) ((machine pkt .little).act i s) := by
  simp only [jumping, Bool.and_eq_true, beq_iff_eq, bne_iff_ne] at h
  have hl : ¬bpfJmp = bpfLdx := by decide
  have ha : ¬(bpfJmp = bpfAlu ∨ bpfJmp = bpfAlu64) := by decide
  show Move.Within _ _ _ (act pkt .little 0 i s)
  unfold act
  split
  · simp only [h.1, hl, ha, if_false, true_or, if_true]
    exact actJmp_within hs ⟨trivial, hs⟩
  · trivial

/-- A jump, for both hosts. -/
theorem hosts_within (h : jumping i.code = true) (s : Regs × Regs) (hs : Same Based s) :
    Move.Within Agreed (Same Based) (fun j s => j = () ∧ Same Based s) ((hosts pkt).act i s) := by
  obtain ⟨s, s'⟩ := s
  obtain ⟨he, hb⟩ := hs
  obtain rfl : s = s' := he
  have hp : (hosts pkt).act i (s, s) =
      Move.both ((machine pkt .little).act i s) ((machine pkt .little).act i s) := by
    rw [hosts, Machine.pair_act, jumping_alike h]
  rw [hp]
  exact (jumping_within h s hb).both.mono (fun _ h => h) fun k s h => ⟨h.2.1, h.1, h.2.2⟩

theorem hosts_jumps : Jumps (hosts pkt) (.ja 0) () := jumps_ja.pair jumps_ja

theorem hosts_tgt : ∀ i k y, (hosts pkt).tgt i k ≠ .exit y := fun _ _ _ => by
  simp [hosts, Machine.pair, machine]

namespace Locked

theorem nil : Locked pkt [] := Stays.nil fun _ h => h

theorem append (hc : Locked pkt c) (hd : Locked pkt d) : Locked pkt (c ++ d) := Stays.append hc hd

theorem op (h : quiet i.code i.regs = true) : Locked pkt [.op i] :=
  (Stays.op (quiet_within h)).same fun a ha s => by
    rw [List.mem_singleton.mp ha]
    exact quiet_alike h s

theorem ops {is : List Insn} (h : ∀ i ∈ is, quiet i.code i.regs = true) : Locked pkt (ops is) := by
  induction is with
  | nil => exact nil
  | cons i is ih =>
    exact (op (h i List.mem_cons_self)).append (ih fun j hj => h j (List.mem_cons_of_mem _ hj))

theorem hole (x : Exit) (h : jumping i.code = true) : Locked pkt [.hole i () x] :=
  Stays.hole (hosts_within h)

theorem skipping (h : jumping i.code = true) (hc : Locked pkt c) :
    Locked pkt (Frag.skipping i () c) :=
  Stays.skipping (hosts_within h) hc

theorem branch (h : jumping i.code = true) (hc : Locked pkt c) (hd : Locked pkt d) :
    Locked pkt (Frag.branch i (.ja 0) () c d) :=
  Stays.branch (hosts_within h) hosts_jumps hc hd

theorem seq (hc : Locked pkt c) (hd : Locked pkt d) : Locked pkt (Frag.seq c d) :=
  Stays.seq hosts_tgt hc hd

theorem alt (hc : Locked pkt c) (hd : Locked pkt d) :
    Locked pkt (Frag.alt (Cell.hole (.ja 0) ()) c d) :=
  Stays.alt hosts_tgt hosts_jumps hc hd

theorem neg (hc : Locked pkt c) : Locked pkt (Frag.neg (Cell.hole (.ja 0) ()) c) :=
  Stays.neg hosts_tgt hosts_jumps hc

end Locked

end Quiet

section Pointer

variable {pkt : Packet} {P S F : Regs → Prop} {i : Insn}

theorem stays_next {host : Endian} (h : ∀ s, P s → ∃ s', act pkt host 0 i s = .ok (.next s') ∧ S s') :
    Stays (machine pkt host) (fun _ => True) [.op i] P S F := by
  refine Stays.op fun s hs => ?_
  obtain ⟨s', ha, hs'⟩ := h s hs
  show Move.Within _ _ _ (act pkt host 0 i s)
  rw [ha]
  exact hs'

theorem rd_unset {s : Regs} {r : Fin 11} (h : s.get r = none) (pc : Nat) :
    s.rd r pc = .error (.uninitRegister pc r) := by
  unfold Regs.get at h
  unfold Regs.rd
  split at h
  · cases h
  · rename_i hi
    exact if_neg hi

theorem act_and32_unset {host : Endian} {s : Regs} {k : Int32} (h : s.get 4 = none) :
    act pkt host 0 (.and32Imm r4 k) s = .error (.uninitRegister 0 4) := by
  rw [Insn.and32Imm, act_new (d := 4) (q := 0) (by decide)]
  show actAlu host 0 (Insn.new (bpfAlu ||| bpfAnd ||| bpfK) r4 0 0 k) 4 0 s = _
  unfold actAlu
  have hcode : (Insn.new (bpfAlu ||| bpfAnd ||| bpfK) r4 0 0 k).code = bpfAlu ||| bpfAnd ||| bpfK :=
    rfl
  have hop : (bpfAlu ||| bpfAnd ||| bpfK) &&& 0xf0 = bpfAnd := by decide
  have hx : (bpfAlu ||| bpfAnd ||| bpfK) &&& bpfX = 0 := by decide
  have hmem : bpfAnd ∈ aluOps := by decide
  have he : ¬bpfAnd = bpfEnd := by decide
  have hm : ¬bpfAnd = bpfMov := by decide
  simp only [hcode, hop, hx, hmem, not_true, if_false, he, hm, ne_eq, rd_unset h]
  rfl

/-- R4 holds at most `n`. -/
structure Small (n : Nat) (s : Regs) : Prop where
  based : Based s
  four : ∃ x, s.get 4 = some x ∧ x.toNat ≤ n

/-- R6 is `n` bytes behind the start of the packet. -/
structure Near (n : Nat) (s : Regs) : Prop where
  two : s.get 2 = some pktBase
  four : ∃ x, s.get 4 = some x ∧ x.toNat ≤ 60
  six : ∃ y, s.get 6 = some y ∧ y.toNat = pktBase.toNat + n

theorem and_small (x : UInt64) : ((x &&& 0xffffffff) &&& ((15 : Int32).toUInt32.toUInt64 &&& 0xffffffff)
    &&& 0xffffffff).toNat ≤ 15 := by
  have h15 : (15 : Int32).toUInt32.toUInt64 &&& 0xffffffff = 15 := by decide
  rw [h15, UInt64.toNat_and, UInt64.toNat_and]
  exact le_trans Nat.and_le_left Nat.and_le_right

theorem shl_small {x : UInt64} (h : x.toNat ≤ 15) :
    (((x &&& 0xffffffff) <<< (2 : UInt64)) &&& 0xffffffff).toNat ≤ 60 := by
  rw [UInt64.toNat_and]
  refine le_trans Nat.and_le_left ?_
  have h2 : (2 : UInt64).toNat % 64 = 2 := rfl
  rw [UInt64.toNat_shiftLeft, h2, UInt64.toNat_and, Nat.shiftLeft_eq]
  have hl : x.toNat &&& (0xffffffff : UInt64).toNat ≤ x.toNat := Nat.and_le_left
  omega

theorem base_add {n : Nat} (hn : n ≤ 200) :
    (pktBase + sext (Int32.ofNat n).toInt).toNat = pktBase.toNat + n := by
  rw [sext_imm (by omega), UInt64.toNat_add, UInt64.toNat_ofNat', pktBase_toNat]
  omega

/-- The pointer to the transport header stays near the start of the packet. -/
theorem pointer_stays {n : Nat} (hn : n ≤ 16) :
    Stays (machine pkt .little) (fun _ => True) (ops (transportPointer n)) Based Based F := by
  have hand : Stays (machine pkt .little) (fun _ => True) [.op (.and32Imm r4 0x0f)] Based
      (Small 15) F := by
    refine Stays.op fun s hs => ?_
    show Move.Within _ _ _ (act pkt .little 0 (.and32Imm r4 0x0f) s)
    cases h4 : s.get 4 with
    | none =>
      rw [act_and32_unset h4]
      trivial
    | some x =>
      have ha := @act_alu32 pkt .little 0 s x (bpfAlu ||| bpfAnd ||| bpfK) r4 0 bpfAnd 4 0 0 0x0f
        (by decide) (by decide) (by decide) h4
      rw [Insn.and32Imm, ha]
      exact ⟨hs.set (by decide) (by decide) _, _, Regs.get_set_same .., and_small x⟩
  have hshl : Stays (machine pkt .little) (fun _ => True) [.op (.lsh32Imm r4 2)] (Small 15)
      (Small 60) F := by
    refine stays_next fun s hs => ?_
    obtain ⟨hb, x, h4, hx⟩ := hs
    have ha := @act_alu32 pkt .little 0 s x (bpfAlu ||| bpfLsh ||| bpfK) r4 0 bpfLsh 4 0 0 2
      (by decide) (by decide) (by decide) h4
    exact ⟨_, ha, hb.set (by decide) (by decide) _, _, Regs.get_set_same .., shl_small hx⟩
  have hmov : Stays (machine pkt .little) (fun _ => True) [.op (.mov64Reg r6 r2)] (Small 60)
      (Near 0) F := by
    refine stays_next fun s hs => ⟨_, act_mov64_reg (d := 6) (by decide) (by decide) hs.1.1, ?_⟩
    obtain ⟨hb, x, h4, hx⟩ := hs
    exact ⟨by simpa using hb.1, ⟨x, by simpa using h4, hx⟩, _, Regs.get_set_same .., rfl⟩
  have hadd : Stays (machine pkt .little) (fun _ => True) [.op (.add64Imm r6 (.ofNat n))] (Near 0)
      (Near n) F := by
    refine stays_next fun s hs => ?_
    obtain ⟨h2, ⟨x, h4, hx⟩, y, h6, hy⟩ := hs
    obtain rfl : y = pktBase := UInt64.toNat_inj.mp hy
    exact ⟨_, act_add64_imm _ (d := 6) (by decide) (by decide) h6, by simpa using h2,
      ⟨x, by simpa using h4, hx⟩, _, Regs.get_set_same .., base_add (by omega)⟩
  have hsum : Stays (machine pkt .little) (fun _ => True) [.op (.add64Reg r6 r4)] (Near n)
      Based F := by
    refine stays_next fun s hs => ?_
    obtain ⟨h2, ⟨x, h4, hx⟩, y, h6, hy⟩ := hs
    refine ⟨_, act_add64_reg h4 h6, by simpa using h2, fun z hz => ?_⟩
    obtain rfl : y + x = z := Option.some.inj (by simpa using hz)
    rw [UInt64.toNat_add, hy, pktBase_toNat]
    omega
  exact hand.append (hshl.append (hmov.append (hadd.append hsum)))

/-- Behind a fixed header. -/
theorem fixed_stays {n : Nat} (hn : n ≤ 56) :
    Stays (machine pkt .little) (fun _ => True) (ops [.mov64Reg r6 r2, .add64Imm r6 (.ofNat n)])
      Based Based F := by
  have hmov : Stays (machine pkt .little) (fun _ => True) [.op (.mov64Reg r6 r2)] Based
      (fun s => s.get 2 = some pktBase ∧ s.get 6 = some pktBase) F :=
    stays_next fun s hs => ⟨_, act_mov64_reg (d := 6) (by decide) (by decide) hs.1,
      by simpa using hs.1, Regs.get_set_same ..⟩
  have hadd : Stays (machine pkt .little) (fun _ => True) [.op (.add64Imm r6 (.ofNat n))]
      (fun s => s.get 2 = some pktBase ∧ s.get 6 = some pktBase) Based F := by
    refine stays_next fun s hs => ⟨_, act_add64_imm _ (d := 6) (by decide) (by decide) hs.2,
      by simpa using hs.1, fun z hz => ?_⟩
    obtain rfl := Option.some.inj ((Regs.get_set_same ..).symm.trans hz)
    rw [base_add (by omega)]
    omega
  exact hmov.append hadd

end Pointer

section Load

variable {pkt : Packet}

/-- A load through one of the pointers never reaches the context, which the hosts store
differently. -/
theorem load_low (ctx : List UInt8) {addr : UInt64} {size pc : Nat} (h : addr < ctxBase) :
    load ctx pkt addr size pc = load [] pkt addr size pc := by
  have hn : ¬(ctxBase ≤ addr ∧ addr < ctxBase + 8) := fun hc => by
    rw [UInt64.le_iff_toNat_le] at hc
    rw [UInt64.lt_iff_toNat_lt] at h
    omega
  unfold load
  rw [if_neg hn, if_neg hn]

theorem load_length {addr : UInt64} {size pc : Nat} {bytes : List UInt8} (h : addr < ctxBase)
    (hl : load [] pkt addr size pc = .ok bytes) : bytes.length = size := by
  have hn : ¬(ctxBase ≤ addr ∧ addr < ctxBase + 8) := fun hc => by
    rw [UInt64.le_iff_toNat_le] at hc
    rw [UInt64.lt_iff_toNat_lt] at h
    omega
  unfold load at hl
  rw [if_neg hn] at hl
  split at hl
  · rename_i hin
    cases hl
    rw [List.length_take, List.length_drop]
    omega
  · cases hl

/-- A displacement of 16 bits leads from a pointer to an address below the context. -/
theorem addr_low {x : UInt64} (off : Int16)
    (h : pktBase.toNat ≤ x.toNat ∧ x.toNat ≤ pktBase.toNat + 200) :
    x + sext off.toInt < ctxBase := by
  have hlo := off.le_toInt
  have hhi := off.toInt_lt
  have hc : ctxBase.toNat = 0x20000000 := rfl
  rw [UInt64.lt_iff_toNat_lt, UInt64.toNat_add, hc]
  rw [pktBase_toNat] at h
  unfold sext UInt64.ofInt
  rw [UInt64.toNat_ofNat']
  omega

theorem act_ldx_unset {host : Endian} {code base : UInt8} {b : Fin 11} {off : Int16} {s : Regs}
    (hd : decodes r4 base 4 b = true) (hc : code &&& 0x07 = bpfLdx ∧ code &&& 0xe0 = bpfMem)
    (h : s.get b = none) :
    act pkt host 0 (.new code r4 base off 0) s = .error (.uninitRegister 0 b) := by
  rw [act_new hd]
  simp only [hc.1, if_true]
  unfold actLdx
  have hcode : (Insn.new code r4 base off 0).code = code := rfl
  simp only [hcode, hc.2, ne_eq, not_true, if_false, rd_unset h]
  rfl

theorem set_set (s : Regs) (r : Fin 11) (x y : UInt64) : (s.set r x).set r y = s.set r y := by
  simp [Regs.set]

/-- Both hosts hold the bytes of one load, each as it reads them. -/
structure Raw (bytes : List UInt8) (s : Regs × Regs) : Prop where
  held : ∃ s₀, Based s₀ ∧
    s = (s₀.set 4 (Endian.little.read bytes), s₀.set 4 (Endian.big.read bytes))

/-- What a load leaves on the two hosts. -/
theorem ldx_within {code base : UInt8} {b : Fin 11} {off : Int16} {n : Nat}
    (hd : decodes r4 base 4 b = true)
    (hc : code &&& 0x07 = bpfLdx ∧ code &&& 0xe0 = bpfMem ∧ accessSize code = n)
    (hb : b = 2 ∨ b = 6) (s : Regs × Regs) (hs : Same Based s) :
    Move.Within Agreed (fun s => ∃ bytes, bytes.length = n ∧ Raw bytes s) (fun _ _ => False)
      ((hosts pkt).act (.new code r4 base off 0) s) := by
  obtain ⟨s, s'⟩ := s
  obtain ⟨he, hbase⟩ := hs
  obtain rfl : s = s' := he
  rw [hosts_act]
  cases hx : s.get b with
  | none =>
    rw [act_ldx_unset hd ⟨hc.1, hc.2.1⟩ hx, act_ldx_unset hd ⟨hc.1, hc.2.1⟩ hx, Move.both,
      if_pos rfl]
    exact Option.some_ne_none _
  | some x =>
    have hnear : pktBase.toNat ≤ x.toNat ∧ x.toNat ≤ pktBase.toNat + 200 := by
      rcases hb with rfl | rfl
      · obtain rfl := Option.some.inj (hbase.1.symm.trans hx)
        omega
      · exact hbase.2 x hx
    have hlow := addr_low off hnear
    rw [act_ldx hd ⟨hc.1, hc.2.1⟩ (by decide) hx, act_ldx hd ⟨hc.1, hc.2.1⟩ (by decide) hx,
      load_low (context pkt .little) hlow, load_low (context pkt .big) hlow, hc.2.2]
    cases hl : load [] pkt (x + sext off.toInt) n 0 with
    | error e =>
      show Move.Within Agreed _ _ (if e = e then .error (some e) else .error none)
      rw [if_pos rfl]
      exact Option.some_ne_none e
    | ok bytes => exact ⟨bytes, load_length hlow hl, s, hbase, rfl⟩

/-- A swap that gives both hosts the same number. -/
theorem swap_within {i : Insn} {bytes : List UInt8} {v : UInt64}
    (h : ∀ host s, s.get 4 = some (host.read bytes) → act pkt host 0 i s = .ok (.next (s.set 4 v)))
    {s : Regs × Regs} (hs : Raw bytes s) :
    Move.Within Agreed (Same Based) (fun _ _ => False) ((hosts pkt).act i s) := by
  obtain ⟨s₀, hb, rfl⟩ := hs
  rw [hosts_act, h .little _ (Regs.get_set_same ..), h .big _ (Regs.get_set_same ..)]
  simp only [Move.both, set_set]
  exact ⟨rfl, hb.set (by decide) (by decide) v⟩

/-- A load and its swap. -/
theorem ldxBe_locked (size : AccessSize) {base : UInt8} {b : Fin 11} (off : Int16)
    (hd : decodes r4 base 4 b = true) (hb : b = 2 ∨ b = 6) :
    Locked pkt (ops (ldxBe size r4 base off)) := by
  cases size with
  | byte =>
    refine Stays.op fun s hs => (ldx_within (n := 1) hd (by decide) hb s hs).mono ?_ fun _ _ h => h
    rintro _ ⟨bytes, hn, s₀, hbase, rfl⟩
    obtain ⟨x, rfl⟩ := List.length_eq_one_iff.mp hn
    rw [read_one, read_one]
    exact ⟨rfl, hbase.set (by decide) (by decide) _⟩
  | half =>
    refine Stays.append (c := [.op _]) (d := [.op _])
      (Stays.op (ldx_within (n := 2) hd (by decide) hb)) (Stays.op ?_)
    rintro s ⟨bytes, hn, hraw⟩
    obtain ⟨x, y, rfl⟩ := List.length_eq_two.mp hn
    exact swap_within (fun host s h => act_be16 h) hraw
  | word =>
    refine Stays.append (c := [.op _]) (d := [.op _])
      (Stays.op (ldx_within (n := 4) hd (by decide) hb)) (Stays.op ?_)
    rintro s ⟨bytes, hn, hraw⟩
    obtain ⟨x, y, z, w, rfl⟩ : ∃ x y z w, bytes = [x, y, z, w] := by
      rcases bytes with _ | ⟨x, bytes⟩
      · cases hn
      · obtain ⟨y, z, w, rfl⟩ := List.length_eq_three.mp (Nat.succ_inj.mp hn)
        exact ⟨x, y, z, w, rfl⟩
    exact swap_within (fun host s h => act_be32 h) hraw

end Load

namespace Locked

variable {pkt : Packet}

theorem load (size : AccessSize) (off : Nat) : Locked pkt (loadCode size off) :=
  ((ops fun i hi => by
      simp only [List.mem_cons, List.not_mem_nil, or_false] at hi
      rcases hi with rfl | rfl <;> exact quiet_new (by decide)).append
    (hole .failure jumping_beyond)).append (ldxBe_locked size _ (by decide) (.inl rfl))

theorem bound (k : Int32) : Locked pkt (r6Code k) :=
  (ops fun i hi => by
      simp only [List.mem_cons, List.not_mem_nil, or_false] at hi
      rcases hi with rfl | rfl <;> exact quiet_new (by decide)).append (hole .failure jumping_beyond)

/-- The pointers are computed, not loaded, so both hosts compute the same ones. -/
theorem pointer {n : Nat} (hn : n ≤ 16) : Locked pkt (Ebpf.ops (transportPointer n)) := by
  refine (pointer_stays hn).same fun a ha s => ?_
  obtain ⟨i, hi, rfl⟩ := List.mem_map.mp ha
  simp only [transportPointer, List.mem_cons, List.not_mem_nil, or_false] at hi
  rcases hi with rfl | rfl | rfl | rfl | rfl <;> exact alike_new (by decide)

theorem fixed {n : Nat} (hn : n ≤ 56) :
    Locked pkt (Ebpf.ops [.mov64Reg r6 r2, .add64Imm r6 (.ofNat n)]) := by
  refine (fixed_stays hn).same fun a ha s => ?_
  obtain ⟨i, hi, rfl⟩ := List.mem_map.mp ha
  simp only [List.mem_cons, List.not_mem_nil, or_false] at hi
  rcases hi with rfl | rfl <;> exact alike_new (by decide)

theorem atoms : Atoms fun _ c _ => Locked pkt c where
  nil _ := nil
  append := append
  load _ size off _ := load size off
  failing _ _ h := hole .failure (jumping_test h)
  leaving _ _ h := hole .success (jumping_test h)
  either _ i j hi hj := by
    refine skipping (jumping_test hi) (hole .failure ?_)
    rcases hj with hj | rfl
    · exact jumping_test hj
    · exact jumping_ja
  branch hc hd _ _ := branch (jumping_test (.jeq _)) hc hd
  alt hc hd _ := alt hc hd
  mask _ _ := op (quiet_new (by decide))
  shift _ := op (quiet_new (by decide))
  pointer _ n hn := pointer hn
  fixed _ n hn := fixed hn
  bound _ k := bound k
  port _ := ldxBe_locked .half _ (by decide) (.inr rfl)
  length _ := (op (quiet_new (by decide))).append (op (quiet_new (by decide)))

theorem arith {op : ArithOp} {k : Int32} {i : Insn} (h : ebpfAlu32 op r4 k = .ok i) :
    quiet i.code i.regs = true := by
  cases op with
  | div =>
    simp only [ebpfAlu32] at h
    split at h
    · cases h
    · cases h
      exact quiet_new (by decide)
  | mod => cases h
  | _ => cases h; exact quiet_new (by decide)

theorem byteAccess {link : LinkType} {ba : ByteAccess} {c : Code}
    (hc : byteAccessCode link ba = .ok c) : Whole (fun _ c _ => Locked pkt c) c := by
  obtain ⟨value, is, -, ha, hshape⟩ := byteAccessCode_ok hc
  have hnet := netOffset_le link
  have halu : Locked pkt (Ebpf.ops is) := ops fun i hi => by
    obtain ⟨s, -, hs⟩ := aluCode_mem ha hi
    exact arith hs
  obtain ⟨-, -, rfl⟩ | ⟨-, -, rfl⟩ := hshape
  · have hl : Locked pkt (transportCode link.netOffset ++
        r6Code (ba.offset + .ofNat (AccessSize.bytes ba.size)) ++
        Ebpf.ops (ldxBe ba.size r4 r6 ba.offset.toInt16)) :=
      append (append (append (load _ _) (pointer hnet)) (bound _))
        (ldxBe_locked _ _ (by decide) (.inr rfl))
    exact atoms.access value (fun _ => ⟨none, hl⟩) fun _ => halu
  · exact atoms.access value (fun _ => ⟨none, load _ _⟩) fun _ => halu

theorem leaf {link : LinkType} {p : Primitive} {c : Code} (hc : leafCode link p = .ok c) :
    Locked pkt c := by
  obtain ⟨-, h⟩ := atoms.leaf hc (fun ba hp => byteAccess (by rw [hp] at hc; exact hc)) none
  exact h

theorem expr {link : LinkType} {e : Expr} {c : Code} (hc : exprCode link e = .ok c) :
    Locked pkt c := by
  induction e generalizing c with
  | primitive p => exact leaf hc
  | and l r ihl ihr =>
    obtain ⟨a, b, ha, hb, rfl⟩ := exprCode_and hc
    exact seq (ihl ha) (ihr hb)
  | or l r ihl ihr =>
    obtain ⟨a, b, ha, hb, rfl⟩ := exprCode_or hc
    exact alt (ihl ha) (ihr hb)
  | not e ih =>
    obtain ⟨a, ha, rfl⟩ := exprCode_not hc
    exact neg (ih ha)

end Locked

section Program

variable {pkt : Packet} {c : Code}

/-- Both hosts leave the prologue with the same packet bounds. -/
theorem prologue_locked :
    Stays (hosts pkt) Agreed (ops prologue) (Same (· = Regs.start)) (Same Based) (Same Based) := by
  have hone : Regs.start.get 1 = some ctxBase := by decide
  have hdata : Stays (hosts pkt) Agreed [.op (.ldxW r2 r1 0)] (Same (· = Regs.start))
      (Same fun s => s.get 1 = some ctxBase ∧ s.get 2 = some pktBase ∧ s.get 6 = none)
      (Same Based) := by
    refine Stays.op ?_
    rintro ⟨s, s'⟩ ⟨he, hs⟩
    obtain rfl : s = s' := he
    obtain rfl : s = Regs.start := hs
    rw [hosts_act, act_data hone, act_data hone]
    exact ⟨rfl, by simpa using hone, Regs.get_set_same .., by simp; decide⟩
  have hend : Stays (hosts pkt) Agreed [.op (.ldxW r3 r1 4)]
      (Same fun s => s.get 1 = some ctxBase ∧ s.get 2 = some pktBase ∧ s.get 6 = none)
      (Same Based) (Same Based) := by
    refine Stays.op ?_
    rintro ⟨s, s'⟩ ⟨he, h1, h2, h6⟩
    obtain rfl : s = s' := he
    rw [hosts_act, act_dataEnd h1, act_dataEnd h1]
    refine ⟨rfl, by simpa using h2, fun x hx => ?_⟩
    have hx' : s.get 6 = some x := by simpa using hx
    rw [h6] at hx'
    cases hx'
  exact hdata.append hend

theorem epilogue_twice (n : Nat) (s : Regs) : (hosts pkt).cells.run (ops epilogue) n (s, s) =
    ((machine pkt .little).cells.run (ops epilogue) n s).twice := by
  refine Machine.run_pair (fun a ha s => ?_) n s
  obtain ⟨i, hi, rfl⟩ := List.mem_map.mp ha
  simp only [epilogue, List.mem_cons, List.not_mem_nil, or_false] at hi
  rcases hi with rfl | rfl | rfl | rfl <;> exact alike_new (by decide)

/-- The verdicts are written by the same code on both hosts. -/
theorem epilogue_agrees {n : Nat} (hn : n = 0 ∨ n = 2) {s : Regs × Regs} (hs : Same Based s) :
    ((hosts pkt).cells.run (ops epilogue) n s).Within Agreed (Same Based) (Same Based) := by
  obtain ⟨s, s'⟩ := s
  obtain rfl : s = s' := hs.1
  rw [epilogue_twice]
  rcases hn with rfl | rfl
  · have h := @run_return pkt .little [.mov64Imm r0 xdpDrop, .exit] true s
    have he : (machine pkt .little).cells.run (ops epilogue) 0 s = .halt (returns true) := h
    rw [he]
    trivial
  · have h := @run_return pkt .little [] false s
    have he : (machine pkt .little).cells.run (ops epilogue) 2 s = .halt (returns false) := h
    rw [he]
    trivial

theorem program_agrees (hc : Locked pkt c) :
    (hosts pkt).cells.run (program c) 0 (.start, .start) ≠ .stop none := by
  have hrest : Stays (hosts pkt) Agreed
      (Frag.resolve .failure 2 (Frag.resolve .success 0 c) ++ ops epilogue) (Same Based)
      (Same Based) (Same Based) := by
    intro s hs
    have h := hc s hs
    rw [Machine.run_append, Machine.run_resolve _ hosts_tgt, Machine.run_resolve _ hosts_tgt]
    generalize (hosts pkt).cells.run c 0 s = r at h ⊢
    rcases r with ⟨n, s'⟩ | ⟨x | x, s'⟩ | r | e
    · obtain ⟨rfl, hs'⟩ := h
      exact epilogue_agrees (.inl rfl) hs'
    · exact epilogue_agrees (.inl rfl) h
    · exact epilogue_agrees (.inr rfl) h
    · trivial
    · exact h
  have h := (prologue_locked.append hrest) (.start, .start) ⟨rfl, rfl⟩
  intro he
  rw [program] at he
  rw [he] at h
  exact h rfl

/-- The finished instructions run as their cells do, on both hosts. -/
theorem hosts_raw (h : Finished c) (n : Nat) (s : Regs × Regs) :
    (hosts pkt).run (c.map (Cell.raw Insn.put)) n s = (hosts pkt).cells.run c n s := by
  refine Machine.run_map _ _ (Cell.raw Insn.put) c (fun a ha s => ?_) n s
  obtain ⟨i, _ | ⟨k, t | x⟩⟩ := a
  · exact ⟨rfl, fun k s' _ => rfl⟩
  · have hj := h.tidy.jumps _ ha (by simp)
    have ht := h.tidy.within _ ha k t rfl
    refine ⟨?_, fun k' s' _ => ?_⟩
    · show Move.both (act pkt .little 0 (i.put k t) s.1) (act pkt .big 0 (i.put k t) s.2) = _
      rw [act_put hj, act_put hj]
      rfl
    · show Target.skip (i.put k t).off.toInt.toNat = _
      rw [put_off ht]
      simp [Machine.cells]
  · exact absurd rfl (h.filled _ ha k x)

end Program

section Lockstep

variable {pkt : Packet} {pre is : List Insn}

/-- As long as the two hosts have not parted, their interpreters end alike, also where they run
out of turns. -/
theorem exec_lockstep (hf : Forwards pkt .little is) {n : Nat} {s s' : Regs}
    (h : (hosts pkt).run is n (s, s') ≠ .stop none) (limit : Nat) :
    execFrom pkt .little (pre ++ is) limit (pre.length + n) s =
      execFrom pkt .big (pre ++ is) limit (pre.length + n) s' := by
  induction is generalizing pre n s s' limit with
  | nil =>
    cases limit with
    | zero => rfl
    | succ limit =>
      have hget : (pre ++ [])[pre.length + n]? = none := by simp
      rw [execFrom, execFrom, hget]
  | cons i is ih =>
    have ih' := fun {n s s'} h limit => @ih (pre ++ [i])
      (fun j hj => hf j (List.mem_cons_of_mem _ hj)) n s s' h limit
    cases n with
    | succ n => simpa [Nat.add_assoc, Nat.add_comm 1] using ih' h limit
    | zero =>
      cases limit with
      | zero => rfl
      | succ limit =>
        have hget : (pre ++ i :: is)[pre.length + 0]? = some i := by simp
        have hplace : ∀ host s, act pkt host (pre.length + 0) i s =
            (act pkt host 0 i s).mapError (relocate (pre.length + 0)) :=
          fun host s => (act_relocate _ pkt host 0 i s).symm
        have hagree : Move.both (act pkt .little 0 i s) (act pkt .big 0 i s') ≠ .error none := by
          intro hp
          exact h (Machine.run_stop ((hosts_act pkt i (s, s')).trans hp))
        rw [execFrom, execFrom, hget]
        dsimp only
        rw [hplace, hplace]
        rcases Move.both_cases hagree with
          ⟨e, ha, hb⟩ | ⟨r, ha, hb⟩ | ⟨s₁, s₂, ha, hb⟩ | ⟨⟨⟩, s₁, s₂, ha, hb⟩
        · rw [ha, hb]
          rfl
        · rw [ha, hb]
          rfl
        · have hp : (hosts pkt).act i (s, s') = .ok (.next (s₁, s₂)) := by
            rw [hosts_act, ha, hb]
            rfl
          rw [Machine.run_next hp] at h
          rw [ha, hb]
          simpa using ih' h limit
        · have hfw := hf i List.mem_cons_self _ _ _ ha
          have hp : (hosts pkt).act i (s, s') = .ok (.jump () (s₁, s₂)) := by
            rw [hosts_act, ha, hb, Move.both, if_pos rfl]
          rw [Machine.run_jump (n := i.off.toInt.toNat) hp rfl] at h
          rw [ha, hb]
          dsimp only [mapError_ok]
          -- A jump out of the program is the same fault on both hosts.
          by_cases hout : ((pre.length + 0 : Nat) + 1 + i.off.toInt : Int) < 0 ∨
              ((pre ++ i :: is).length : Int) ≤ (pre.length + 0 : Nat) + 1 + i.off.toInt
          · rw [if_pos hout, if_pos hout]
          · rw [if_neg hout, if_neg hout]
            have ht : ((pre.length + 0 : Nat) + 1 + i.off.toInt : Int).toNat =
                (pre ++ [i]).length + i.off.toInt.toNat := by
              simp only [List.length_append, List.length_singleton]
              omega
            rw [ht]
            simpa using ih' h limit

/-- An extended program ends alike on hosts of either byte order, with the same verdict or the
same fault at the same place, whatever the expression, the packet and the step limit. -/
theorem host_independent (e : Expr) (link : LinkType) (prog : List Insn)
    (h : compile e link = .ok prog) (pkt : Packet) (limit : Nat) :
    runWithin pkt .little prog limit = runWithin pkt .big prog limit := by
  obtain ⟨c, hc, hf, rfl⟩ := compile_ok h
  have hrun : (hosts pkt).run ((program c).map (Cell.raw Insn.put)) 0 (.start, .start) ≠ .stop none := by
    rw [hosts_raw hf]
    exact program_agrees (Locked.expr hc)
  set prog := (program c).map (Cell.raw Insn.put)
  have hexec : execFrom pkt .little ([] ++ prog) limit 0 .start =
      execFrom pkt .big ([] ++ prog) limit 0 .start := exec_lockstep hf.forwards hrun limit
  rw [List.nil_append] at hexec
  unfold runWithin
  exact congrArg (· >>= _) hexec

/-- A packet with the Ethernet type of IPv4. -/
def ipv4Start : Packet := [0, 0, 0, 0, 0, 0, 0, 0, 0, 0, 0, 0, 8, 0]

theorem host_independent_tcp : ∃ prog, compile tcpNotHttp .ethernet = .ok prog ∧
    runEbpf ipv4Start .little prog = runEbpf ipv4Start .big prog := by
  have hok : (compile tcpNotHttp .ethernet).isOk = true := by decide +kernel
  cases hp : compile tcpNotHttp .ethernet with
  | error err =>
    rw [hp] at hok
    cases hok
  | ok prog => exact ⟨prog, rfl, host_independent tcpNotHttp .ethernet prog hp ipv4Start stepLimit⟩

end Lockstep

end PktBaffle.Proofs.Ebpf
