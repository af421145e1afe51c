import PktBaffle.Proofs.Optimizer.Sound
import PktBaffle.VmLoop

namespace PktBaffle.VmLoop
open Bpf Vm Forward

section Try

variable {α β : Type} {k : α → Try β}

theorem pure_eq (a : α) : (pure a : Try α) = try_ (some a) := rfl

theorem failure_eq : (failure : Try α) = try_ none := rfl

@[simp] theorem try_some_bind (a : α) : try_ (some a) >>= k = k a := rfl

@[simp] theorem try_none_bind : try_ none >>= k = try_ none := rfl

theorem try_bind_try {γ : Type} (o : Option α) (f : α → Option γ) (k : γ → Try β) :
    (try_ o >>= fun a => try_ (f a) >>= k) = try_ (o.bind f) >>= k := by
  cases o <;> rfl

theorem strict_of_eq {message : String} {o : Option α} {a : α} (h : o = some a) :
    strict message o = try_ (some a) := by
  rw [h]
  rfl

end Try

section Arithmetic

variable {w : Nat}

theorem add_eq {a b : Nat} (h : a + b < 2 ^ w) : add w a b = try_ (some (a + b)) :=
  strict_of_eq (Usize.checkedAdd_of_lt h)

/-- A masked byte times four stays far below the bound. -/
theorem mul_nibble (b : UInt8) :
    mul 4 (b.toUInt32 &&& 0xf) = try_ (some (4 * (b.toUInt32 &&& 0xf))) := by
  have hle : (b.toUInt32 &&& 0xf).toNat ≤ 15 := by
    rw [UInt32.toNat_and]
    exact Nat.and_le_right
  have h4 : (4 : UInt32).toNat = 4 := rfl
  refine strict_of_eq ?_
  have hlt : (4 : UInt32).toNat * (b.toUInt32 &&& 0xf).toNat < 2 ^ 32 := by
    rw [h4]
    omega
  rw [(Usize.checkedMul_eq_some (w := 32)).mpr ⟨rfl, hlt⟩, Option.map_some, Option.some.injEq,
    UInt32.ofNat_mul, UInt32.ofNat_toNat, UInt32.ofNat_toNat]

theorem div_eq (a : UInt32) {v : UInt32} (h : v ≠ 0) : div a v = try_ (some (a / v)) :=
  strict_of_eq (if_neg h)

theorem masked_lt (v : UInt32) : v &&& 31 < 32 := by
  have hle : (v &&& 31).toNat ≤ 31 := by
    rw [UInt32.toNat_and]
    exact Nat.and_le_right
  exact Nat.lt_succ_of_le hle

theorem shl_eq (a v : UInt32) : shl a (v &&& 31) = try_ (some (a <<< (v &&& 31))) :=
  strict_of_eq (if_pos (masked_lt v))

theorem shr_eq (a v : UInt32) : shr a (v &&& 31) = try_ (some (a >>> (v &&& 31))) :=
  strict_of_eq (if_pos (masked_lt v))

end Arithmetic

section Loads

variable {w : Nat} {pkt : Packet}

/-- A range that fits is what follows its start. -/
theorem getRange_checked {n : Nat} (hp : pkt.length < 2 ^ w) (off : Nat) :
    (Usize.checkedAdd w off n).bind (getRange pkt off) =
      if off + n ≤ pkt.length then some ((pkt.drop off).take n) else none := by
  by_cases h : off + n < 2 ^ w
  · rw [Usize.checkedAdd_of_lt h, Option.bind_some, getRange]
    have hsub : off + n - off = n := by omega
    rw [hsub]
    by_cases hle : off + n ≤ pkt.length
    · rw [if_pos ⟨by omega, hle⟩, if_pos hle]
    · rw [if_neg (fun hc => hle hc.2), if_neg hle]
  · rw [Usize.checkedAdd_of_le (by omega), Option.bind_none, if_neg (by omega)]

theorem index_eq {bytes : List UInt8} {i : Nat} {b : UInt8} (h : bytes[i]? = some b) :
    index bytes i = try_ (some b) := strict_of_eq h

theorem word_eq (hp : pkt.length < 2 ^ w) (off : UInt32) :
    (do
      let b ← try_ (getRange pkt off.toNat (← try_ (Usize.checkedAdd w off.toNat 4)))
      return fromBe4 (← index b 0) (← index b 1) (← index b 2) (← index b 3)) =
      try_ (word pkt off) := by
  rw [try_bind_try, getRange_checked hp, word]
  split
  · rename_i h
    obtain ⟨b0, b1, b2, b3, rest, hb⟩ : ∃ b0 b1 b2 b3 rest,
        pkt.drop off.toNat = b0 :: b1 :: b2 :: b3 :: rest := by
      match hd : pkt.drop off.toNat with
      | b0 :: b1 :: b2 :: b3 :: rest => exact ⟨b0, b1, b2, b3, rest, rfl⟩
      | [] | [_] | [_, _] | [_, _, _] =>
        have hlen := congrArg List.length hd
        simp only [List.length_drop, List.length_cons, List.length_nil] at hlen
        omega
    rw [hb]
    rfl
  · rename_i h
    split
    · rename_i hd
      have hlen := congrArg List.length hd
      simp only [List.length_drop, List.length_cons] at hlen
      omega
    · rfl

theorem half_eq (hp : pkt.length < 2 ^ w) (off : UInt32) :
    (do
      let b ← try_ (getRange pkt off.toNat (← try_ (Usize.checkedAdd w off.toNat 2)))
      return fromBe2 (← index b 0) (← index b 1)) = try_ (half pkt off) := by
  rw [try_bind_try, getRange_checked hp, half]
  split
  · rename_i h
    obtain ⟨b0, b1, rest, hb⟩ : ∃ b0 b1 rest, pkt.drop off.toNat = b0 :: b1 :: rest := by
      match hd : pkt.drop off.toNat with
      | b0 :: b1 :: rest => exact ⟨b0, b1, rest, rfl⟩
      | [] | [_] =>
        have hlen := congrArg List.length hd
        simp only [List.length_drop, List.length_cons, List.length_nil] at hlen
        omega
    rw [hb]
    rfl
  · rename_i h
    split
    · rename_i hd
      have hlen := congrArg List.length hd
      simp only [List.length_drop, List.length_cons] at hlen
      omega
    · rfl

theorem byte_eq (pkt : Packet) (off : UInt32) :
    pkt[off.toNat]?.map UInt8.toUInt32 = byte pkt off := by
  rw [byte, ← List.head?_drop]
  cases pkt.drop off.toNat <;> rfl

theorem sizedLoad_eq (hp : pkt.length < 2 ^ w) (off : UInt32) (size : UInt16) :
    sizedLoad w pkt off size = try_ (Vm.sizedLoad pkt off size) := by
  unfold sizedLoad Vm.sizedLoad
  split
  · exact word_eq hp off
  · split
    · exact half_eq hp off
    · split
      · show (try_ pkt[off.toNat]? >>= fun b => pure b.toUInt32) = _
        rw [← byte_eq]
        cases pkt[off.toNat]? <;> rfl
      · rfl

theorem orStop_toOption {α : Type} (e : Stop) (o : Option α) : (orStop e o).toOption = o := by
  cases o <;> rfl

theorem loadA_eq (hp : pkt.length < 2 ^ w) (insn : Insn) (s : Regs) :
    loadA w pkt insn s = try_ (Vm.loadA pkt insn s).toOption := by
  unfold loadA Vm.loadA
  dsimp only
  split
  · rw [sizedLoad_eq hp, orStop_toOption]
  · split
    · rw [sizedLoad_eq hp, orStop_toOption]
    · split
      · rfl
      · split
        · rfl
        · split
          · rw [orStop_toOption]
          · rfl

theorem loadX_eq (pkt : Packet) (insn : Insn) (s : Regs) :
    loadX pkt insn s = try_ (Vm.loadX pkt insn s).toOption := by
  unfold loadX Vm.loadX
  dsimp only
  split
  · rw [← byte_eq]
    cases pkt[insn.k.toNat]? with
    | none => rfl
    | some b => exact mul_nibble b
  · split
    · rfl
    · split
      · rw [orStop_toOption]
      · split <;> rfl

theorem store_eq (s : Regs) (i v : UInt32) : store s i v = try_ (Vm.store s i v).toOption := by
  unfold store Vm.store
  split <;> rfl

theorem alu_eq (op : UInt16) (a v : UInt32) : alu op a v = try_ (Vm.alu op a v).toOption := by
  unfold alu Vm.alu
  split
  · rfl
  · split
    · rfl
    · split
      · rfl
      · split
        · split
          · rfl
          · exact div_eq a ‹_›
        · split
          · rfl
          · split
            · rfl
            · split
              · exact shl_eq a v
              · split
                · exact shr_eq a v
                · split
                  · rfl
                  · split <;> rfl

theorem taken_eq (op : UInt16) (a v : UInt32) :
    taken op a v = try_ (Vm.taken op a v).toOption := by
  unfold taken Vm.taken
  split
  · rfl
  · split
    · rfl
    · split
      · rfl
      · split <;> rfl

end Loads

/-- Where a move of the forward machine takes the loop. -/
def moved (w : Nat) (insn : Insn) (pc : Nat) : Move Slot Regs Bool → State ⊕ Bool
  | .next s => .inl ⟨s, pc + 1⟩
  | .jump .ja s => .inl ⟨s, Usize.wrappingAdd w (pc + 1) insn.k.toNat⟩
  | .jump k s => .inl ⟨s, pc + 1 + insn.off k⟩
  | .halt b => .inr b

/-- One turn does what the instruction does to the registers, never panics, and ends the run
where the instruction faults. -/
theorem turn_eq {w : Nat} {insns : List Insn} {pkt : Packet} {st : State} {insn : Insn}
    (hi : insns[st.pc]? = some insn) (hpc : st.pc + 256 < 2 ^ w) (hp : pkt.length < 2 ^ w) :
    turn w insns pkt st =
      try_ ((act pkt insn st.regs).toOption.map (moved w insn st.pc)) := by
  unfold turn act
  rw [hi, try_some_bind, add_eq (by omega), try_some_bind]
  dsimp only
  have hmap : ∀ {α : Type} (r : Except Stop α) (f : α → Regs) ,
      (try_ r.toOption >>= fun v => (pure (.inl ⟨f v, st.pc + 1⟩) : Try (State ⊕ Bool))) =
        try_ ((r.map fun v => (Move.next (f v) : Move Slot Regs Bool)).toOption.map
          (moved w insn st.pc)) := by
    intro α r f
    cases r <;> rfl
  -- The taken distance is a byte, so the addition has room.
  have hbranch : ∀ r : Except Stop Bool,
      (try_ r.toOption >>= fun b =>
        add w (st.pc + 1) (if b then insn.jt.toNat else insn.jf.toNat) >>= fun pc =>
          (pure (.inl ⟨st.regs, pc⟩) : Try (State ⊕ Bool))) =
        try_ ((r.map fun b => (Move.jump (if b then .jt else .jf) st.regs : Move Slot Regs Bool)
          ).toOption.map (moved w insn st.pc)) := by
    rintro (e | b)
    · rfl
    · have hjt := insn.jt.toNat_lt
      have hjf := insn.jf.toNat_lt
      show (add w _ _ >>= _) = _
      rw [add_eq (by split <;> omega)]
      cases b <;> rfl
  by_cases hld : insn.code &&& 0x07 = bpfLd
  · rw [if_pos hld, if_pos hld, loadA_eq hp]
    exact hmap _ _
  rw [if_neg hld, if_neg hld]
  by_cases hldx : insn.code &&& 0x07 = bpfLdx
  · rw [if_pos hldx, if_pos hldx, loadX_eq]
    exact hmap _ _
  rw [if_neg hldx, if_neg hldx]
  by_cases hst : insn.code &&& 0x07 = bpfSt
  · rw [if_pos hst, if_pos hst, store_eq]
    exact hmap _ id
  rw [if_neg hst, if_neg hst]
  by_cases hstx : insn.code &&& 0x07 = bpfStx
  · rw [if_pos hstx, if_pos hstx, store_eq]
    exact hmap _ id
  rw [if_neg hstx, if_neg hstx]
  by_cases halu : insn.code &&& 0x07 = bpfAlu
  · rw [if_pos halu, if_pos halu, alu_eq]
    exact hmap _ _
  rw [if_neg halu, if_neg halu]
  by_cases hjmp : insn.code &&& 0x07 = bpfJmp
  · rw [if_pos hjmp, if_pos hjmp]
    by_cases hja : insn.code &&& 0xf0 = bpfJa
    · rw [if_pos hja, if_pos hja]
      rfl
    · rw [if_neg hja, if_neg hja, taken_eq]
      exact hbranch _
  rw [if_neg hjmp, if_neg hjmp]
  by_cases hret : insn.code &&& 0x07 = bpfRet
  · rw [if_pos hret, if_pos hret]
    rfl
  rw [if_neg hret, if_neg hret]
  by_cases hmisc : insn.code &&& 0x07 = bpfMisc
  · rw [if_pos hmisc, if_pos hmisc]
    split <;> rfl
  rw [if_neg hmisc, if_neg hmisc]
  rfl

/-- What the language promises: the width of `usize`, and that no slice holds more than
`isize::MAX` bytes. An instruction takes eight. -/
structure Host (w : Nat) (insns : List Insn) (pkt : Packet) : Prop where
  width : w = 32 ∨ w = 64
  insns : 8 * insns.length < 2 ^ (w - 1)
  pkt : pkt.length < 2 ^ (w - 1)

/-- The states a run comes through. -/
inductive Reaches (w : Nat) (insns : List Insn) (pkt : Packet) : State → Prop where
  | start : Reaches w insns pkt .start
  | turn {st st' : State} (h : Reaches w insns pkt st)
      (ht : turn w insns pkt st = try_ (some (.inl st'))) : Reaches w insns pkt st'

/-- No unconditional jump that the run executes leads past the end of the address space. -/
def NoWrap (w : Nat) (insns : List Insn) (pkt : Packet) : Prop :=
  ∀ st insn, Reaches w insns pkt st → insns[st.pc]? = some insn →
    insn.code &&& 0x07 = bpfJmp → insn.code &&& 0xf0 = bpfJa → st.pc + 1 + insn.k.toNat < 2 ^ w

section Host

variable {w : Nat} {insns : List Insn} {pkt : Packet}

theorem Host.room (h : Host w insns pkt) {pc : Nat} (hpc : pc < insns.length) :
    pc + 256 < 2 ^ w := by
  have hi := h.insns
  rcases h.width with rfl | rfl <;> norm_num at hi ⊢ <;> omega

theorem Host.length_lt (h : Host w insns pkt) : insns.length < 2 ^ w := by
  have hi := h.insns
  rcases h.width with rfl | rfl <;> norm_num at hi ⊢ <;> omega

theorem Host.packet (h : Host w insns pkt) : pkt.length < 2 ^ w := by
  have hp := h.pkt
  rcases h.width with rfl | rfl <;> norm_num at hp ⊢ <;> omega

theorem Host.turn (h : Host w insns pkt) {st : State} {insn : Insn}
    (hi : insns[st.pc]? = some insn) : VmLoop.turn w insns pkt st =
      try_ ((act pkt insn st.regs).toOption.map (moved w insn st.pc)) :=
  turn_eq hi (h.room (List.getElem?_eq_some_iff.mp hi).1) h.packet

/-- With 64 bits no displacement reaches the end of the address space. -/
theorem Host.noWrap (h : Host 64 insns pkt) : NoWrap 64 insns pkt := by
  intro st insn _ hi _ _
  have hlt := (List.getElem?_eq_some_iff.mp hi).1
  have hk := insn.k.toNat_lt
  have hi := h.insns
  norm_num at hi ⊢
  omega

end Host

/-- What `inner` makes of the end of a run of the forward machine. -/
def verdict : Result Stop Regs Bool → Option Bool
  | .halt b => some b
  | _ => none

theorem inner_eq (insns : List Insn) (pkt : Packet) :
    Vm.inner insns pkt = verdict ((machine pkt).run insns 0 .start) := by
  unfold Vm.inner exec verdict
  cases (machine pkt).run insns 0 Regs.start <;> rfl

/-- A jump into or over the rest of the program. -/
theorem verdict_skip (insns : List Insn) (pkt : Packet) (pc n : Nat) (s : Regs) :
    verdict ((machine pkt).run (insns.drop pc) n s) =
      verdict ((machine pkt).run (insns.drop (pc + n)) 0 s) := by
  by_cases h : n ≤ (insns.drop pc).length
  · rw [(machine pkt).run_drop _ _ _ h, List.drop_drop]
  · have hd : insns.drop (pc + n) = [] := by
      rw [List.drop_eq_nil_iff]
      rw [List.length_drop] at h
      omega
    obtain ⟨d, rfl⟩ : ∃ d, n = (insns.drop pc).length + d := ⟨n - (insns.drop pc).length, by omega⟩
    rw [hd, Machine.run_past]
    rfl

section Runs

variable {w : Nat} {insns : List Insn} {pkt : Packet}

/-- Where a turn leads if no jump wraps: on in the forward machine. -/
theorem moved_forward {insn : Insn} {pc : Nat} {m : Move Slot Regs Bool}
    (hw : ∀ s, m = .jump .ja s → pc + 1 + insn.k.toNat < 2 ^ w) :
    moved w insn pc m = match m with
      | .next s => .inl ⟨s, pc + 1⟩
      | .jump k s => .inl ⟨s, pc + 1 + insn.off k⟩
      | .halt b => .inr b := by
  match m with
  | .next s => rfl
  | .halt b => rfl
  | .jump .jt s => rfl
  | .jump .jf s => rfl
  | .jump .ja s =>
    show (Sum.inl (⟨s, Usize.wrappingAdd w (pc + 1) insn.k.toNat⟩ : State) : State ⊕ Bool) = _
    rw [Usize.wrappingAdd_of_lt (hw s rfl)]
    rfl

/-- Only an unconditional jump takes the slot of one. -/
theorem act_ja {insn : Insn} {s s' : Regs} (h : act pkt insn s = .ok (.jump .ja s')) :
    insn.code &&& 0x07 = bpfJmp ∧ insn.code &&& 0xf0 = bpfJa := by
  have laws := Proofs.Optimizer.vm_laws pkt
  have ha : (machine pkt).act insn s = .ok (.jump .ja s') := h
  cases hja : Optimizer.isJa insn with
  | true => simpa [Optimizer.isJa] using hja
  | false =>
    cases hc : Optimizer.isCondJump insn with
    | true => rcases laws.cond insn s hc with ⟨e, he⟩ | ⟨t, he | he⟩ <;> simp [ha] at he
    | false =>
      cases hret : Optimizer.isRet insn with
      | true =>
        obtain ⟨v, hv⟩ := laws.ret insn s hret
        simp [ha] at hv
      | false => rcases laws.plain insn s hret hja hc with ⟨e, he⟩ | ⟨t, he⟩ <;> simp [ha] at he

/-- The loop computes the run of the forward machine, and executes at most one instruction
for every one that is left. -/
theorem runFor_forward (h : Host w insns pkt) (hw : NoWrap w insns pkt) (n : Nat) {st : State}
    (hr : Reaches w insns pkt st) (hn : insns.length ≤ st.pc + n) :
    runFor w insns pkt n st =
      .ended (verdict ((machine pkt).run (insns.drop st.pc) 0 st.regs)) := by
  induction n generalizing st with
  | zero =>
    have hd : insns.drop st.pc = [] := List.drop_eq_nil_iff.mpr hn
    rw [runFor, if_neg (by omega), hd]
    rfl
  | succ n ih =>
    rw [runFor]
    split
    · rename_i hlt
      have hi : insns[st.pc]? = some insns[st.pc] := List.getElem?_eq_getElem hlt
      have hd : insns.drop st.pc = insns[st.pc] :: insns.drop (st.pc + 1) :=
        List.drop_eq_getElem_cons hlt
      have ht := h.turn hi
      cases ha : act pkt insns[st.pc] st.regs with
      | error e =>
        rw [ha] at ht
        rw [hd, Machine.run_stop ha, ht]
        rfl
      | ok m =>
        have hm : moved w insns[st.pc] st.pc m = _ := moved_forward fun s hs => by
          subst hs
          exact hw st _ hr hi (act_ja ha).1 (act_ja ha).2
        rw [ha, Except.toOption, Option.map_some, hm] at ht
        cases m with
        | next s =>
          have hstep := ih (hr.turn ht) (by show _ ≤ st.pc + 1 + n; omega)
          rw [hd, Machine.run_next ha, ht]
          exact hstep
        | jump k s =>
          have hstep := ih (hr.turn ht) (by show _ ≤ st.pc + 1 + _ + n; omega)
          rw [hd, Machine.run_jump ha rfl, verdict_skip, ht]
          exact hstep
        | halt b =>
          rw [hd, Machine.run_halt ha, ht]
          rfl
    · have hd : insns.drop st.pc = [] := List.drop_eq_nil_iff.mpr (by omega)
      rw [hd]
      rfl

end Runs

/-- The bytes an access of this size reads. -/
def sizeBytes (size : UInt16) : Option Nat :=
  if size = bpfW then some 4 else if size = bpfH then some 2 else if size = bpfB then some 1 else none

/-- The instruction the run is at is malformed, or its load, scratch index or jump leads out of
the packet, the scratch memory or the program. -/
inductive Faulty (insns : List Insn) (pkt : Packet) (st : State) (insn : Insn) : Prop where
  | ldMode (hc : insn.code &&& 0x07 = bpfLd)
      (hm : insn.code &&& 0xe0 ∉ [bpfAbs, bpfInd, bpfLen, bpfImm, bpfMem])
  | ldSize (hc : insn.code &&& 0x07 = bpfLd) (hm : insn.code &&& 0xe0 ∈ [bpfAbs, bpfInd])
      (hs : sizeBytes (insn.code &&& 0x18) = none)
  | ldAbs (n : Nat) (hc : insn.code &&& 0x07 = bpfLd) (hm : insn.code &&& 0xe0 = bpfAbs)
      (hs : sizeBytes (insn.code &&& 0x18) = some n) (h : pkt.length < insn.k.toNat + n)
  | ldInd (n : Nat) (hc : insn.code &&& 0x07 = bpfLd) (hm : insn.code &&& 0xe0 = bpfInd)
      (hs : sizeBytes (insn.code &&& 0x18) = some n)
      (h : pkt.length < (st.regs.x.toNat + insn.k.toNat) % 2 ^ 32 + n)
  | ldMem (hc : insn.code &&& 0x07 = bpfLd) (hm : insn.code &&& 0xe0 = bpfMem)
      (h : 16 ≤ insn.k.toNat)
  | ldxMode (hc : insn.code &&& 0x07 = bpfLdx)
      (hs : ¬ (insn.code &&& 0x18 = bpfB ∧ insn.code &&& 0xe0 = bpfMsh))
      (hm : insn.code &&& 0xe0 ∉ [bpfImm, bpfMem, bpfLen])
  | ldxMsh (hc : insn.code &&& 0x07 = bpfLdx) (hs : insn.code &&& 0x18 = bpfB)
      (hm : insn.code &&& 0xe0 = bpfMsh) (h : pkt.length ≤ insn.k.toNat)
  | ldxMem (hc : insn.code &&& 0x07 = bpfLdx) (hm : insn.code &&& 0xe0 = bpfMem)
      (h : 16 ≤ insn.k.toNat)
  | store (hc : insn.code &&& 0x07 ∈ [bpfSt, bpfStx]) (h : 16 ≤ insn.k.toNat)
  | aluOp (hc : insn.code &&& 0x07 = bpfAlu) (ho : insn.code &&& 0xf0 ∉ [bpfAdd, bpfSub, bpfMul,
      bpfDiv, bpfOr, bpfAnd, bpfLsh, bpfRsh, bpfNeg, bpfXor])
  | jmpOp (hc : insn.code &&& 0x07 = bpfJmp)
      (ho : insn.code &&& 0xf0 ∉ [bpfJa, bpfJeq, bpfJgt, bpfJge, bpfJset])
  | ja (hc : insn.code &&& 0x07 = bpfJmp) (ho : insn.code &&& 0xf0 = bpfJa)
      (h : insns.length ≤ st.pc + 1 + insn.k.toNat)
  | branch (b : Bool) (hc : insn.code &&& 0x07 = bpfJmp) (ho : insn.code &&& 0xf0 ≠ bpfJa)
      (hb : Vm.taken (insn.code &&& 0xf0) st.regs.a
        (if usesX insn then st.regs.x else insn.k) = .ok b)
      (h : insns.length ≤ st.pc + 1 + (if b then insn.jt.toNat else insn.jf.toNat))

section Faults

variable {insns : List Insn} {pkt : Packet} {st : State} {insn : Insn}

theorem word_none {off : UInt32} (h : pkt.length < off.toNat + 4) : word pkt off = none := by
  unfold word
  split
  · rename_i hd
    have hlen := congrArg List.length hd
    simp only [List.length_drop, List.length_cons] at hlen
    omega
  · rfl

theorem half_none {off : UInt32} (h : pkt.length < off.toNat + 2) : half pkt off = none := by
  unfold half
  split
  · rename_i hd
    have hlen := congrArg List.length hd
    simp only [List.length_drop, List.length_cons] at hlen
    omega
  · rfl

theorem byte_none {off : UInt32} (h : pkt.length ≤ off.toNat) : byte pkt off = none := by
  rw [byte, List.drop_eq_nil_iff.mpr h]

/-- A load past the packet, or of no known size, gives nothing. -/
theorem sizedLoad_none {off : UInt32} {size : UInt16}
    (h : ∀ n, sizeBytes size = some n → pkt.length < off.toNat + n) :
    Vm.sizedLoad pkt off size = none := by
  unfold sizeBytes at h
  unfold Vm.sizedLoad
  by_cases hw : size = bpfW
  · rw [if_pos hw] at h ⊢
    exact word_none (h 4 rfl)
  rw [if_neg hw] at h ⊢
  by_cases hh : size = bpfH
  · rw [if_pos hh] at h ⊢
    exact half_none (h 2 rfl)
  rw [if_neg hh] at h ⊢
  by_cases hb : size = bpfB
  · rw [if_pos hb] at h ⊢
    exact byte_none (Nat.lt_succ_iff.mp (h 1 rfl))
  rw [if_neg hb]

theorem scratch_none {s : Regs} {k : UInt32} (h : 16 ≤ k.toNat) : s.scratch[k.toNat]? = none :=
  Vector.getElem?_eq_none h

theorem act_ld_error {e : Stop} (hc : insn.code &&& 0x07 = bpfLd)
    (h : Vm.loadA pkt insn st.regs = .error e) : act pkt insn st.regs = .error e := by
  simp only [act, hc, if_true, h]
  rfl

theorem act_ldx_error {e : Stop} (hc : insn.code &&& 0x07 = bpfLdx)
    (h : Vm.loadX pkt insn st.regs = .error e) : act pkt insn st.regs = .error e := by
  rw [act, hc, if_neg (by decide), if_pos rfl, h]
  rfl

theorem act_store_error (hc : insn.code &&& 0x07 ∈ [bpfSt, bpfStx]) (h : 16 ≤ insn.k.toNat) :
    Vm.act pkt insn st.regs = .error .scratchIndex := by
  have hstore : ∀ v, Vm.store st.regs insn.k v = .error .scratchIndex := fun v => dif_neg (by omega)
  simp only [List.mem_cons, List.not_mem_nil, or_false] at hc
  rcases hc with hc | hc
  · rw [Vm.act, hc, if_neg (by decide), if_neg (by decide), if_pos rfl, hstore]
    rfl
  · rw [Vm.act, hc, if_neg (by decide), if_neg (by decide), if_neg (by decide), if_pos rfl, hstore]
    rfl

theorem act_jmp (hc : insn.code &&& 0x07 = bpfJmp) : Vm.act pkt insn st.regs =
    if insn.code &&& 0xf0 = bpfJa then .ok (.jump .ja st.regs)
    else (Vm.taken (insn.code &&& 0xf0) st.regs.a
      (if usesX insn then st.regs.x else insn.k)).map
        (fun b => .jump (if b then .jt else .jf) st.regs) := by
  rw [Vm.act, hc, if_neg (by decide), if_neg (by decide), if_neg (by decide), if_neg (by decide),
    if_neg (by decide), if_pos rfl]

theorem alu_unknown {op : UInt16} {a v : UInt32} (h : op ∉ [bpfAdd, bpfSub, bpfMul, bpfDiv, bpfOr,
    bpfAnd, bpfLsh, bpfRsh, bpfNeg, bpfXor]) : Vm.alu op a v = .error .unknownOpcode := by
  simp only [List.mem_cons, List.not_mem_nil, or_false, not_or] at h
  obtain ⟨h₁, h₂, h₃, h₄, h₅, h₆, h₇, h₈, h₉, h₁₀⟩ := h
  simp only [Vm.alu, h₁, h₂, h₃, h₄, h₅, h₆, h₇, h₈, h₉, h₁₀, if_false]

theorem taken_unknown {op : UInt16} {a v : UInt32}
    (h : op ∉ [bpfJa, bpfJeq, bpfJgt, bpfJge, bpfJset]) :
    Vm.taken op a v = .error .unknownOpcode := by
  simp only [List.mem_cons, List.not_mem_nil, or_false, not_or] at h
  obtain ⟨-, h₁, h₂, h₃, h₄⟩ := h
  simp only [Vm.taken, h₁, h₂, h₃, h₄, if_false]

/-- A faulty instruction stops the forward machine, or jumps past the program. -/
theorem Faulty.act (h : Faulty insns pkt st insn) : (∃ e, Vm.act pkt insn st.regs = .error e) ∨
    ∃ k s, Vm.act pkt insn st.regs = .ok (.jump k s) ∧ insns.length ≤ st.pc + 1 + insn.off k := by
  cases h with
  | ldMode hc hm =>
    simp only [List.mem_cons, List.not_mem_nil, or_false, not_or] at hm
    obtain ⟨h₁, h₂, h₃, h₄, h₅⟩ := hm
    refine .inl ⟨.unknownOpcode, act_ld_error hc ?_⟩
    simp only [Vm.loadA, h₁, h₂, h₃, h₄, h₅, if_false]
  | ldSize hc hm hs =>
    have hnone : ∀ off, Vm.sizedLoad pkt off (insn.code &&& 0x18) = none := fun off =>
      sizedLoad_none fun n hn => by rw [hs] at hn; cases hn
    refine .inl ⟨.packetLoad, act_ld_error hc ?_⟩
    simp only [List.mem_cons, List.not_mem_nil, or_false] at hm
    rcases hm with hm | hm
    · rw [Vm.loadA, hm, if_pos rfl, hnone]
      rfl
    · rw [Vm.loadA, hm, if_neg (by decide), if_pos rfl, hnone]
      rfl
  | ldAbs n hc hm hs h =>
    refine .inl ⟨.packetLoad, act_ld_error hc ?_⟩
    rw [Vm.loadA, hm, if_pos rfl, sizedLoad_none fun m hsm => ?_]
    · rfl
    · cases hs.symm.trans hsm
      exact h
  | ldInd n hc hm hs h =>
    refine .inl ⟨.packetLoad, act_ld_error hc ?_⟩
    rw [Vm.loadA, hm, if_neg (by decide), if_pos rfl, sizedLoad_none fun m hsm => ?_]
    · rfl
    · cases hs.symm.trans hsm
      rw [UInt32.toNat_add]
      exact h
  | ldMem hc hm h =>
    refine .inl ⟨.scratchIndex, act_ld_error hc ?_⟩
    rw [Vm.loadA, hm, if_neg (by decide), if_neg (by decide), if_neg (by decide),
      if_neg (by decide), if_pos rfl, scratch_none h]
    rfl
  | ldxMode hc hs hm =>
    simp only [List.mem_cons, List.not_mem_nil, or_false, not_or] at hm
    obtain ⟨h₁, h₂, h₃⟩ := hm
    refine .inl ⟨.unknownOpcode, act_ldx_error hc ?_⟩
    simp only [Vm.loadX, hs, h₁, h₂, h₃, if_false]
  | ldxMsh hc hs hm h =>
    refine .inl ⟨.packetLoad, act_ldx_error hc ?_⟩
    rw [Vm.loadX, if_pos ⟨hs, hm⟩, byte_none h]
    rfl
  | ldxMem hc hm h =>
    refine .inl ⟨.scratchIndex, act_ldx_error hc ?_⟩
    rw [Vm.loadX, hm, if_neg (fun hn => absurd hn.2 (by decide)), if_neg (by decide), if_pos rfl,
      scratch_none h]
    rfl
  | store hc h => exact .inl ⟨.scratchIndex, act_store_error hc h⟩
  | aluOp hc ho =>
    refine .inl ⟨.unknownOpcode, ?_⟩
    rw [Vm.act, hc, if_neg (by decide), if_neg (by decide), if_neg (by decide),
      if_neg (by decide), if_pos rfl, alu_unknown ho]
    rfl
  | jmpOp hc ho =>
    refine .inl ⟨.unknownOpcode, ?_⟩
    rw [act_jmp hc, if_neg (fun hja => ho (by simp [hja])), taken_unknown ho]
    rfl
  | ja hc ho h => exact .inr ⟨.ja, st.regs, by rw [act_jmp hc, if_pos ho], h⟩
  | branch b hc ho hb h =>
    refine .inr ⟨if b then .jt else .jf, st.regs, by rw [act_jmp hc, if_neg ho, hb]; rfl, ?_⟩
    cases b <;> exact h

end Faults

/-- What `run` promises of one program and packet: it ends, having executed no more
instructions than the program has and without a panic, and every faulty instruction ends it at
once with `None`, which `run` turns into `false`. -/
structure Total (w : Nat) (insns : List Insn) (pkt : Packet) : Prop where
  ends : ∃ r, runFor w insns pkt insns.length .start = .ended r
  faults : ∀ st insn, Reaches w insns pkt st → insns[st.pc]? = some insn →
    Faulty insns pkt st insn → runFor w insns pkt 1 st = .ended none

section Total

variable {w : Nat} {insns : List Insn} {pkt : Packet}

theorem runFor_past {n : Nat} {st : State} (h : insns.length ≤ st.pc) :
    runFor w insns pkt n st = .ended none := by
  unfold runFor
  rw [if_neg (by omega)]

theorem runFor_zero {st : State} (h : st.pc < insns.length) :
    runFor w insns pkt 0 st = .running st := by
  unfold runFor
  rw [if_pos h]

theorem runFor_one {st st' : State} (hlt : st.pc < insns.length)
    (ht : turn w insns pkt st = try_ (some (.inl st'))) :
    runFor w insns pkt 1 st = runFor w insns pkt 0 st' := by
  conv_lhs => rw [runFor, if_pos hlt, ht]
  rfl

/-- A jump that does not wrap leads past the program if it should. -/
theorem faulty_ends (h : Host w insns pkt) (hw : NoWrap w insns pkt) {st : State} {insn : Insn}
    (hr : Reaches w insns pkt st) (hi : insns[st.pc]? = some insn)
    (hf : Faulty insns pkt st insn) : runFor w insns pkt 1 st = .ended none := by
  have hlt := (List.getElem?_eq_some_iff.mp hi).1
  have ht := h.turn hi
  rcases hf.act with ⟨e, he⟩ | ⟨k, s, hk, hpast⟩
  · rw [he] at ht
    rw [runFor, if_pos hlt, ht]
    rfl
  · have hm := @moved_forward w insn st.pc (.jump k s) fun t hs => by
      cases hs
      exact hw st insn hr hi (act_ja hk).1 (act_ja hk).2
    rw [hk, Except.toOption, Option.map_some, hm] at ht
    rw [runFor_one hlt ht]
    exact runFor_past hpast

/-- The VM is total on a program and a packet exactly if no unconditional jump that the run
executes wraps around the address space. -/
theorem total_iff (h : Host w insns pkt) : Total w insns pkt ↔ NoWrap w insns pkt := by
  constructor
  · intro ht st insn hr hi hc ho
    have hlt := (List.getElem?_eq_some_iff.mp hi).1
    by_contra hwrap
    have hk := insn.k.toNat_lt
    have hroom := h.room hlt
    have hbig : 2 ^ 32 ≤ 2 ^ w := by
      rcases h.width with rfl | rfl <;> norm_num
    have hback : Usize.wrappingAdd w (st.pc + 1) insn.k.toNat = st.pc + 1 + insn.k.toNat - 2 ^ w :=
      Usize.wrappingAdd_of_le (by omega) (by omega) (by omega)
    have hturn : turn w insns pkt st =
        try_ (some (.inl ⟨st.regs, Usize.wrappingAdd w (st.pc + 1) insn.k.toNat⟩)) := by
      rw [h.turn hi, act_jmp hc, if_pos ho]
      rfl
    have hlen := h.length_lt
    have hend := ht.faults st insn hr hi (.ja hc ho (by omega))
    -- The jump wraps back into the program, so the run goes on there.
    have hinside : Usize.wrappingAdd w (st.pc + 1) insn.k.toNat < insns.length := by omega
    rw [runFor_one hlt hturn, runFor_zero hinside] at hend
    cases hend
  · intro hw
    refine ⟨⟨_, runFor_forward h hw insns.length .start (Nat.le_add_left _ _)⟩, ?_⟩
    intro st insn hr hi hf
    exact faulty_ends h hw hr hi hf

end Total

/-- With 64 bits the same jump ends the run. -/
theorem total_ja_max : Total 64 [.ja 0xffffffff] [] := by
  have h : Host 64 [.ja 0xffffffff] [] := ⟨.inr rfl, by norm_num, by norm_num⟩
  exact (total_iff h).mpr h.noWrap

/-- A jump by the largest displacement, with 32 bits. -/
theorem ja_max_turn : turn 32 [.ja 0xffffffff] [] .start = try_ (some (.inl .start)) := rfl

/-- It leads back to itself, and the run executes any number of instructions. -/
theorem ja_max_runs : Host 32 [.ja 0xffffffff] [] ∧
    ∀ n, runFor 32 [.ja 0xffffffff] [] n .start = .running .start := by
  refine ⟨⟨.inl rfl, by decide, by decide⟩, fun n => ?_⟩
  induction n with
  | zero => rfl
  | succ n ih =>
    rw [runFor, if_pos (by decide), ja_max_turn]
    exact ih

end PktBaffle.VmLoop
