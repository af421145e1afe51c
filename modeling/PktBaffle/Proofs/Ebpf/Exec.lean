import PktBaffle.Proofs.Ebpf.Compile

namespace PktBaffle.Proofs.Ebpf
open PktBaffle.Ebpf Forward Interp PktBaffle.Extended
open Vm (Packet fromBe2 fromBe4)
open PktBaffle.Classic (LinkType)

/-- A fault without the place where it happened. -/
def kind : Fault → Fault
  | .unknownOpcode _ code => .unknownOpcode 0 code
  | .badRegister _ => .badRegister 0
  | .writeToR10 _ => .writeToR10 0
  | .uninitRegister _ reg => .uninitRegister 0 reg
  | .outOfBounds _ addr size => .outOfBounds 0 addr size
  | .badCtxAccess _ addr size => .badCtxAccess 0 addr size
  | .jumpOutOfRange _ => .jumpOutOfRange 0
  | .pcOutOfRange _ => .pcOutOfRange 0
  | .divByZero _ => .divByZero 0
  | .badShift _ => .badShift 0
  | .badEndWidth _ imm => .badEndWidth 0 imm
  | .badReturn r0 => .badReturn r0
  | .stepLimit => .stepLimit

/-- The fault as it would be at `q`. -/
def relocate (q : Nat) : Fault → Fault
  | .unknownOpcode _ code => .unknownOpcode q code
  | .badRegister _ => .badRegister q
  | .writeToR10 _ => .writeToR10 q
  | .uninitRegister _ reg => .uninitRegister q reg
  | .outOfBounds _ addr size => .outOfBounds q addr size
  | .badCtxAccess _ addr size => .badCtxAccess q addr size
  | .jumpOutOfRange _ => .jumpOutOfRange q
  | .pcOutOfRange _ => .pcOutOfRange q
  | .divByZero _ => .divByZero q
  | .badShift _ => .badShift q
  | .badEndWidth _ imm => .badEndWidth q imm
  | .badReturn r0 => .badReturn r0
  | .stepLimit => .stepLimit

theorem kind_eq : kind = relocate 0 := by
  funext e
  cases e <;> rfl

section Place

variable {α β : Type} {g : Fault → Fault}

@[simp] theorem mapError_bind (x : Except Fault α) (f : α → Except Fault β) :
    (x >>= f).mapError g = (x.mapError g >>= fun a => (f a).mapError g) := by
  cases x <;> rfl

@[simp] theorem mapError_map (x : Except Fault α) (f : α → β) :
    (x.map f).mapError g = (x.mapError g).map f := by
  cases x <;> rfl

@[simp] theorem mapError_functor (x : Except Fault α) (f : α → β) :
    (f <$> x).mapError g = f <$> x.mapError g := by
  cases x <;> rfl

@[simp] theorem mapError_ok (a : α) : (Except.ok a : Except Fault α).mapError g = .ok a := rfl

@[simp] theorem mapError_pure (a : α) :
    (pure a : Except Fault α).mapError g = pure a := rfl

@[simp] theorem mapError_error (e : Fault) :
    (Except.error e : Except Fault α).mapError g = .error (g e) := rfl

@[simp] theorem mapError_throw (e : Fault) :
    (throw e : Except Fault α).mapError g = throw (g e) := rfl

theorem mapError_ite {p : Prop} [Decidable p] (x y : Except Fault α) :
    (if p then x else y).mapError g = if p then x.mapError g else y.mapError g := by
  split <;> rfl

variable (q : Nat) (pkt : Packet) (host : Endian) (pc : Nat)

@[simp] theorem rd_place (s : Regs) (r : Fin 11) :
    (s.rd r pc).mapError (relocate q) = s.rd r q := by
  unfold Regs.rd
  split <;> rfl

@[simp] theorem wr_place (s : Regs) (r : Fin 11) (x : UInt64) :
    (s.wr r x pc).mapError (relocate q) = s.wr r x q := by
  unfold Regs.wr
  split <;> rfl

@[simp] theorem load_place (ctx : List UInt8) (addr : UInt64) (size : Nat) :
    (load ctx pkt addr size pc).mapError (relocate q) = load ctx pkt addr size q := by
  simp only [load, mapError_ite, mapError_error, mapError_ok, relocate]

@[simp] theorem shift_place (is64 : Bool) (s : UInt64) :
    (shift is64 s pc).mapError (relocate q) = shift is64 s q := by
  simp only [shift, mapError_ite, mapError_error, mapError_ok, relocate]

@[simp] theorem endian_place (imm : Int32) (swap : Bool) (v : UInt64) :
    (endian imm swap v pc).mapError (relocate q) = endian imm swap v q := by
  simp only [endian, mapError_ite, mapError_error, mapError_ok, relocate]

@[simp] theorem alu_place (is64 : Bool) (op : UInt8) (d s : UInt64) (code : UInt8) :
    (alu is64 op d s pc code).mapError (relocate q) = alu is64 op d s q code := by
  simp only [alu, mapError_ite, mapError_error, mapError_ok, mapError_map, shift_place, relocate]

theorem actLdx_place (i : Insn) (d r : Fin 11) (s : Regs) :
    (actLdx pkt host pc i d r s).mapError (relocate q) = actLdx pkt host q i d r s := by
  simp [actLdx, mapError_ite, relocate]

theorem actAlu_place (i : Insn) (d r : Fin 11) (s : Regs) :
    (actAlu host pc i d r s).mapError (relocate q) = actAlu host q i d r s := by
  simp [actAlu, mapError_ite, relocate]

theorem actJmp_place (i : Insn) (d r : Fin 11) (s : Regs) :
    (actJmp pc i d r s).mapError (relocate q) = actJmp q i d r s := by
  simp [actJmp, mapError_ite, relocate]

/-- An instruction does the same everywhere; only its fault says where it was. -/
theorem act_relocate (i : Insn) (s : Regs) :
    (act pkt host pc i s).mapError (relocate q) = act pkt host q i s := by
  unfold act
  split
  · simp only [mapError_ite, actLdx_place, actAlu_place, actJmp_place, mapError_error, relocate]
  · rfl

theorem act_place (i : Insn) (s : Regs) :
    (act pkt host pc i s).mapError kind = act pkt host 0 i s := by
  rw [kind_eq]
  exact act_relocate 0 pkt host pc i s

end Place

section Put

variable {pkt : Packet} {host : Endian} {pc : Nat} {i : Insn} {s s' : Regs}

/-- Only loads look at the displacement. -/
theorem act_put (h : i.code &&& 0x07 = bpfJmp) (k : Unit) (n : Nat) :
    act pkt host pc (i.put k n) s = act pkt host pc i s := by
  have hcode : (i.put k n).code = i.code := rfl
  have hl : ¬bpfJmp = bpfLdx := by decide
  unfold act
  simp only [hcode, h, hl, if_false]
  rfl

theorem actLdx_next {d q : Fin 11} {m : Move Unit Regs UInt64}
    (h : actLdx pkt host pc i d q s = .ok m) : ∃ s', m = .next s' := by
  unfold actLdx at h
  by_cases hm : i.code &&& 0xe0 = bpfMem
  · simp only [hm, ne_eq, not_true, if_false] at h
    cases hr : s.rd q pc with
    | error e =>
      rw [hr] at h
      cases h
    | ok v =>
      rw [hr] at h
      change ((load _ pkt (v + sext i.off.toInt) _ pc) >>= _) = _ at h
      cases hb : load (context pkt host) pkt (v + sext i.off.toInt) (accessSize i.code) pc with
      | error e =>
        rw [hb] at h
        cases h
      | ok bytes =>
        rw [hb] at h
        change (s.wr d (host.read bytes) pc >>= _) = _ at h
        cases hw : s.wr d (host.read bytes) pc with
        | error e =>
          rw [hw] at h
          cases h
        | ok s₁ =>
          rw [hw] at h
          exact ⟨s₁, (Except.ok.inj h).symm⟩
  · simp only [hm, ne_eq, not_false_iff, if_true] at h
    cases h

/-- The displacement of a jump that is taken counts forward. -/
theorem jump_forward (h : Straight i) (ha : act pkt host pc i s = .ok (.jump () s')) :
    0 ≤ i.off.toInt := by
  rcases h with h | h
  · unfold act at ha
    split at ha
    · simp only [h, if_true] at ha
      obtain ⟨s₁, he⟩ := actLdx_next ha
      cases he
    · cases ha
  · rw [h]
    decide

theorem put_off {n : Nat} (h : n ≤ 32767) (k : Unit) : (i.put k n).off.toInt = n :=
  Int16.toInt_ofNat_of_lt (by omega)

end Put

section Link

variable {pkt : Packet} {host : Endian} {c : Code}

/-- The finished instructions run as their cells do. -/
theorem run_raw (h : Finished c) (n : Nat) (s : Regs) :
    (machine pkt host).run (c.map (Cell.raw Insn.put)) n s = (machine pkt host).cells.run c n s := by
  refine Machine.run_map _ _ (Cell.raw Insn.put) c (fun a ha s => ?_) n s
  obtain ⟨i, _ | ⟨k, t | x⟩⟩ := a
  · exact ⟨rfl, fun k s' _ => rfl⟩
  · have hj := h.tidy.jumps _ ha (by simp)
    have ht := h.tidy.within _ ha k t rfl
    refine ⟨act_put hj k t, fun k' s' _ => ?_⟩
    show Target.skip (i.put k t).off.toInt.toNat = _
    rw [put_off ht]
    simp [Machine.cells]
  · exact absurd rfl (h.filled _ ha k x)

/-- Every jump that is taken goes forward. -/
def Forwards (pkt : Packet) (host : Endian) (is : List Insn) : Prop :=
  ∀ i ∈ is, ∀ pc s s', act pkt host pc i s = .ok (.jump () s') → 0 ≤ i.off.toInt

theorem Finished.forwards (h : Finished c) :
    Forwards pkt host (c.map (Cell.raw Insn.put)) := by
  intro i hi pc s s' ha
  obtain ⟨a, hm, rfl⟩ := List.mem_map.mp hi
  obtain ⟨i, _ | ⟨k, t | x⟩⟩ := a
  · exact jump_forward (h.tidy.straight _ hm rfl) ha
  · have hoff : (Cell.raw Insn.put ⟨i, some (k, .skip t)⟩).off.toInt = t :=
      put_off (h.tidy.within _ hm k t rfl) k
    rw [hoff]
    omega
  · exact absurd rfl (h.filled _ hm k x)

end Link

section Exec

variable {pkt : Packet} {host : Endian} {pre is : List Insn}

/-- How the loop of the interpreter ends where the run of the machine ends. -/
def Agrees (x : Except Fault UInt64) : Result Fault Regs UInt64 → Prop
  | .halt r => x = .ok r
  | .stop e => ∃ f, x = .error f ∧ kind f = e
  | _ => True

/-- The interpreter follows the machine; a turn for every instruction is enough. -/
theorem exec_agrees (hf : Forwards pkt host is) (n limit : Nat) (s : Regs)
    (hl : is.length ≤ limit + n) :
    Agrees (execFrom pkt host (pre ++ is) limit (pre.length + n) s)
      ((machine pkt host).run is n s) := by
  induction is generalizing pre n limit s with
  | nil =>
    rw [Machine.run_nil]
    trivial
  | cons i is ih =>
    have ih' := fun n limit s => @ih (pre ++ [i]) (fun j hj => hf j (List.mem_cons_of_mem _ hj))
      n limit s
    simp only [List.length_cons] at hl
    cases n with
    | succ n =>
      have := ih' n limit s (by omega)
      simpa [Nat.add_assoc, Nat.add_comm 1] using this
    | zero =>
      obtain ⟨limit, rfl⟩ : ∃ l, limit = l + 1 := ⟨limit - 1, by omega⟩
      have hget : (pre ++ i :: is)[pre.length + 0]? = some i := by simp
      have hm : (machine pkt host).act i s =
          (act pkt host (pre.length + 0) i s).mapError kind := (act_place pkt host _ i s).symm
      rw [execFrom, hget, Machine.run_cons, hm]
      dsimp only
      cases ha : act pkt host (pre.length + 0) i s with
      | error e => exact ⟨e, rfl, rfl⟩
      | ok m =>
        cases m with
        | halt r => rfl
        | next s' => simpa using ih' 0 limit s' (by omega)
        | jump k s' =>
          have hfw := hf i List.mem_cons_self _ _ _ ha
          show Agrees (if _ then _ else _) ((machine pkt host).run is i.off.toInt.toNat s')
          by_cases hin : i.off.toInt.toNat < is.length
          · rw [if_neg (by simp only [List.length_append, List.length_cons]; omega)]
            have ht : ((pre.length + 0 : Nat) + 1 + i.off.toInt : Int).toNat =
                (pre ++ [i]).length + i.off.toInt.toNat := by
              simp only [List.length_append, List.length_singleton]
              omega
            rw [ht]
            simpa using ih' i.off.toInt.toNat limit s' (by omega)
          · have hpast := (machine pkt host).run_past is (i.off.toInt.toNat - is.length) s'
            rw [show is.length + (i.off.toInt.toNat - is.length) = i.off.toInt.toNat by omega]
              at hpast
            rw [hpast]
            trivial

end Exec

end PktBaffle.Proofs.Ebpf
