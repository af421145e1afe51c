import PktBaffle.Lib
import PktBaffle.Proofs.Classic.Link
import PktBaffle.Proofs.RawIp

namespace PktBaffle.Proofs.Operands
open Forward
open PktBaffle.Classic (LinkType HoistMode)

/-- What the checkers of the kernel ask of the constant of an ALU instruction: a shift is below
the 32 bits of the value, and a divisor is not zero. -/
def constantOk (op : Nat) (k : UInt32) : Bool :=
  if op = 0x60 ∨ op = 0x70 then k < 32 else if op = 0x30 ∨ op = 0x90 then k ≠ 0 else true

def classicOk (i : Bpf.Insn) : Bool :=
  if i.code &&& 0x0f = Bpf.bpfAlu ||| Bpf.bpfK then constantOk (i.code &&& 0xf0).toNat i.k else true

def extendedOk (i : Ebpf.Insn) : Bool :=
  if i.code &&& 0x0f = Ebpf.bpfAlu ||| Ebpf.bpfK ∨ i.code &&& 0x0f = Ebpf.bpfAlu64 ||| Ebpf.bpfK then
    constantOk (i.code &&& 0xf0).toNat i.imm.toUInt32
  else true

/-- The kernel accepts the constant operands of the program. -/
def Accepted : Lib.Program → Prop
  | .classic insns => ∀ i ∈ insns, classicOk i = true
  | .extended insns => ∀ i ∈ insns, extendedOk i = true

/-- The operand a step of a byte access needs is one the kernel accepts. -/
def stepOk : ArithOp × UInt32 → Bool
  | (.shl, k) | (.shr, k) => k < 32
  | (.div, k) | (.mod, k) => k ≠ 0
  | _ => true

/-- The step is no shift by 32 bits or more. -/
def shiftOk : ArithOp × UInt32 → Bool
  | (.shl, k) | (.shr, k) => k < 32
  | _ => true

/-- The arithmetic of a primitive. -/
def steps : Primitive → List (ArithOp × UInt32)
  | .byteAccess ba => ba.aluOps
  | _ => []

/-- Every operand the filter needs is one the kernel accepts. -/
def NeedsAccepted (e : Expr) : Prop := ∀ p ∈ e.leaves, ∀ s ∈ steps p, stepOk s = true

/-- Every constant shift of the filter is below 32. -/
def ShiftsSmall (e : Expr) : Prop := ∀ p ∈ e.leaves, ∀ s ∈ steps p, shiftOk s = true

/-- Whatever program is emitted has only operands the kernel accepts, and a filter that needs
another one is refused. -/
structure KernelReady (filter : String) (link : LinkType) (target : Lib.Target) : Prop where
  emitted : ∀ prog, Lib.compile filter link target = .ok prog → Accepted prog
  refused : ∀ e, Lib.parse filter = .ok e → ¬NeedsAccepted e →
    ∃ err, Lib.compile filter link target = .error err

section Classic

open Bpf PktBaffle.Classic PktBaffle.Proofs.Classic PktBaffle.Optimizer
  PktBaffle.Proofs.Optimizer

/-- Every instruction of the code has a constant the kernel accepts. -/
def Clean (c : Code) : Prop := ∀ a ∈ c, classicOk a.insn = true

theorem clean_blind : Blind (fun a : Cell Insn Slot => classicOk a.insn = true) where
  fill a x n h := by rwa [Cell.fill_insn]
  fold a h := by rwa [Cell.fold_insn]

@[simp] theorem clean_nil : Clean [] := fun _ h => absurd h List.not_mem_nil

@[simp] theorem clean_cons {a : Cell Insn Slot} {c : Code} :
    Clean (a :: c) ↔ classicOk a.insn = true ∧ Clean c := List.forall_mem_cons

@[simp] theorem clean_append {c d : Code} : Clean (c ++ d) ↔ Clean c ∧ Clean d :=
  List.forall_mem_append

theorem clean_ops {l : List Insn} (h : ∀ i ∈ l, classicOk i = true) : Clean (ops l) := by
  intro a ha
  obtain ⟨i, hi, rfl⟩ := List.mem_map.mp ha
  exact h i hi

/-- Only a shift and a division have an operand to check. -/
def harmless (code : UInt16) : Bool :=
  code &&& 0x0f != bpfAlu ||| bpfK || !([0x30, 0x60, 0x70, 0x90].contains (code &&& 0xf0))

theorem classicOk_of_code {i : Insn} (h : harmless i.code = true) : classicOk i = true := by
  simp only [harmless, Bool.or_eq_true, bne_iff_ne, ne_eq, Bool.not_eq_true', List.contains_eq_mem,
    decide_eq_false_iff_not, List.mem_cons, List.not_mem_nil, or_false, not_or] at h
  unfold classicOk
  split
  · rename_i hc
    obtain ⟨h1, h2, h3, h4⟩ := h.resolve_left (not_not_intro hc)
    have far : ∀ op : UInt16, i.code &&& 0xf0 ≠ op → (i.code &&& 0xf0).toNat ≠ op.toNat :=
      fun op hne he => hne (UInt16.toNat_inj.mp he)
    have hs : ¬((i.code &&& 0xf0).toNat = 0x60 ∨ (i.code &&& 0xf0).toNat = 0x70) :=
      not_or.mpr ⟨far 0x60 h2, far 0x70 h3⟩
    have hd : ¬((i.code &&& 0xf0).toNat = 0x30 ∨ (i.code &&& 0xf0).toNat = 0x90) :=
      not_or.mpr ⟨far 0x30 h1, far 0x90 h4⟩
    rw [constantOk, if_neg hs, if_neg hd]
  · rfl

section Codes

variable (k : UInt32) (t f : UInt8)

@[simp] theorem classicOk_ldwAbs : classicOk (.ldwAbs k) = true :=
  classicOk_of_code (by simp +decide only [Insn.ldwAbs])

@[simp] theorem classicOk_ldhAbs : classicOk (.ldhAbs k) = true :=
  classicOk_of_code (by simp +decide only [Insn.ldhAbs])

@[simp] theorem classicOk_ldbAbs : classicOk (.ldbAbs k) = true :=
  classicOk_of_code (by simp +decide only [Insn.ldbAbs])

@[simp] theorem classicOk_ldhInd : classicOk (.ldhInd k) = true :=
  classicOk_of_code (by simp +decide only [Insn.ldhInd])

@[simp] theorem classicOk_ldxMsh : classicOk (.ldxMsh k) = true :=
  classicOk_of_code (by simp +decide only [Insn.ldxMsh])

@[simp] theorem classicOk_ldxImm : classicOk (.ldxImm k) = true :=
  classicOk_of_code (by simp +decide only [Insn.ldxImm])

@[simp] theorem classicOk_andK : classicOk (.andK k) = true :=
  classicOk_of_code (by simp +decide only [Insn.andK])

@[simp] theorem classicOk_jeqK : classicOk (.jeqK k t f) = true :=
  classicOk_of_code (by simp +decide only [Insn.jeqK])

@[simp] theorem classicOk_jsetK : classicOk (.jsetK k t f) = true :=
  classicOk_of_code (by simp +decide only [Insn.jsetK])

@[simp] theorem classicOk_jgeK : classicOk (.jgeK k t f) = true :=
  classicOk_of_code (by simp +decide only [Insn.jgeK])

@[simp] theorem classicOk_jgtK : classicOk (.jgtK k t f) = true :=
  classicOk_of_code (by simp +decide only [Insn.jgtK])

@[simp] theorem classicOk_ja : classicOk (.ja k) = true :=
  classicOk_of_code (by simp +decide only [Insn.ja])

@[simp] theorem classicOk_retK : classicOk (.retK k) = true :=
  classicOk_of_code (by simp +decide only [Insn.retK])

@[simp] theorem classicOk_jeqFail : classicOk (jeqFail k).insn = true := classicOk_jeqK ..

theorem classicOk_sized (off : Nat) (size : AccessSize) (ind : Bool) :
    classicOk (sizedInsn off size ind) = true := by
  refine classicOk_of_code ?_
  cases size <;> cases ind <;>
    simp +decide only [sizedInsn, Insn.ldbAbs, Insn.ldhAbs, Insn.ldwAbs, Insn.ldbInd,
      Insn.ldhInd, Insn.ldwInd]

theorem classicOk_cmp (op : CmpOp) : classicOk (cmpCell (cmpInsn op k)).insn = true := by
  refine classicOk_of_code ?_
  cases op <;> simp +decide only [cmpCell, cmpInsn, Cell.hole, Insn.jeqK, Insn.jgtK, Insn.jgeK,
    Insn.jsetK]

theorem classicOk_cmpX (op : CmpOp) : classicOk (cmpCell (cmpXInsn op)).insn = true := by
  refine classicOk_of_code ?_
  cases op <;> decide

end Codes

theorem classicOk_shift {i : Insn} (h : i.code &&& 0x0f = bpfAlu ||| bpfK)
    (hop : (i.code &&& 0xf0).toNat = 0x60 ∨ (i.code &&& 0xf0).toNat = 0x70) :
    classicOk i = decide (i.k < 32) := by
  rw [classicOk, if_pos h, constantOk, if_pos hop]

theorem classicOk_div (k : UInt32) : classicOk (.divK k) = decide (k ≠ 0) := by
  rw [classicOk, if_pos (by simp +decide only [Insn.divK]), constantOk,
    if_neg (by simp +decide only [Insn.divK]), if_pos (by simp +decide only [Insn.divK])]
  rfl

theorem aluInsn_ok {s : ArithOp × UInt32} {i : Insn} (h : aluInsn s.1 s.2 = .ok i) :
    classicOk i = stepOk s := by
  obtain ⟨op, k⟩ := s
  cases op with
  | div =>
    simp only [aluInsn] at h
    split at h
    · cases h
    · cases h
      exact classicOk_div k
  | mod => cases h
  | shl =>
    cases h
    exact classicOk_shift (by simp +decide only [Insn.lshK]) (by simp +decide only [Insn.lshK])
  | shr =>
    cases h
    exact classicOk_shift (by simp +decide only [Insn.rshK]) (by simp +decide only [Insn.rshK])
  | _ =>
    cases h
    exact classicOk_of_code (by simp +decide only [Insn.andK, Insn.orK, Insn.xorK, Insn.addK,
      Insn.subK, Insn.mulK])

theorem mem_aluCode {steps : List (ArithOp × UInt32)} {i : Insn} (h : i ∈ aluCode steps) :
    ∃ s ∈ steps, aluInsn s.1 s.2 = .ok i := by
  obtain ⟨s, hs, ho⟩ := List.mem_filterMap.mp h
  refine ⟨s, hs, ?_⟩
  cases hi : aluInsn s.1 s.2 with
  | error e => simp [hi, Except.toOption] at ho
  | ok j =>
    simp only [hi, Except.toOption, Option.some.injEq] at ho
    rw [ho]

theorem clean_aluCode {steps : List (ArithOp × UInt32)} (h : ∀ s ∈ steps, stepOk s = true) :
    ∀ i ∈ aluCode steps, classicOk i = true := by
  intro i hi
  obtain ⟨s, hs, ho⟩ := mem_aluCode hi
  rw [aluInsn_ok ho]
  exact h s hs

section Bodies

theorem clean_test {load : Insn} (h : classicOk load = true) (k : UInt32) : Clean (test load k) := by
  simp [test, h]

theorem clean_addrCode {l : Nat → List Insn} (h : ∀ off, ∀ i ∈ l off, classicOk i = true)
    (k : UInt32) (src dst : Nat) (dir : Dir) : Clean (addrCode l k src dst dir) := by
  cases dir <;> simp [addrCode, clean_ops (h _), Cell.hole]

theorem clean_alt {c d : Code} (hc : Clean c) (hd : Clean d) :
    Clean (Frag.alt Piece.jaCell c d) :=
  clean_blind.alt (fun _ => classicOk_ja 0) hc hd

theorem clean_bothCode {check : Nat → Code} (h : ∀ off, Clean (check off))
    (src dst first second : Nat) (dir : Dir) : Clean (bothCode check src dst first second dir) := by
  cases dir with
  | src => exact h _
  | dst => exact h _
  | srcAndDst => exact clean_append.mpr ⟨h _, h _⟩
  | srcOrDst => exact clean_alt (h _) (h _)

theorem clean_segsCode (off i : Nat) (segs : List UInt16) : Clean (segsCode off i segs) := by
  induction segs generalizing i with
  | nil => exact clean_nil
  | cons seg segs ih => exact clean_append.mpr ⟨clean_test (by simp) _, ih _⟩

theorem clean_net6Code (len off i : Nat) (segs : List UInt16) :
    Clean (net6Code len off i segs) := by
  induction segs generalizing i with
  | nil => exact clean_nil
  | cons seg segs ih =>
    unfold net6Code
    split
    · exact clean_nil
    · refine clean_append.mpr ⟨?_, ih _⟩
      split
      · exact clean_test (by simp) _
      · simp

theorem clean_rangeCode (lo hi : UInt16) (off : Nat) : Clean (rangeCode lo hi off) := by
  simp [rangeCode, Cell.hole]

theorem clean_macCode (addr : MacAddr) (off : Nat) : Clean (macCode addr off) :=
  clean_append.mpr ⟨clean_test (by simp) _, clean_test (by simp) _⟩

theorem clean_mplsCode (label : Option UInt32) (off : Nat) : Clean (mplsCode label off) := by
  have hshift : classicOk (.rshK 12) = true := by decide
  cases label <;> simp [mplsCode, Cell.hole, hshift]

theorem clean_loads {l : List Insn} (h : ∀ i ∈ l, classicOk i = true) {a : Cell Insn Slot}
    (ha : classicOk a.insn = true) : Clean (ops l ++ [a]) := by
  simp [clean_ops h, ha]

theorem loadSide_ok (layer : Layer) (off : UInt32) (size : AccessSize) (net : Nat) (msh : Bool) :
    ∀ i ∈ loadSide layer off size net msh, classicOk i = true := by
  unfold loadSide
  split
  · cases msh <;> simp [classicOk_sized]
  · simp [classicOk_sized]

variable {p : Primitive} {link : LinkType} {depth : Nat}

theorem clean_byteAccess {ba : ByteAccess} (h : ∀ s ∈ ba.aluOps, stepOk s = true) :
    Clean (body (.byteAccess ba) link depth) := by
  have hx : classicOk (.st 0) = true ∧ classicOk (.ldxMem 0) = true ∧ classicOk .tax = true := by
    decide
  simp only [body]
  cases ba.rhs with
  | const value =>
    refine clean_loads ?_ (classicOk_cmp _ _)
    refine List.forall_mem_append.mpr ⟨?_, clean_aluCode h⟩
    cases ba.layer <;> simp [classicOk_sized]
  | load rhs =>
    refine clean_loads ?_ (classicOk_cmpX _)
    split
    · simp only [List.forall_mem_append, List.forall_mem_singleton, hx, and_true]
      exact ⟨⟨loadSide_ok _ _ _ _ _, clean_aluCode h⟩, loadSide_ok _ _ _ _ _⟩
    · simp only [List.forall_mem_append, List.forall_mem_singleton, hx, and_true, classicOk_sized,
        true_and]
      exact clean_aluCode h

theorem clean_body (h : ∀ s ∈ steps p, stepOk s = true) : Clean (body p link depth) := by
  cases p with
  | host addr dir =>
    cases addr with
    | v4 a => exact clean_addrCode (l := fun off => [.ldwAbs (.ofNat off)]) (by simp) _ _ _ _
    | v6 a => exact clean_bothCode (fun _ => clean_segsCode _ _ _) _ _ _ _ _
  | net n dir =>
    exact clean_addrCode (l := fun off => [.ldwAbs (.ofNat off), .andK n.mask]) (by simp) _ _ _ _
  | net6 n dir => exact clean_bothCode (fun _ => clean_net6Code _ _ _ _) _ _ _ _ _
  | port port dir proto =>
    exact clean_addrCode (l := fun off => [.ldhInd (.ofNat off)]) (by simp) _ _ _ _
  | portRange lo hi dir proto => exact clean_bothCode (clean_rangeCode lo hi) _ _ _ _ _
  | etherHost addr dir => exact clean_bothCode (clean_macCode addr) _ _ _ _ _
  | etherMulticast => simp [body, Cell.hole]
  | ipBroadcast => exact clean_test (by simp) _
  | ipMulticast => simp [body]
  | ip6Multicast => exact clean_test (by simp) _
  | vlan id => cases id <;> simp [body]
  | mpls label => exact clean_mplsCode _ _
  | pppoeSession sid =>
    cases sid with
    | none => exact clean_nil
    | some id => exact clean_test (by simp) _
  | len op value =>
    have hl : classicOk .ldLen = true := by decide
    exact clean_loads (l := [.ldLen]) (by simp [hl]) (classicOk_cmp _ _)
  | byteAccess ba => exact clean_byteAccess h
  | proto | etherProto | pppoeDiscovery | ipProtoChain | ip6ProtoChain | inbound | outbound =>
    exact clean_nil

end Bodies

section Guards

theorem clean_asmEthertype (et : UInt32) (ctx : Ctx) : Clean (asmEthertype et ctx).1.code := by
  unfold asmEthertype
  split
  · split
    · exact clean_nil
    · exact clean_test (by simp) _
  · exact clean_nil

theorem clean_loadL4 (off : Nat) (want : L4Set) : Clean (loadL4 off want) := by
  cases want <;> simp [loadL4, l4Check]

theorem clean_fragMsh (net : Nat) : Clean (fragMsh net) := by
  simp [fragMsh, Cell.hole]

theorem clean_ldx40 : Clean ldx40 := by
  simp [ldx40]

theorem clean_dualCode (want : L4Set) (etherOff net : Nat) : Clean (dualCode want etherOff net) := by
  simp [dualCode, clean_loadL4, clean_fragMsh, clean_ldx40]

theorem clean_knownPrereqs (want : L4Set) (off : Nat) (ready : Option L4Set) (known : Option UInt8)
    (check : UInt8 → Check) {tail : Code} (ht : Clean tail) (depth : Nat) :
    Clean (knownPrereqs want off ready known check tail depth).1.code := by
  have hl := clean_loadL4 off want
  unfold knownPrereqs
  split
  · exact hl
  · split
    · split
      · exact ht
      · exact clean_append.mpr ⟨hl, ht⟩
    · exact clean_append.mpr ⟨hl, ht⟩

theorem clean_skipVersion (et : UInt32) (ctx : Ctx) : Clean (skipVersion et ctx).code := by
  unfold skipVersion
  split <;> exact clean_nil

theorem clean_asmPortPrereqs (want : L4Set) (ctx : Ctx) :
    Clean (asmPortPrereqs want ctx).1.code := by
  have prologue : Clean (asmPortPrologue want ctx).1.code := by
    unfold asmPortPrologue
    dsimp only
    split
    · exact clean_append.mpr
        ⟨clean_skipVersion _ _, clean_knownPrereqs _ _ _ _ _ (clean_fragMsh _) _⟩
    · split
      · exact clean_append.mpr
          ⟨clean_skipVersion _ _, clean_knownPrereqs _ _ _ _ _ clean_ldx40 _⟩
      · exact clean_dualCode _ _ _
  unfold asmPortPrereqs
  split
  · split
    · exact clean_nil
    · exact prologue
  · exact prologue

theorem clean_asmGuard (g : Guard) (ctx : Ctx) : Clean (asmGuard g ctx).1.code := by
  cases g with
  | none => exact clean_nil
  | ethertype et => exact clean_asmEthertype et ctx
  | ip4 n =>
    simp only [asmGuard, asmIp4L4]
    split
    · exact clean_append.mpr ⟨clean_asmEthertype _ _, clean_nil⟩
    · exact clean_append.mpr ⟨clean_asmEthertype _ _, clean_test (by simp) _⟩
  | ip6 n =>
    simp only [asmGuard, asmIp6L4]
    split
    · exact clean_append.mpr ⟨clean_asmEthertype _ _, clean_nil⟩
    · exact clean_append.mpr ⟨clean_asmEthertype _ _, clean_test (by simp) _⟩
  | ports set => exact clean_asmPortPrereqs set ctx

theorem clean_asmGuards (gs : List Guard) (ctx : Ctx) : Clean (asmGuards gs ctx).1.code := by
  induction gs generalizing ctx with
  | nil => exact clean_nil
  | cons g gs ih => exact clean_append.mpr ⟨clean_asmGuard g ctx, ih _⟩

end Guards

section Whole

variable {mode : HoistMode} {e : Expr} {link : LinkType}

/-- The operands of the code are those of the filter. -/
theorem clean_asm (h : ∀ p ∈ e.leaves, ∀ s ∈ steps p, stepOk s = true) (ctx : Ctx) :
    Clean (asm mode e ctx).1.code := by
  induction e generalizing ctx with
  | primitive p =>
    exact clean_append.mpr ⟨clean_asmGuard _ _, clean_body (h p List.mem_cons_self)⟩
  | and l r hl hr =>
    obtain ⟨h₁, h₂⟩ := List.forall_mem_append.mp h
    exact clean_blind.seq (hl h₁ _) (hr h₂ _)
  | or l r hl hr =>
    obtain ⟨h₁, h₂⟩ := List.forall_mem_append.mp h
    exact clean_append.mpr ⟨clean_asmGuards _ _, clean_alt (hl h₁ _) (hr h₂ _)⟩
  | not e ih => exact clean_blind.neg (fun _ => classicOk_ja 0) (ih h _)

/-- An unconditional jump has no operand, whatever its distance. -/
theorem classicOk_ja_code {i : Insn} (h : isJa i = true) : classicOk i = true := by
  unfold classicOk
  split
  · rename_i hc
    exfalso
    have h7 : i.code &&& 0x07 = bpfJmp := by
      simp only [isJa, Bool.and_eq_true, beq_iff_eq] at h
      exact h.1
    have h4 : i.code &&& 0x07 = (i.code &&& 0x0f) &&& 0x07 := by
      rw [UInt16.and_assoc]
      rfl
    rw [h4, hc] at h7
    exact absurd h7 (by decide)
  · rfl

/-- An instruction rewritten as the passes do it: only a jump changes its `k`. -/
theorem classicOk_congr {i j : Insn} (hc : j.code = i.code) (hk : isJa i = true ∨ j.k = i.k)
    (h : classicOk i = true) : classicOk j = true := by
  rcases hk with hj | hk
  · exact classicOk_ja_code ((isJa_congr hc).trans hj)
  · unfold classicOk at h ⊢
    rwa [hc, hk]

theorem classicOk_raw {a : Cell Insn Slot} (hl : linked a) (h : classicOk a.insn = true) :
    classicOk (a.raw Insn.put) = true := by
  refine classicOk_congr (raw_code a) ?_ h
  obtain ⟨i, _ | ⟨k, t | x⟩⟩ := a
  · exact .inr rfl
  · cases k with
    | ja => exact .inl (hl.ja rfl)
    | jt => exact .inr rfl
    | jf => exact .inr rfl
  · exact .inr rfl

theorem classicOk_thread (fin : List Nat) (n : Nat) {i : Insn} (h : classicOk i = true) :
    classicOk (threadInsn fin n i) = true := by
  refine classicOk_congr (threadInsn_code fin n i) ?_ h
  unfold threadInsn
  split
  · exact .inl ‹_›
  · split <;> exact .inr rfl

theorem classicOk_renumber (keep : List Bool) (n : Nat) {i : Insn} (h : classicOk i = true) :
    classicOk (renumber keep n i) = true := by
  refine classicOk_congr (renumber_code keep n i) ?_ h
  unfold renumber
  split
  · exact .inl ‹_›
  · split <;> exact .inr rfl

/-- The peephole passes bring in no new operand. -/
theorem classicOk_optimize {insns : List Insn} (h : ∀ i ∈ insns, classicOk i = true) :
    ∀ i ∈ optimize insns, classicOk i = true := by
  have ht : ∀ i ∈ threadJumps insns, classicOk i = true := by
    intro i hi
    obtain ⟨n, hn, rfl⟩ := List.mem_mapIdx.mp hi
    exact classicOk_thread _ _ (h _ (List.getElem_mem hn))
  intro i hi
  simp only [optimize, removeUnkept] at hi
  split at hi
  · exact ht i hi
  · obtain ⟨⟨j, n⟩, hj, hk⟩ := List.mem_filterMap.mp hi
    dsimp only at hk
    split at hk
    · cases hk
      exact classicOk_renumber _ _ (ht j (List.fst_mem_of_mem_zipIdx hj))
    · cases hk

theorem classic_accepted {insns : List Insn} (hc : compileWith mode e link = .ok insns)
    (h : ∀ p ∈ e.leaves, ∀ s ∈ steps p, stepOk s = true) : ∀ i ∈ insns, classicOk i = true := by
  obtain ⟨hl, rfl⟩ := compileWith_ok.mp hc
  refine classicOk_optimize fun i hi => ?_
  obtain ⟨a, ha, rfl⟩ := List.mem_map.mp hi
  refine classicOk_raw ((assembled_linked hl).linked a ha) ?_
  rcases List.mem_append.mp ha with ha | ha
  · exact clean_blind.resolve (clean_blind.resolve (clean_asm h _) _ _) _ _ a ha
  · exact clean_ops (l := [.retK bpfAccept, .retK bpfDrop]) (by simp) a ha

end Whole

end Classic

section Extended

open PktBaffle.Ebpf PktBaffle.Extended PktBaffle.Proofs.Ebpf

/-- Every instruction of the code has a constant the kernel accepts. -/
def Sound (c : Code) : Prop := ∀ a ∈ c, extendedOk a.insn = true

theorem sound_blind : Blind (fun a : Cell Insn Unit => extendedOk a.insn = true) where
  fill a x n h := by rwa [Cell.fill_insn]
  fold a h := by rwa [Cell.fold_insn]

theorem Sound.append {c d : Code} (hc : Sound c) (hd : Sound d) : Sound (c ++ d) :=
  List.forall_mem_append.mpr ⟨hc, hd⟩

theorem Sound.cons {a : Cell Insn Unit} {c : Code} (hc : Sound c) (ha : extendedOk a.insn = true) :
    Sound (a :: c) := List.forall_mem_cons.mpr ⟨ha, hc⟩

theorem sound_nil : Sound [] := fun _ h => absurd h List.not_mem_nil

theorem sound_ops {l : List Insn} (h : ∀ i ∈ l, extendedOk i = true) : Sound (ops l) := by
  intro a ha
  obtain ⟨i, hi, rfl⟩ := List.mem_map.mp ha
  exact h i hi

/-- Only a shift and a division have an operand to check. -/
def harmlessCode (code : UInt8) : Bool :=
  (code &&& 0x0f != bpfAlu ||| bpfK && code &&& 0x0f != bpfAlu64 ||| bpfK) ||
    !([0x30, 0x60, 0x70, 0x90].contains (code &&& 0xf0))

theorem extendedOk_of_code {i : Insn} (h : harmlessCode i.code = true) : extendedOk i = true := by
  simp only [harmlessCode, Bool.or_eq_true, Bool.and_eq_true, bne_iff_ne, ne_eq,
    Bool.not_eq_true', List.contains_eq_mem, decide_eq_false_iff_not, List.mem_cons,
    List.not_mem_nil, or_false, not_or] at h
  unfold extendedOk
  split
  · rename_i hc
    obtain ⟨h1, h2, h3, h4⟩ := h.resolve_left fun hn => hc.elim hn.1 hn.2
    have far : ∀ op : UInt8, i.code &&& 0xf0 ≠ op → (i.code &&& 0xf0).toNat ≠ op.toNat :=
      fun op hne he => hne (UInt8.toNat_inj.mp he)
    have hs : ¬((i.code &&& 0xf0).toNat = 0x60 ∨ (i.code &&& 0xf0).toNat = 0x70) :=
      not_or.mpr ⟨far 0x60 h2, far 0x70 h3⟩
    have hd : ¬((i.code &&& 0xf0).toNat = 0x30 ∨ (i.code &&& 0xf0).toNat = 0x90) :=
      not_or.mpr ⟨far 0x30 h1, far 0x90 h4⟩
    rw [constantOk, if_neg hs, if_neg hd]
  · rfl

theorem extendedOk_new {code dst src : UInt8} {off : Int16} {imm : Int32}
    (h : harmlessCode code = true) : extendedOk (.new code dst src off imm) = true :=
  extendedOk_of_code h

theorem extendedOk_add (dst : UInt8) (k : Int32) : extendedOk (.add64Imm dst k) = true :=
  extendedOk_new (by decide)

theorem extendedOk_skip (off : Int16) : extendedOk (.ja off) = true := extendedOk_new (by decide)

theorem extendedOk_test {i : Insn} (h : IsTest i) : extendedOk i = true := by
  cases h <;> exact extendedOk_new (by decide)

theorem extendedOk_ldxBe (size : AccessSize) (src : UInt8) (off : Int16) :
    ∀ i ∈ ldxBe size r4 src off, extendedOk i = true := by
  intro i hi
  cases size with
  | byte =>
    rw [List.mem_singleton.mp hi]
    exact extendedOk_new (by decide)
  | half =>
    simp only [ldxBe, ldxHBe, List.mem_cons, List.not_mem_nil, or_false] at hi
    rcases hi with rfl | rfl <;> exact extendedOk_new (by decide)
  | word =>
    simp only [ldxBe, ldxWBe, List.mem_cons, List.not_mem_nil, or_false] at hi
    rcases hi with rfl | rfl <;> exact extendedOk_new (by decide)

theorem sound_op {i : Insn} (h : extendedOk i = true) : Sound [.op i] := sound_nil.cons h

theorem sound_bound (k : Int32) : Sound (r6Code k) :=
  ((sound_nil.cons (by decide)).cons (extendedOk_add _ _)).cons (by decide)

theorem sound_load (size : AccessSize) (off : Nat) : Sound (loadCode size off) :=
  Sound.append (((sound_nil.cons (by decide)).cons (extendedOk_add _ _)).cons (by decide))
    (sound_ops (extendedOk_ldxBe _ _ _))

/-- The header length is shifted by 2. -/
theorem sound_pointer (n : Nat) : Sound (ops (transportPointer n)) :=
  ((((sound_nil.cons (by decide)).cons (extendedOk_add _ _)).cons (by decide)).cons
    (by decide)).cons (by decide)

theorem sound_atoms : Atoms fun _ c _ => Sound c where
  nil _ := sound_nil
  append := Sound.append
  load _ size off _ := sound_load size off
  failing _ _ h := sound_nil.cons (extendedOk_test h)
  leaving _ _ h := sound_nil.cons (extendedOk_test h)
  either _ i j hi hj := by
    refine (sound_nil.cons ?_).cons (extendedOk_test hi)
    rcases hj with hj | rfl
    · exact extendedOk_test hj
    · exact extendedOk_skip 0
  branch hc hd _ _ :=
    (hc.append (hd.cons (extendedOk_skip _))).cons (extendedOk_test (.jeq _))
  alt hc hd _ := sound_blind.alt (fun _ => extendedOk_skip 0) hc hd
  mask _ _ := sound_op (extendedOk_new (by decide))
  shift _ := sound_op (by decide)
  pointer _ n _ := sound_pointer n
  fixed _ _ _ := (sound_op (extendedOk_add _ _)).cons (by decide)
  bound _ k := sound_bound k
  port _ := sound_ops (extendedOk_ldxBe .half _ _)
  length _ := (sound_op (by decide)).cons (by decide)

variable {e : Expr} {link : LinkType}

theorem extendedOk_shift {i : Insn} (h : i.code &&& 0x0f = bpfAlu ||| bpfK)
    (hop : (i.code &&& 0xf0).toNat = 0x60 ∨ (i.code &&& 0xf0).toNat = 0x70) :
    extendedOk i = decide (i.imm.toUInt32 < 32) := by
  rw [extendedOk, if_pos (.inl h), constantOk, if_pos hop]

theorem extendedOk_div (k : Int32) : extendedOk (.div32Imm r4 k) = decide (k.toUInt32 ≠ 0) := by
  have hc : (Insn.div32Imm r4 k).code = 0x34 := rfl
  rw [extendedOk, hc, if_pos (by decide), constantOk, if_neg (by decide), if_pos (by decide)]
  rfl

theorem ebpfAlu32_ok {s : ArithOp × UInt32} {i : Insn}
    (h : ebpfAlu32 s.1 r4 s.2.toInt32 = .ok i) : extendedOk i = stepOk s := by
  obtain ⟨op, k⟩ := s
  have hk : k.toInt32.toUInt32 = k := UInt32.toUInt32_toInt32 k
  cases op with
  | div =>
    simp only [ebpfAlu32] at h
    split at h
    · cases h
    · cases h
      rw [extendedOk_div, hk]
      rfl
  | mod => cases h
  | shl =>
    cases h
    have hc : (Insn.lsh32Imm r4 k.toInt32).code = 0x64 := rfl
    rw [extendedOk_shift (by rw [hc]; decide) (by rw [hc]; decide)]
    exact congrArg (fun n => decide (n < 32)) hk
  | shr =>
    cases h
    have hc : (Insn.rsh32Imm r4 k.toInt32).code = 0x74 := rfl
    rw [extendedOk_shift (by rw [hc]; decide) (by rw [hc]; decide)]
    exact congrArg (fun n => decide (n < 32)) hk
  | _ =>
    cases h
    exact extendedOk_new (by decide)

theorem mem_steps {steps : List (ArithOp × UInt32)} {is : List Insn} (h : aluCode steps = .ok is)
    {s : ArithOp × UInt32} (hs : s ∈ steps) :
    ∃ i ∈ is, ebpfAlu32 s.1 r4 s.2.toInt32 = .ok i := by
  induction steps generalizing is with
  | nil => cases hs
  | cons t steps ih =>
    obtain ⟨op, k⟩ := t
    simp only [aluCode] at h
    split at h
    · rename_i i js hi hj
      cases h
      rcases List.mem_cons.mp hs with rfl | hs
      · exact ⟨i, List.mem_cons_self, hi⟩
      · obtain ⟨j, hm, he⟩ := ih hj hs
        exact ⟨j, List.mem_cons_of_mem _ hm, he⟩
    · cases h
    · cases h

theorem sound_byteAccess {ba : ByteAccess} {c : Code} (hc : byteAccessCode link ba = .ok c)
    (h : ∀ s ∈ ba.aluOps, stepOk s = true) : Sound c := by
  obtain ⟨value, is, -, ha, hshape⟩ := byteAccessCode_ok hc
  have halu : Sound (ops is) := sound_ops fun i hi => by
    obtain ⟨s, hm, hs⟩ := aluCode_mem ha hi
    rw [ebpfAlu32_ok hs]
    exact h s hm
  have whole : ∀ {d : Code}, Sound d → Sound (d ++ ops is ++ cmpCode ba.op value) := fun hd =>
    (hd.append halu).append (sound_atoms.cmp ba.op value none)
  obtain ⟨-, -, rfl⟩ | ⟨-, -, rfl⟩ := hshape
  · exact whole ((((sound_load _ _).append (sound_pointer _)).append (sound_bound _)).append
      (sound_ops (extendedOk_ldxBe _ _ _)))
  · exact whole (sound_load _ _)

/-- The operands of the code are those of the filter. -/
theorem sound_code {c : Code} (h : ∀ p ∈ e.leaves, ∀ s ∈ steps p, stepOk s = true)
    (hc : exprCode link e = .ok c) : Sound c := by
  induction e generalizing c with
  | primitive p =>
    obtain ⟨-, hs⟩ := sound_atoms.leaf hc (fun ba hp m => ⟨m, by
      subst hp
      exact sound_byteAccess hc (h _ List.mem_cons_self)⟩) none
    exact hs
  | and l r hl hr =>
    obtain ⟨h₁, h₂⟩ := List.forall_mem_append.mp h
    obtain ⟨a, b, ha, hb, rfl⟩ := exprCode_and hc
    exact sound_blind.seq (hl h₁ ha) (hr h₂ hb)
  | or l r hl hr =>
    obtain ⟨h₁, h₂⟩ := List.forall_mem_append.mp h
    obtain ⟨a, b, ha, hb, rfl⟩ := exprCode_or hc
    exact sound_blind.alt (fun _ => extendedOk_skip 0) (hl h₁ ha) (hr h₂ hb)
  | not e ih =>
    obtain ⟨a, ha, rfl⟩ := exprCode_not hc
    exact sound_blind.neg (fun _ => extendedOk_skip 0) (ih h ha)

theorem extendedOk_raw (a : Cell Insn Unit) :
    extendedOk (a.raw Insn.put) = extendedOk a.insn := by
  obtain ⟨i, _ | ⟨k, t | x⟩⟩ := a <;> rfl

theorem sound_resolve {x : Exit} {d : Nat} {c : Code} : Sound (Frag.resolve x d c) ↔ Sound c := by
  refine ⟨fun h => ?_, fun h => sound_blind.resolve h x d⟩
  induction c with
  | nil => exact sound_nil
  | cons a c ih =>
    obtain ⟨ha, hc⟩ := List.forall_mem_cons.mp h
    rw [Cell.fill_insn] at ha
    exact (ih hc).cons ha

theorem sound_fold {c : Code} : Sound (Frag.fold c) ↔ Sound c := by
  refine ⟨fun h a ha => ?_, fun h a ha => ?_⟩
  · have := h _ (List.mem_map_of_mem ha)
    rwa [Cell.fold_insn] at this
  · obtain ⟨b, hb, rfl⟩ := List.mem_map.mp ha
    rw [Cell.fold_insn]
    exact h b hb

/-- The program has the operands of the code, and those of its first and last instructions. -/
theorem sound_program {c : Code} :
    (∀ i ∈ (program c).map (Cell.raw Insn.put), extendedOk i = true) ↔ Sound c := by
  have hraw : (∀ i ∈ (program c).map (Cell.raw Insn.put), extendedOk i = true) ↔
      Sound (program c) := by
    refine List.forall_mem_map.trans (forall₂_congr fun a _ => ?_)
    rw [extendedOk_raw]
  have hpre : Sound (ops prologue) := sound_ops (by decide)
  have hend : Sound (ops epilogue) := sound_ops (by decide)
  rw [hraw, program]
  refine List.forall_mem_append.trans ⟨fun h => ?_, fun h => ⟨hpre, ?_⟩⟩
  · exact sound_resolve.mp (sound_resolve.mp (List.forall_mem_append.mp h.2).1)
  · exact Sound.append (sound_resolve.mpr (sound_resolve.mpr h)) hend

theorem stepOk_byteAccess {ba : ByteAccess} {c : Code} (hc : byteAccessCode link ba = .ok c)
    (h : Sound c) : ∀ s ∈ ba.aluOps, stepOk s = true := by
  obtain ⟨value, is, -, ha, hshape⟩ := byteAccessCode_ok hc
  have halu : Sound (ops is) := by
    obtain ⟨-, -, rfl⟩ | ⟨-, -, rfl⟩ := hshape
    · exact (List.forall_mem_append.mp (List.forall_mem_append.mp h).1).2
    · exact (List.forall_mem_append.mp (List.forall_mem_append.mp h).1).2
  intro s hs
  obtain ⟨i, hi, he⟩ := mem_steps ha hs
  rw [← ebpfAlu32_ok he]
  exact halu (.op i) (List.mem_map_of_mem hi)

/-- Every operand the filter needs stands in the code. -/
theorem stepOk_code {c : Code} (hc : exprCode link e = .ok c) (h : Sound c) :
    ∀ p ∈ e.leaves, ∀ s ∈ steps p, stepOk s = true := by
  induction e generalizing c with
  | primitive p =>
    intro q hq
    rw [List.mem_singleton.mp hq]
    cases p with
    | byteAccess ba => exact stepOk_byteAccess hc h
    | _ => exact fun s hs => absurd hs List.not_mem_nil
  | and l r hl hr =>
    obtain ⟨a, b, ha, hb, rfl⟩ := exprCode_and hc
    obtain ⟨h₁, h₂⟩ := List.forall_mem_append.mp h
    exact List.forall_mem_append.mpr ⟨hl ha (sound_resolve.mp h₁), hr hb h₂⟩
  | or l r hl hr =>
    obtain ⟨a, b, ha, hb, rfl⟩ := exprCode_or hc
    obtain ⟨h₁, h₂⟩ := List.forall_mem_append.mp h
    exact List.forall_mem_append.mpr
      ⟨hl ha (sound_resolve.mp h₁), hr hb (List.forall_mem_cons.mp h₂).2⟩
  | not e ih =>
    obtain ⟨a, ha, rfl⟩ := exprCode_not hc
    obtain ⟨h₁, -⟩ := List.forall_mem_append.mp h
    exact ih ha (sound_resolve.mp (sound_fold.mp h₁))

/-- An extended program has exactly the operands of its filter. -/
theorem extended_accepted {insns : List Insn} (hc : compile e link = .ok insns) :
    (∀ i ∈ insns, extendedOk i = true) ↔ NeedsAccepted e := by
  obtain ⟨c, hcode, -, rfl⟩ := compile_ok hc
  exact sound_program.trans ⟨stepOk_code hcode, fun h => sound_code h hcode⟩

end Extended

section Filters

variable {e : Expr} {link : LinkType} {filter : String} {target : Lib.Target} {prog : Lib.Program}

/-- Neither generator has an instruction for a remainder or a division by zero. -/
theorem stepOk_of_encodes {s : ArithOp × UInt32} (he : RawIp.encodes s = true)
    (hs : shiftOk s = true) : stepOk s = true := by
  obtain ⟨op, k⟩ := s
  cases op with
  | div => simpa [RawIp.encodes, stepOk] using he
  | mod => cases he
  | _ => exact hs

theorem shiftOk_of_stepOk {s : ArithOp × UInt32} (h : stepOk s = true) : shiftOk s = true := by
  obtain ⟨op, k⟩ := s
  cases op <;> first | exact h | rfl

theorem classic_encodes {insns : List Bpf.Insn} (hc : PktBaffle.Classic.compile e link = .ok insns) :
    ∀ p ∈ e.leaves, ∀ s ∈ steps p, RawIp.encodes s = true := by
  intro p hp s hs
  have hok := (Classic.compileWith_ok.mp hc).1.1.leaves p hp
  cases p with
  | byteAccess ba =>
    have hbody : Classic.bodyOk (.byteAccess ba) link = true := (Bool.and_eq_true_iff.mp hok).2
    have hall := List.all_eq_true.mp (Bool.and_eq_true_iff.mp hbody).1
    rw [← RawIp.aluInsn_encodes]
    exact hall s hs
  | _ => cases hs

theorem code_encodes {c : Ebpf.Code} (hc : Ebpf.exprCode link e = .ok c) :
    ∀ p ∈ e.leaves, ∀ s ∈ steps p, RawIp.encodes s = true := by
  induction e generalizing c with
  | primitive p =>
    intro q hq s hs
    rw [List.mem_singleton.mp hq] at hs
    cases p with
    | byteAccess ba =>
      obtain ⟨-, is, -, ha, -⟩ := Ebpf.byteAccessCode_ok hc
      exact RawIp.encodes_aluCode ha s hs
    | _ => cases hs
  | and l r hl hr =>
    obtain ⟨a, b, ha, hb, -⟩ := Ebpf.exprCode_and hc
    exact List.forall_mem_append.mpr ⟨hl ha, hr hb⟩
  | or l r hl hr =>
    obtain ⟨a, b, ha, hb, -⟩ := Ebpf.exprCode_or hc
    exact List.forall_mem_append.mpr ⟨hl ha, hr hb⟩
  | not e ih =>
    obtain ⟨a, ha, -⟩ := Ebpf.exprCode_not hc
    exact ih ha

theorem needsAccepted_iff (h : ∀ p ∈ e.leaves, ∀ s ∈ steps p, RawIp.encodes s = true) :
    NeedsAccepted e ↔ ShiftsSmall e :=
  ⟨fun hn p hp s hs => shiftOk_of_stepOk (hn p hp s hs),
    fun hs p hp s hm => stepOk_of_encodes (h p hp s hm) (hs p hp s hm)⟩

/-- The program of an expression whose operands are accepted is accepted. -/
theorem compile_spec (hp : Lib.parse filter = .ok e)
    (hc : Lib.compile filter link target = .ok prog) :
    (NeedsAccepted e ↔ ShiftsSmall e) ∧ (NeedsAccepted e → Accepted prog) := by
  cases target with
  | classic =>
    rw [Lib.compile_classic hp] at hc
    cases hcc : PktBaffle.Classic.compile e link with
    | error err =>
      rw [hcc] at hc
      cases hc
    | ok insns =>
      rw [hcc] at hc
      cases hc
      exact ⟨needsAccepted_iff (classic_encodes hcc), classic_accepted hcc⟩
  | extended =>
    rw [Lib.compile_extended hp] at hc
    cases hcc : Extended.compile e link with
    | error err =>
      rw [hcc] at hc
      cases hc
    | ok insns =>
      rw [hcc] at hc
      cases hc
      obtain ⟨c, hcode, -, -⟩ := Ebpf.compile_ok hcc
      exact ⟨needsAccepted_iff (code_encodes hcode), (extended_accepted hcc).mpr⟩

/-- The generators check a divisor but no shift: where a program is emitted at all, it is one the
kernel can load, and the filter is not one to refuse, exactly if no shift of the filter is by 32
or more. -/
theorem constant_operands_iff (hp : Lib.parse filter = .ok e)
    (hc : Lib.compile filter link target = .ok prog) :
    KernelReady filter link target ↔ ShiftsSmall e := by
  obtain ⟨hneeds, haccept⟩ := compile_spec hp hc
  constructor
  · intro h
    by_contra hs
    obtain ⟨err, he⟩ := h.refused e hp fun hn => hs (hneeds.mp hn)
    rw [hc] at he
    cases he
  · intro hs
    have hn := hneeds.mpr hs
    refine ⟨fun prog' hc' => ?_, fun e' hp' hn' => ?_⟩
    · rw [hc] at hc'
      cases hc'
      exact haccept hn
    · rw [hp] at hp'
      cases hp'
      exact absurd hn hn'

end Filters

/-- The expression of `ip[0] << 32 = 0`. -/
def shifted : Expr := .primitive (.byteAccess ⟨.net, 0, .byte, [(.shl, 32)], .eq, .const 0⟩)

theorem shifted_parsed : Lib.parse "ip[0] << 32 = 0" = .ok shifted := by decide +kernel

theorem shifted_classic : PktBaffle.Classic.compile shifted .ethernet =
    .ok [.ldbAbs 14, .lshK 32, .jeqK 0 0 1, .retK Bpf.bpfAccept, .retK Bpf.bpfDrop] := by
  decide +kernel

open PktBaffle.Ebpf in
theorem shifted_extended : Extended.compile shifted .ethernet =
    .ok [.ldxW r2 r1 0, .ldxW r3 r1 4, .mov64Reg r5 r2, .add64Imm r5 15, .jgtReg r5 r3 5,
      .ldxB r4 r2 14, .lsh32Imm r4 32, .jneImm r4 0 2, .mov64Imm r0 xdpPass, .exit,
      .mov64Imm r0 xdpDrop, .exit] := by
  decide +kernel

theorem constant_operands_shift :
    KernelReady "ip[0] << 32 = 0" .ethernet .classic ↔ ShiftsSmall shifted :=
  constant_operands_iff shifted_parsed
    ((Lib.compile_classic shifted_parsed).trans (congrArg _ shifted_classic))

/-- Both targets emit a shift by 32. -/
theorem shift_unchecked : ¬KernelReady "ip[0] << 32 = 0" .ethernet .classic ∧
    ¬KernelReady "ip[0] << 32 = 0" .ethernet .extended := by
  constructor
  · intro h
    have hprog := h.emitted _
      ((Lib.compile_classic shifted_parsed).trans (congrArg _ shifted_classic))
    exact absurd (hprog (.lshK 32) (by decide)) (by decide)
  · intro h
    have hprog := h.emitted _
      ((Lib.compile_extended shifted_parsed).trans (congrArg _ shifted_extended))
    exact absurd (hprog (.lsh32Imm Ebpf.r4 32) (by decide)) (by decide)

end PktBaffle.Proofs.Operands
