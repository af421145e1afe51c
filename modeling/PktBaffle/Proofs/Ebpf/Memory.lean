import PktBaffle.Proofs.Ebpf.Verdict

namespace PktBaffle.Proofs.Ebpf
open PktBaffle.Ebpf Forward Interp PktBaffle.Extended
open Vm (Packet)
open PktBaffle.Classic (LinkType)

/-- What the last instructions say about R5: it was set from a register, a number of bytes was
added, and the sum was compared with `data_end`. -/
inductive Check where
  | idle
  | moved (base : UInt8)
  | added (base : UInt8) (bytes : Int32)
  | armed (base : UInt8) (bytes : Int32)
  deriving DecidableEq

namespace Check

/-- Reading one instruction, given its opcode, its registers and its immediate. -/
def next (code regs : UInt8) (imm : Int32) (st : Check) : Check :=
  if code = bpfAlu64 ||| bpfMov ||| bpfX ∧ regs &&& 0xf = r5 then .moved (regs >>> 4 &&& 0xf)
  else if code = bpfAlu64 ||| bpfAdd ||| bpfK ∧ regs &&& 0xf = r5 then
    match st with
    | .moved b => .added b imm
    | _ => .idle
  else if code = bpfJmp ||| bpfJgt ||| bpfX ∧ regs &&& 0xf = r5 then
    match st with
    | .added b k => if regs >>> 4 &&& 0xf = r3 then .armed b k else .idle
    | _ => .idle
  else st

end Check

/-- A load from the packet, not from the context. -/
def isLoad (code regs : UInt8) : Bool := code &&& 0x07 == bpfLdx && regs >>> 4 &&& 0xf != r1

/-- A bounds check of `bytes` is for exactly the bytes that a load reads. The ports of a
transport header are checked together. -/
def covers (bytes : Int32) (off : Int16) (size : Nat) : Bool :=
  decide (0 ≤ off.toInt) && (decide (off.toInt + size = bytes.toInt) ||
    (bytes == 4 && size == 2 && decide (off.toInt ≤ 2)))

def loadCovered (st : Check) (i : Insn) : Bool :=
  match st with
  | .armed b k => b == (i.regs >>> 4 &&& 0xf) && covers k i.off (accessSize i.code)
  | _ => false

/-- Every packet load stands behind a bounds check of its base register that covers it. -/
def checked : Check → List Insn → Bool
  | _, [] => true
  | st, i :: is => (!isLoad i.code i.regs || loadCovered st i) &&
      checked (st.next i.code i.regs i.imm) is

def after (st : Check) (is : List Insn) : Check :=
  is.foldl (fun st i => st.next i.code i.regs i.imm) st

theorem checked_append (st : Check) (is js : List Insn) :
    checked st (is ++ js) = (checked st is && checked (after st is) js) := by
  induction is generalizing st with
  | nil => rfl
  | cons i is ih =>
    simp only [List.cons_append, checked, ih, Bool.and_assoc]
    rfl

theorem after_append (st : Check) (is js : List Insn) :
    after st (is ++ js) = after (after st is) js := List.foldl_append ..

theorem checked_no_load {is : List Insn} (h : ∀ i ∈ is, isLoad i.code i.regs = false) (st : Check) :
    checked st is = true := by
  induction is generalizing st with
  | nil => rfl
  | cons i is ih =>
    rw [checked, h i List.mem_cons_self, ih fun j hj => h j (List.mem_cons_of_mem _ hj)]
    rfl

theorem noLoad_new {code dst src : UInt8} {off : Int16} {imm : Int32}
    (h : isLoad code ((dst &&& 0xf) ||| ((src &&& (0xf : UInt8)) <<< (4 : UInt8))) = false) :
    isLoad (Insn.new code dst src off imm).code (Insn.new code dst src off imm).regs = false := h

/-- Neither a load nor part of a bounds check. -/
def plain (code regs : UInt8) : Bool :=
  !isLoad code regs && !(regs &&& 0xf == r5 && (code == bpfAlu64 ||| bpfMov ||| bpfX ||
    code == bpfAlu64 ||| bpfAdd ||| bpfK || code == bpfJmp ||| bpfJgt ||| bpfX))

theorem next_plain {code regs : UInt8} (h : plain code regs = true) (imm : Int32) (st : Check) :
    st.next code regs imm = st := by
  simp only [plain, Bool.and_eq_true, Bool.not_eq_true', Bool.and_eq_false_iff, Bool.or_eq_false_iff,
    beq_eq_false_iff_ne] at h
  unfold Check.next
  rcases h.2 with hr | ⟨⟨h₁, h₂⟩, h₃⟩
  · simp only [hr, and_false, if_false]
  · simp only [h₁, h₂, h₃, false_and, if_false]

/-- The bounds check a mark stands for. -/
def Fits (m : Mark) (st : Check) : Prop := ∀ k, m = some k → st = .armed r6 k

/-- Behind a check that fits the mark, all loads are covered. -/
def Covered (m : Mark) (c : Code) (m' : Mark) : Prop :=
  ∀ st, Fits m st → checked st (c.map Cell.insn) = true ∧ Fits m' (after st (c.map Cell.insn))

namespace Covered

variable {a b m : Mark} {c d : Code}

theorem nil (m : Mark) : Covered m [] m := fun _ h => ⟨rfl, h⟩

theorem append (hc : Covered a c b) (hd : Covered b d m) : Covered a (c ++ d) m := by
  intro st hst
  obtain ⟨h₁, hf⟩ := hc st hst
  obtain ⟨h₂, hf'⟩ := hd _ hf
  rw [List.map_append, checked_append, after_append, h₁, h₂]
  exact ⟨rfl, hf'⟩

/-- Only the instructions count, not where their slots lead. -/
theorem congr (hc : Covered a c b) (h : d.map Cell.insn = c.map Cell.insn) : Covered a d b := by
  intro st hst
  rw [h]
  exact hc st hst

theorem cons {x : Cell Insn Unit} (hp : plain x.insn.code x.insn.regs = true)
    (hc : Covered a c b) : Covered a (x :: c) b := by
  intro st hst
  obtain ⟨h, hf⟩ := hc st hst
  have hn := next_plain hp x.insn.imm st
  have hl : isLoad x.insn.code x.insn.regs = false := by
    simp only [plain, Bool.and_eq_true, Bool.not_eq_true'] at hp
    exact hp.1
  simp only [List.map_cons, checked, after, List.foldl_cons, hn, hl, h]
  exact ⟨rfl, hf⟩

theorem one {x : Cell Insn Unit} (hp : plain x.insn.code x.insn.regs = true) (m : Mark) :
    Covered m [x] m := cons hp (nil m)

theorem plain_new {code dst src : UInt8} {off : Int16} {imm : Int32}
    (h : plain code ((dst &&& 0xf) ||| ((src &&& (0xf : UInt8)) <<< (4 : UInt8))) = true) :
    plain (Insn.new code dst src off imm).code (Insn.new code dst src off imm).regs = true := h

theorem test {i : Insn} (h : IsTest i) : plain i.code i.regs = true := by
  cases h <;> exact plain_new (by decide)

theorem ja : plain (Insn.ja 0).code (Insn.ja 0).regs = true := plain_new (by decide)

theorem resolve_insn (x : Exit) (n : Nat) (c : Code) :
    (Frag.resolve x n c).map Cell.insn = c.map Cell.insn := by
  induction c with
  | nil => rfl
  | cons a c ih => simp [Frag.resolve, ih]

theorem fold_insn (c : Code) : (Frag.fold c).map Cell.insn = c.map Cell.insn := by
  simp [Frag.fold]

/-- A bounds check of `bytes` behind `base`. -/
theorem check_bound {base : UInt8} (hb : base = r2 ∨ base = r6) (bytes : Int32) (st : Check) :
    checked st [.mov64Reg r5 base, .add64Imm r5 bytes, .jgtReg r5 r3 0] = true ∧
      after st [.mov64Reg r5 base, .add64Imm r5 bytes, .jgtReg r5 r3 0] = .armed base bytes := by
  have hmov : st.next (Insn.mov64Reg r5 base).code (Insn.mov64Reg r5 base).regs 0 =
      .moved base := by
    rcases hb with rfl | rfl
    · exact (if_pos (by decide)).trans (by decide)
    · exact (if_pos (by decide)).trans (by decide)
  have hadd : (Check.moved base).next (bpfAlu64 ||| bpfAdd ||| bpfK) 5 bytes =
      .added base bytes :=
    (if_neg (by decide)).trans (if_pos (by decide))
  have hjgt : (Check.added base bytes).next (bpfJmp ||| bpfJgt ||| bpfX) 53 0 =
      .armed base bytes :=
    (if_neg (by decide)).trans ((if_neg (by decide)).trans ((if_pos (by decide)).trans
      (if_pos (by decide))))
  constructor
  · refine checked_no_load (fun i hi => ?_) st
    simp only [List.mem_cons, List.not_mem_nil, or_false] at hi
    rcases hi with rfl | rfl | rfl
    · rcases hb with rfl | rfl <;> decide
    · exact noLoad_new (by decide)
    · decide
  · show ((st.next (Insn.mov64Reg r5 base).code (Insn.mov64Reg r5 base).regs 0).next
      (bpfAlu64 ||| bpfAdd ||| bpfK) 5 bytes).next (bpfJmp ||| bpfJgt ||| bpfX) 53 0 = _
    rw [hmov, hadd, hjgt]

/-- A load of `n` bytes behind `base`. -/
def loading (code regs base : UInt8) (n : Nat) : Bool :=
  isLoad code regs && regs >>> 4 &&& 0xf == base && accessSize code == n && code &&& 0x07 == bpfLdx

theorem check_ldx {i : Insn} {base : UInt8} {n : Nat} (bytes : Int32)
    (h : loading i.code i.regs base n = true) (is : List Insn) :
    checked (.armed base bytes) (i :: is) =
        (covers bytes i.off n && checked (.armed base bytes) is) ∧
      after (.armed base bytes) (i :: is) = after (.armed base bytes) is := by
  simp only [loading, Bool.and_eq_true, beq_iff_eq] at h
  obtain ⟨⟨⟨hl, hb⟩, hn⟩, hc⟩ := h
  have hne : ∀ k : UInt8, k &&& 0x07 ≠ bpfLdx → ¬i.code = k := by
    intro k hk he
    exact hk (he ▸ hc)
  have hnext : (Check.armed base bytes).next i.code i.regs i.imm = .armed base bytes := by
    unfold Check.next
    rw [if_neg (fun h => hne _ (by decide) h.1), if_neg (fun h => hne _ (by decide) h.1),
      if_neg (fun h => hne _ (by decide) h.1)]
  have hcov : loadCovered (.armed base bytes) i = covers bytes i.off n := by
    simp [loadCovered, hn, hb]
  constructor
  · rw [checked, hnext, hcov, hl]
    rfl
  · rw [after, List.foldl_cons, hnext, after]

theorem loading_new {code dst src base : UInt8} {off : Int16} {imm : Int32} {n : Nat}
    (h : loading code ((dst &&& 0xf) ||| ((src &&& (0xf : UInt8)) <<< (4 : UInt8))) base n = true) :
    loading (Insn.new code dst src off imm).code (Insn.new code dst src off imm).regs base n = true :=
  h

/-- A load behind its check, and the byte swap. -/
theorem check_load {base : UInt8} (hb : base = r2 ∨ base = r6) (size : AccessSize) (off : Int16)
    (bytes : Int32) :
    checked (.armed base bytes) (ldxBe size r4 base off) = covers bytes off (AccessSize.bytes size) ∧
      after (.armed base bytes) (ldxBe size r4 base off) = .armed base bytes := by
  have hswap : ∀ imm, checked (.armed base bytes) [.new (bpfAlu ||| bpfEnd ||| bpfToBe) r4 0 0 imm] =
      true ∧ after (.armed base bytes) [.new (bpfAlu ||| bpfEnd ||| bpfToBe) r4 0 0 imm] =
      .armed base bytes := fun imm =>
    ⟨checked_no_load (fun i hi => by rw [List.mem_singleton.mp hi]; exact noLoad_new (by decide)) _,
      @next_plain (bpfAlu ||| bpfEnd ||| bpfToBe) 4 (by decide) imm (.armed base bytes)⟩
  have hload : ∀ (code : UInt8) (n : Nat), (∀ b, b = r2 ∨ b = r6 →
      loading code ((r4 &&& 0xf) ||| ((b &&& (0xf : UInt8)) <<< (4 : UInt8))) b n = true) → ∀ is,
      checked (.armed base bytes) (.new code r4 base off 0 :: is) =
          (covers bytes off n && checked (.armed base bytes) is) ∧
        after (.armed base bytes) (.new code r4 base off 0 :: is) = after (.armed base bytes) is :=
    fun _ _ h is => check_ldx bytes (loading_new (h base hb)) is
  cases size with
  | byte =>
    obtain ⟨h₁, h₂⟩ := hload (bpfLdx ||| bpfMem ||| bpfB) 1 (by rintro b (rfl | rfl) <;> decide) []
    exact ⟨h₁.trans (Bool.and_true _), h₂⟩
  | half =>
    obtain ⟨h₁, h₂⟩ := hload (bpfLdx ||| bpfMem ||| bpfH) 2 (by rintro b (rfl | rfl) <;> decide) [.be16 r4]
    obtain ⟨h₃, h₄⟩ := hswap 16
    exact ⟨h₁.trans ((congrArg _ h₃).trans (Bool.and_true _)), h₂.trans h₄⟩
  | word =>
    obtain ⟨h₁, h₂⟩ := hload (bpfLdx ||| bpfMem ||| bpfW) 4 (by rintro b (rfl | rfl) <;> decide) [.be32 r4]
    obtain ⟨h₃, h₄⟩ := hswap 32
    exact ⟨h₁.trans ((congrArg _ h₃).trans (Bool.and_true _)), h₂.trans h₄⟩

theorem map_ops (is : List Insn) : (ops is).map Cell.insn = is := by
  simp [ops, Function.comp_def]

theorem loadCode_insn (size : AccessSize) (off : Nat) : (loadCode size off).map Cell.insn =
    [.mov64Reg r5 r2, .add64Imm r5 (.ofNat (off + AccessSize.bytes size)), .jgtReg r5 r3 0] ++
      ldxBe size r4 r2 (.ofNat off) := by
  simp [loadCode, ops, failing, Function.comp_def]

theorem load_covered {size : AccessSize} {off : Nat}
    (h : covers (.ofNat (off + AccessSize.bytes size)) (.ofNat off) (AccessSize.bytes size) = true)
    (m : Mark) : Covered m (loadCode size off) none := by
  intro st _
  obtain ⟨h₁, h₂⟩ := check_bound (.inl rfl) (.ofNat (off + AccessSize.bytes size)) st
  rw [loadCode_insn, checked_append, h₁, h₂, (check_load (.inl rfl) ..).1, h]
  exact ⟨rfl, fun k hk => nomatch hk⟩

theorem bound_covered (m : Mark) (k : Int32) : Covered m (r6Code k) (some k) := by
  intro st _
  obtain ⟨h₁, h₂⟩ := check_bound (.inr rfl) k st
  refine ⟨h₁, fun k' hk => ?_⟩
  cases hk
  exact h₂

theorem behind_covered {size : AccessSize} {off : Int16} {k : Int32}
    (h : covers k off (AccessSize.bytes size) = true) :
    Covered (some k) (ops (ldxBe size r4 r6 off)) (some k) := by
  intro st hst
  obtain ⟨h₁, h₂⟩ := check_load (.inr rfl) size off k
  rw [hst k rfl, map_ops, h₁, h₂]
  exact ⟨h, fun k' hk => by cases hk; rfl⟩

theorem covers_small {size : AccessSize} {off : Nat} (h : off ≤ 32767) :
    covers (.ofNat (off + AccessSize.bytes size)) (.ofNat off) (AccessSize.bytes size) = true := by
  have hsize : AccessSize.bytes size ≤ 4 := by cases size <;> decide
  have h₁ : (Int16.ofNat off).toInt = off := Int16.toInt_ofNat_of_lt (by omega)
  have h₂ : (Int32.ofNat (off + AccessSize.bytes size)).toInt = off + AccessSize.bytes size := by
    rw [Int32.toInt_ofNat_of_lt (by omega)]
    omega
  unfold covers
  rw [h₁, h₂]
  simp

theorem op {code dst src : UInt8} {off : Int16} {imm : Int32}
    (h : plain code ((dst &&& 0xf) ||| ((src &&& (0xf : UInt8)) <<< (4 : UInt8))) = true) (m : Mark) :
    Covered m [.op (.new code dst src off imm)] m :=
  @one (.op (.new code dst src off imm)) h m

theorem skipping {i j : Insn} (m : Mark) (hi : IsTest i) (hj : IsTest j ∨ j = .ja 0) :
    Covered m (Frag.skipping i () [failing j]) m := by
  have hp : plain j.code j.regs = true := by
    rcases hj with hj | rfl
    · exact test hj
    · exact ja
  exact cons (test hi) (one hp m)

theorem branch (hc : Covered a c b) (hd : Covered b d m) :
    Covered a (Frag.branch (.jeqImm r4 0x0800 0) (.ja 0) () c d) m :=
  cons (test (.jeq _)) (hc.append (cons ja hd))

theorem alt (hc : Covered a c b) (hd : Covered b d m) :
    Covered a (Frag.alt (Cell.hole (.ja 0) ()) c d) m :=
  (hc.congr (resolve_insn ..)).append (cons ja hd)

theorem pointer (n : Nat) (m : Mark) : Covered m (ops (transportPointer n)) m :=
  (op (by decide) m).append ((op (by decide) m).append ((op (by decide) m).append
    ((op (by decide) m).append (op (by decide) m))))

theorem port {off : Nat} (h : off = 0 ∨ off = 2) : Covered (some 4) (portLoad off) (some 4) := by
  refine @behind_covered .half _ _ ?_
  rcases h with rfl | rfl <;> decide

theorem atoms : Atoms Covered where
  nil := nil
  append := append
  load m size off h := load_covered (covers_small (by omega)) m
  failing m _ h := one (test h) m
  leaving m _ h := one (test h) m
  either m i j hi hj := skipping m hi hj
  branch hc hd _ _ := branch hc hd
  alt hc hd _ := alt hc hd
  mask m k := op (by decide) m
  shift m := op (by decide) m
  pointer m n _ := pointer n m
  fixed m n _ := (op (by decide) m).append (op (by decide) m)
  bound m k := bound_covered m k
  port h := port h
  length m := (op (by decide) m).append (op (by decide) m)

end Covered

section Access

variable {link : LinkType} {ba : ByteAccess} {c : Code}

theorem ebpfAlu32_plain {op : ArithOp} {k : Int32} {i : Insn} (h : ebpfAlu32 op r4 k = .ok i) :
    plain i.code i.regs = true := by
  cases op with
  | div =>
    simp only [ebpfAlu32] at h
    split at h
    · cases h
    · cases h
      exact Covered.plain_new (by decide)
  | mod => cases h
  | _ => cases h; exact Covered.plain_new (by decide)

theorem alu_covered {is : List Insn} (h : aluCode ba.aluOps = .ok is) (m : Mark) :
    Covered m (ops is) m := by
  have hp : ∀ i ∈ is, plain i.code i.regs = true := by
    intro i hi
    obtain ⟨s, -, hs⟩ := aluCode_mem h hi
    exact ebpfAlu32_plain hs
  clear h
  induction is with
  | nil => exact .nil m
  | cons i is ih =>
    exact Covered.cons (hp i List.mem_cons_self) (ih fun j hj => hp j (List.mem_cons_of_mem _ hj))

theorem byteAccess_covered (hc : byteAccessCode link ba = .ok c) (hr : Reaches link ba) :
    Whole Covered c := by
  obtain ⟨h0, hle⟩ := hr
  obtain ⟨n, hn⟩ := Int.eq_ofNat_of_zero_le h0
  obtain ⟨hu, hoff, heq⟩ := offset_narrow hn
  obtain ⟨value, is, -, ha, ⟨-, -, rfl⟩ | ⟨-, -, rfl⟩⟩ := byteAccessCode_ok hc
  · refine Covered.atoms.access value (fun m => ?_) (alu_covered ha)
    rw [hoff, heq, ← Int32.ofNat_add]
    exact ⟨_, ((Covered.atoms.transport link m).append (Covered.bound_covered none _)).append
      (Covered.behind_covered (Covered.covers_small (by omega)))⟩
  · rw [hu]
    exact Covered.atoms.access value
      (fun m => ⟨none, Covered.load_covered (Covered.covers_small (by omega)) m⟩) (alu_covered ha)

/-- A check that covers a load is for an offset that the load can hold. -/
theorem covers_reach {size : AccessSize} {n : Nat} (hn : n + AccessSize.bytes size < 2 ^ 32)
    (h : covers (.ofNat (n + AccessSize.bytes size)) (.ofNat n) (AccessSize.bytes size) = true) :
    n ≤ 32767 := by
  have h16 : (Int16.ofNat n).toInt = (n : Int).bmod (2 ^ 16) := Int16.toInt_ofNat'
  have h32 : (Int32.ofNat (n + AccessSize.bytes size)).toInt =
      ((n + AccessSize.bytes size : Nat) : Int).bmod (2 ^ 32) := Int32.toInt_ofNat'
  simp only [covers, Bool.and_eq_true, Bool.or_eq_true, decide_eq_true_eq, beq_iff_eq] at h
  obtain ⟨hpos, heq | ⟨⟨hk, -⟩, -⟩⟩ := h
  · rw [h16, Int.bmod_def] at hpos heq
    rw [h32, Int.bmod_def] at heq
    split at hpos <;> split at heq <;> omega
  · rw [hk, Int.bmod_def] at h32
    have h4 : (4 : Int32).toInt = 4 := by decide
    rw [h4] at h32
    split at h32 <;> omega

/-- Where the loads of a byte access are covered its offset fits. -/
theorem byteAccess_reach (hc : byteAccessCode link ba = .ok c) (h0 : 0 ≤ ba.offset.toInt)
    {st : Check} (h : checked st (c.map Cell.insn) = true) : Reaches link ba := by
  obtain ⟨n, hn⟩ := Int.eq_ofNat_of_zero_le h0
  obtain ⟨hu, hoff, heq⟩ := offset_narrow hn
  obtain ⟨value, is, -, ha, ⟨ht, hsum, rfl⟩ | ⟨ht, hsum, rfl⟩⟩ := byteAccessCode_ok hc
  · rw [hoff, heq, ← Int32.ofNat_add] at h
    simp only [List.map_append, checked_append, Bool.and_eq_true] at h
    have hcov := h.1.1.2
    have hbound : after (after st ((transportCode link.netOffset).map Cell.insn))
        ((r6Code (.ofNat (n + AccessSize.bytes ba.size))).map Cell.insn) =
        .armed r6 (.ofNat (n + AccessSize.bytes ba.size)) := (Covered.check_bound (.inr rfl) _ _).2
    rw [after_append, hbound, Covered.map_ops, (Covered.check_load (.inr rfl) ..).1] at hcov
    have hle := covers_reach (by omega) hcov
    refine ⟨h0, ?_⟩
    have hbase : layerBase link ba = 0 := if_neg (by rw [ht]; decide)
    omega
  · rw [List.map_append, List.map_append, checked_append, checked_append, Covered.loadCode_insn,
      checked_append, (Covered.check_bound (.inl rfl) _ st).2,
      (Covered.check_load (.inl rfl) ..).1] at h
    simp only [Bool.and_eq_true] at h
    have hle := covers_reach hsum h.1.1.2
    refine ⟨h0, ?_⟩
    omega

end Access

section Program

variable {link : LinkType} {e : Expr} {c : Code}

theorem leaf_covered {p : Primitive} (hc : leafCode link p = .ok c)
    (hr : ∀ ba, p = .byteAccess ba → Reaches link ba) : Whole Covered c :=
  Covered.atoms.leaf hc fun ba hp => byteAccess_covered (by rw [hp] at hc; exact hc) (hr ba hp)

theorem expr_covered (hc : exprCode link e = .ok c) (hr : AllReach link e) : Whole Covered c := by
  induction e generalizing c with
  | primitive p => exact leaf_covered hc (hr p (by simp [Expr.leaves]))
  | and l r ihl ihr =>
    obtain ⟨a, b, ha, hb, rfl⟩ := exprCode_and hc
    have hl := ihl ha fun p hp => hr p (List.mem_append_left _ hp)
    have hr := ihr hb fun p hp => hr p (List.mem_append_right _ hp)
    intro m
    obtain ⟨m₁, h₁⟩ := hl m
    obtain ⟨m₂, h₂⟩ := hr m₁
    exact ⟨m₂, (h₁.congr (Covered.resolve_insn ..)).append h₂⟩
  | or l r ihl ihr =>
    obtain ⟨a, b, ha, hb, rfl⟩ := exprCode_or hc
    have hl := ihl ha fun p hp => hr p (List.mem_append_left _ hp)
    have hr := ihr hb fun p hp => hr p (List.mem_append_right _ hp)
    intro m
    obtain ⟨m₁, h₁⟩ := hl m
    obtain ⟨m₂, h₂⟩ := hr m₁
    exact ⟨m₂, h₁.alt h₂⟩
  | not e ih =>
    obtain ⟨a, ha, rfl⟩ := exprCode_not hc
    intro m
    obtain ⟨m₁, h₁⟩ := ih ha hr m
    exact ⟨m₁, (h₁.congr ((Covered.fold_insn _).trans (Covered.resolve_insn ..))).append
      (Covered.one Covered.ja m₁)⟩

/-- Each byte access of an expression whose loads are covered fits its load. -/
theorem expr_reach (hc : exprCode link e = .ok c)
    (h0 : ∀ ba, .byteAccess ba ∈ e.leaves → 0 ≤ ba.offset.toInt) {st : Check}
    (h : checked st (c.map Cell.insn) = true) : AllReach link e := by
  induction e generalizing c st with
  | primitive p =>
    intro q hq ba he
    have hp : p = .byteAccess ba := by
      rw [← he]
      exact (List.mem_singleton.mp hq).symm
    subst hp
    exact byteAccess_reach hc (h0 ba (by simp [Expr.leaves])) h
  | and l r ihl ihr =>
    obtain ⟨a, b, ha, hb, rfl⟩ := exprCode_and hc
    rw [Frag.seq, List.map_append, checked_append, Covered.resolve_insn, Bool.and_eq_true] at h
    intro p hp
    rcases List.mem_append.mp hp with hp | hp
    · exact ihl ha (fun ba hb => h0 ba (List.mem_append_left _ hb)) h.1 p hp
    · exact ihr hb (fun ba hb => h0 ba (List.mem_append_right _ hb)) h.2 p hp
  | or l r ihl ihr =>
    obtain ⟨a, b, ha, hb, rfl⟩ := exprCode_or hc
    rw [Frag.alt, List.map_append, checked_append, Covered.resolve_insn, List.map_cons, checked,
      Bool.and_eq_true, Bool.and_eq_true] at h
    intro p hp
    rcases List.mem_append.mp hp with hp | hp
    · exact ihl ha (fun ba hb => h0 ba (List.mem_append_left _ hb)) h.1 p hp
    · exact ihr hb (fun ba hb => h0 ba (List.mem_append_right _ hb)) h.2.2 p hp
  | not e ih =>
    obtain ⟨a, ha, rfl⟩ := exprCode_not hc
    rw [Frag.neg, List.map_append, checked_append, Covered.fold_insn, Covered.resolve_insn,
      Bool.and_eq_true] at h
    exact ih ha h0 h.1

/-- Filling the jumps of a program does not touch its loads and checks. -/
theorem checked_raw (h : Tidy c) (st : Check) :
    checked st (c.map (Cell.raw Insn.put)) = checked st (c.map Cell.insn) := by
  have hcell : ∀ a ∈ c, (a.raw Insn.put).code = a.insn.code ∧ (a.raw Insn.put).regs = a.insn.regs ∧
      (a.raw Insn.put).imm = a.insn.imm ∧
      (a.raw Insn.put = a.insn ∨ isLoad a.insn.code a.insn.regs = false) := by
    intro a ha
    have hj := h.jumps a ha
    obtain ⟨i, _ | ⟨k, n | x⟩⟩ := a
    · exact ⟨rfl, rfl, rfl, .inl rfl⟩
    · refine ⟨rfl, rfl, rfl, .inr ?_⟩
      have hne : (bpfJmp == bpfLdx) = false := by decide
      simp [isLoad, hj (by simp), hne]
    · exact ⟨rfl, rfl, rfl, .inl rfl⟩
  clear h
  induction c generalizing st with
  | nil => rfl
  | cons a c ih =>
    obtain ⟨h₁, h₂, h₃, h₄⟩ := hcell a List.mem_cons_self
    rw [List.map_cons, List.map_cons, checked, checked, h₁, h₂, h₃,
      ih _ fun b hb => hcell b (List.mem_cons_of_mem _ hb)]
    rcases h₄ with he | hl
    · rw [he]
    · rw [hl, Bool.not_false, Bool.true_or, Bool.true_or]

theorem program_insn (c : Code) :
    (program c).map Cell.insn = prologue ++ (c.map Cell.insn ++ epilogue) := by
  simp only [program, List.map_append, Covered.map_ops, Covered.resolve_insn]

theorem program_checked (c : Code) :
    checked .idle ((program c).map Cell.insn) = checked .idle (c.map Cell.insn) := by
  have hpro : checked .idle prologue = true ∧ after .idle prologue = .idle := by decide
  have hepi : ∀ st, checked st epilogue = true := checked_no_load (by decide)
  rw [program_insn, checked_append, checked_append, hpro.1, hpro.2, hepi]
  simp

/-- A run that no load outside the packet ended. -/
def InBounds (r : Except Fault Verdict) : Prop :=
  (∀ pc addr size, r ≠ .error (.outOfBounds pc addr size)) ∧
    ∀ pc addr size, r ≠ .error (.badCtxAccess pc addr size)

theorem inBounds_compile {prog : List Insn} (h : compile e link = .ok prog)
    (hr : AllReach link e) {pkt : Packet} {host : Endian} {limit : Nat} (hl : prog.length ≤ limit) :
    InBounds (runWithin pkt host prog limit) := by
  have he := @exec_compile pkt host _ _ _ h hr _ hl
  cases hv : exprVal pkt link e with
  | some b =>
    rw [hv] at he
    rw [runWithin_halt he]
    constructor <;> intro pc addr size hf <;> cases hf
  | none =>
    rw [hv] at he
    obtain ⟨f, hx, hk⟩ := he
    have hrun : runWithin pkt host prog limit = .error f := by
      unfold runWithin
      rw [hx]
      rfl
    rw [hrun]
    constructor <;> intro pc addr size hf <;> cases hf <;> cases hk

/-- The property that the offsets of byte accesses decide: no sum of the generator overflows,
the check in front of each load is for the bytes that it reads, and on every packet the
loads stay inside. -/
def MemorySafe (e : Expr) (link : LinkType) : Prop :=
  compile e link ≠ .error overflow ∧
    ∀ prog, compile e link = .ok prog → checked .idle prog = true ∧
      ∀ pkt host limit, prog.length ≤ limit → InBounds (runWithin pkt host prog limit)

/-- For filters that the generator does not refuse, memory safety is that every byte access
has an offset that fits the displacement of its load. -/
theorem compile_memorySafe {e : Expr} {link : LinkType}
    (h0 : ∀ ba, .byteAccess ba ∈ e.leaves → 0 ≤ ba.offset.toInt)
    (hok : ∀ message, compile e link ≠ .error (.codegenError message)) :
    MemorySafe e link ↔ ∀ ba, .byteAccess ba ∈ e.leaves →
      (layerBase link ba : Int) + ba.offset.toInt ≤ 32767 := by
  have hreach : AllReach link e ↔ ∀ ba, .byteAccess ba ∈ e.leaves →
      (layerBase link ba : Int) + ba.offset.toInt ≤ 32767 := by
    constructor
    · exact fun h ba hb => (h _ hb ba rfl).2
    · intro h p hp ba he
      subst he
      exact ⟨h0 ba hp, h ba hp⟩
  rw [← hreach]
  constructor
  · rintro ⟨hover, hsafe⟩
    cases hp : compile e link with
    | error err =>
      rcases compile_error hp with ⟨m, rfl⟩ | ⟨rfl, -⟩
      · exact absurd hp (hok m)
      · exact absurd hp hover
    | ok prog =>
      obtain ⟨hchecked, -⟩ := hsafe prog hp
      obtain ⟨c, hc, hf, rfl⟩ := compile_ok hp
      rw [checked_raw hf.tidy, program_checked] at hchecked
      exact expr_reach hc h0 hchecked
  · intro hr
    constructor
    · intro hp
      rcases compile_error hp with ⟨m, hm⟩ | ⟨-, ba, hb, hs⟩
      · cases hm
      · exact hs (hr _ hb ba rfl)
    · intro prog hp
      refine ⟨?_, fun pkt host limit hl => inBounds_compile hp hr hl⟩
      obtain ⟨c, hc, hf, rfl⟩ := compile_ok hp
      rw [checked_raw hf.tidy, program_checked]
      obtain ⟨m, hm⟩ := expr_covered hc hr none
      exact (hm .idle fun _ h => nomatch h).1

end Program

/-- `ether[32768] = 0`. -/
def farOffset : Expr := .primitive (.byteAccess ⟨.raw, 32768, .byte, [], .eq, .const 0⟩)

/-- `tcp[2147483647] = 0`. -/
def lastOffset : Expr := .primitive (.byteAccess ⟨.trans, 2147483647, .byte, [], .eq, .const 0⟩)

/-- The load of byte 32768 reads in front of the packet. -/
theorem far_load_stops {pkt : Packet} {host : Endian} (hlen : pkt.length = 32769) {s : Regs}
    (hs : Holds pkt none none s) :
    (machine pkt host).cells.run (loadCode .byte 32768) 0 s =
      .stop (.outOfBounds 0 (pktBase - 32768) 1) := by
  have hend : (dataEnd pkt).toNat = 0x10000002 + 32769 := by
    rw [dataEnd, hlen]
    decide
  have hcheck := @check_drops pkt host none none r2 2 (by decide) 0 32769 (by decide) (by decide)
    (fun s hs => by
      rw [hs.two]
      simp [addr])
  rw [hend, pktBase_toNat] at hcheck
  obtain ⟨s', hs', hr⟩ := hcheck s hs
  have hact : act pkt host 0 (.ldxB r4 r2 (.ofNat 32768)) s' =
      .error (.outOfBounds 0 (pktBase - 32768) 1) := by
    refine (act_ldx (d := 4) (q := 2) (by decide) (by decide) (by decide) hs'.two).trans ?_
    show (load _ pkt (pktBase + sext (Int16.ofNat 32768).toInt) 1 0).map _ = _
    have haddr : pktBase + sext (Int16.ofNat 32768).toInt = pktBase - 32768 := by decide
    have hctx : ¬(ctxBase ≤ pktBase - 32768 ∧ pktBase - 32768 < ctxBase + 8) := by decide
    have hpkt : ¬(pktBase ≤ pktBase - 32768 ∧ (pktBase - 32768 - pktBase).toNat + 1 ≤ pkt.length) :=
      fun h => absurd h.1 (by decide)
    rw [haddr, load, if_neg hctx, if_neg hpkt]
    rfl
  rw [loadCode, Machine.run_append]
  have hr' : (machine pkt host).cells.run
      (ops [.mov64Reg r5 r2, .add64Imm r5 (.ofNat (32768 + AccessSize.bytes .byte))] ++
        [failing (.jgtReg r5 r3 0)]) 0 s = .past 0 s' := hr
  rw [hr', Result.bind_past]
  exact Machine.run_stop (M := (machine pkt host).cells) hact

theorem program_stop {pkt : Packet} {host : Endian} {c : Code} {f : Fault}
    (h : ∀ s, Holds pkt none none s → (machine pkt host).cells.run c 0 s = .stop f) :
    (machine pkt host).cells.run (program c) 0 .start = .stop f := by
  have hx : ∀ i k y, (machine pkt host).tgt i k ≠ .exit y := fun _ _ _ => by simp [machine]
  obtain ⟨s, hs, hp⟩ := @prologue_runs pkt host .start rfl
  rw [program, Machine.run_append, hp, Result.bind_past, Machine.run_append,
    Machine.run_resolve _ hx, Machine.run_resolve _ hx, h s hs]
  rfl

/-- Of the two accesses one reads in front of the packet, the other overflows. -/
theorem far_offset_unsafe :
    ¬MemorySafe farOffset .ethernet ∧ ¬MemorySafe lastOffset .ethernet ∧
      (∃ prog, compile farOffset .ethernet = .ok prog ∧ ∀ pkt : Packet, pkt.length = 32769 →
        ∀ host, ∃ pc addr, runEbpf pkt host prog = .error (.outOfBounds pc addr 1)) ∧
      compile lastOffset .ethernet = .error overflow := by
  have hlast : compile lastOffset .ethernet = .error overflow := by decide
  refine ⟨?_, fun h => h.1 hlast, ?_, hlast⟩
  · rintro ⟨-, h⟩
    have hchecked := (h _ rfl).1
    revert hchecked
    decide
  · cases hp : compile farOffset .ethernet with
    | error err =>
      have hok : (compile farOffset .ethernet).isOk = true := by decide
      rw [hp] at hok
      cases hok
    | ok prog =>
      refine ⟨prog, rfl, fun pkt hlen host => ?_⟩
      have hl : prog.length ≤ stepLimit := by
        have hlen : ((compile farOffset .ethernet).toOption.map List.length) = some 11 := by
          decide
        rw [hp] at hlen
        rw [Option.some.inj hlen]
        decide
      obtain ⟨c, hc, hf, rfl⟩ := compile_ok hp
      have hcode : c = loadCode .byte 32768 ++ (ops [] ++ cmpCode .eq 0) := by
        have : exprCode .ethernet farOffset = .ok _ := rfl
        rw [this] at hc
        exact (Except.ok.inj hc).symm
      have he := @exec_agrees pkt host [] _ hf.forwards 0 stepLimit .start
        (by simpa using hl)
      rw [run_raw hf, program_stop (f := .outOfBounds 0 (pktBase - 32768) 1) fun s hs => by
        rw [hcode, Machine.run_append, far_load_stops hlen hs]
        rfl] at he
      obtain ⟨f, hx, hk⟩ := he
      cases f <;> simp only [kind, Fault.outOfBounds.injEq, reduceCtorEq] at hk
      rename_i pc addr size
      obtain ⟨-, rfl, rfl⟩ := hk
      refine ⟨pc, pktBase - 32768, ?_⟩
      show (exec pkt host _ stepLimit >>= _) = _
      rw [exec]
      exact congrArg (· >>= _) hx

theorem memorySafe_port : MemorySafe tcpNotHttp .ethernet := by
  refine (compile_memorySafe ?_ ?_).mpr ?_
  · simp [tcpNotHttp, Expr.leaves]
  · intro m hm
    have hok : (compile tcpNotHttp .ethernet).isOk = true := by decide +kernel
    rw [hm] at hok
    cases hok
  · simp [tcpNotHttp, Expr.leaves]

end PktBaffle.Proofs.Ebpf
