import PktBaffle.Proofs.Classic.Compositional

namespace PktBaffle.Proofs.Classic
open Bpf Forward PktBaffle.Classic PktBaffle.Optimizer PktBaffle.Proofs.Optimizer

def lenCode : UInt16 := bpfLd ||| bpfLen

/-- The opcodes of all checks but the length test and the comparison of two loads. -/
def commonCodes : List UInt16 :=
  divCode :: (bpfJmp ||| bpfJa) :: (plainCodes.erase lenCode ++ branchCodes)

def common (i : Insn) : Bool := commonCodes.contains i.code

def Common (c : Code) : Prop := ∀ a ∈ c, common a.insn = true

section Code

variable {c c₁ c₂ : Code}

@[simp] theorem common_nil : Common [] := fun _ ha => absurd ha List.not_mem_nil

@[simp] theorem common_cons {a : Cell Insn Slot} :
    Common (a :: c) ↔ common a.insn = true ∧ Common c := List.forall_mem_cons

@[simp] theorem common_append : Common (c₁ ++ c₂) ↔ Common c₁ ∧ Common c₂ :=
  List.forall_mem_append

theorem common_ops {l : List Insn} (h : ∀ i ∈ l, common i = true) : Common (ops l) := by
  intro a ha
  obtain ⟨i, hi, rfl⟩ := List.mem_map.mp ha
  exact h i hi

theorem common_blind : Blind (fun a : Cell Insn Slot => common a.insn = true) where
  fill a x n h := by rwa [Cell.fill_insn]
  fold a h := by rwa [Cell.fold_insn]

end Code

section Codes

variable (k : UInt32) (jt jf : UInt8)

@[simp] theorem common_ldwAbs : common (.ldwAbs k) = true := rfl
@[simp] theorem common_ldhAbs : common (.ldhAbs k) = true := rfl
@[simp] theorem common_ldbAbs : common (.ldbAbs k) = true := rfl
@[simp] theorem common_ldhInd : common (.ldhInd k) = true := rfl
@[simp] theorem common_ldxMsh : common (.ldxMsh k) = true := rfl
@[simp] theorem common_ldxImm : common (.ldxImm k) = true := rfl
@[simp] theorem common_andK : common (.andK k) = true := rfl
@[simp] theorem common_rshK : common (.rshK k) = true := rfl
@[simp] theorem common_jeqK : common (.jeqK k jt jf) = true := rfl
@[simp] theorem common_jgtK : common (.jgtK k jt jf) = true := rfl
@[simp] theorem common_jgeK : common (.jgeK k jt jf) = true := rfl
@[simp] theorem common_jsetK : common (.jsetK k jt jf) = true := rfl
@[simp] theorem common_ja : common (.ja k) = true := rfl

theorem common_sized (off : Nat) (size : AccessSize) (ind : Bool) :
    common (sizedInsn off size ind) = true := by
  cases size <;> cases ind <;> rfl

theorem common_cmp (op : CmpOp) : common (cmpCell (cmpInsn op k)).insn = true := by
  cases op <;> rfl

theorem common_cmpX (op : CmpOp) : common (cmpCell (cmpXInsn op)).insn = true := by
  cases op <;> rfl

theorem common_alu {op : ArithOp} {i : Insn} (h : aluInsn op k = .ok i) : common i = true := by
  cases op with
  | div =>
    simp only [aluInsn] at h
    split at h
    · cases h
    · cases h
      rfl
  | mod => cases h
  | _ =>
    cases h
    rfl

theorem common_aluCode (alu : List (ArithOp × UInt32)) : ∀ i ∈ aluCode alu, common i = true := by
  intro i hi
  obtain ⟨⟨op, operand⟩, -, he⟩ := List.mem_filterMap.mp hi
  cases hr : aluInsn op operand with
  | error e => simp [hr, Except.toOption] at he
  | ok j =>
    simp only [hr, Except.toOption, Option.some.injEq] at he
    exact common_alu operand (he ▸ hr)

theorem common_loadSide (layer : Layer) (off : UInt32) (size : AccessSize) (net : Nat)
    (msh : Bool) : ∀ i ∈ loadSide layer off size net msh, common i = true := by
  unfold loadSide
  split
  · cases msh <;> simp [common_sized]
  · simp [common_sized]

end Codes

section Bodies

theorem common_test {load : Insn} (h : common load = true) (k : UInt32) :
    Common (test load k) := by
  simp [test, jeqFail, Cell.hole, h]

theorem common_alt {c d : Code} (hc : Common c) (hd : Common d) :
    Common (Frag.alt Piece.jaCell c d) :=
  common_blind.alt (fun _ => common_ja 0) hc hd

theorem common_addrCode {l : Nat → List Insn} (h : ∀ off, ∀ i ∈ l off, common i = true)
    (k : UInt32) (src dst : Nat) (dir : Dir) : Common (addrCode l k src dst dir) := by
  cases dir <;> simp [addrCode, common_ops (h _), jeqFail, Cell.hole]

theorem common_bothCode {check : Nat → Code} (h : ∀ off, Common (check off))
    (src dst first second : Nat) (dir : Dir) :
    Common (bothCode check src dst first second dir) := by
  cases dir with
  | src => exact h src
  | dst => exact h dst
  | srcAndDst => exact common_append.mpr ⟨h first, h second⟩
  | srcOrDst => exact common_alt (h first) (h second)

theorem common_segsCode (off i : Nat) (segs : List UInt16) : Common (segsCode off i segs) := by
  induction segs generalizing i with
  | nil => exact common_nil
  | cons seg segs ih => exact common_append.mpr ⟨common_test (by simp) _, ih _⟩

theorem common_net6Code (len off i : Nat) (segs : List UInt16) :
    Common (net6Code len off i segs) := by
  induction segs generalizing i with
  | nil => exact common_nil
  | cons seg segs ih =>
    unfold net6Code
    split
    · exact common_nil
    · refine common_append.mpr ⟨?_, ih _⟩
      split
      · exact common_test (by simp) _
      · simp [jeqFail, Cell.hole]

theorem common_loads {l : List Insn} (h : ∀ i ∈ l, common i = true) {a : Cell Insn Slot}
    (ha : common a.insn = true) : Common (ops l ++ [a]) :=
  common_append.mpr ⟨common_ops h, common_cons.mpr ⟨ha, common_nil⟩⟩

theorem common_constCode (ba : ByteAccess) (value : UInt32) (net : Nat) :
    Common (constCode ba value net) := by
  refine common_loads (List.forall_mem_append.mpr ⟨?_, common_aluCode _⟩) (common_cmp _ _)
  cases ba.layer <;> simp [common_sized]

/-- The two checks that look elsewhere than at the packet's bytes. -/
def singular : Primitive → Bool
  | .len .. => true
  | .byteAccess ba => match ba.rhs with
    | .load _ => true
    | .const _ => false
  | _ => false

/-- All other checks are made of common instructions. -/
theorem common_body {p : Primitive} (h : singular p = false) (link : LinkType) (depth : Nat) :
    Common (body p link depth) := by
  cases p with
  | host addr dir =>
    cases addr with
    | v4 a => exact common_addrCode (l := fun off => [.ldwAbs (.ofNat off)]) (by simp) _ _ _ _
    | v6 a => exact common_bothCode (fun _ => common_segsCode _ _ _) _ _ _ _ _
  | net n dir =>
    exact common_addrCode (l := fun off => [.ldwAbs (.ofNat off), .andK n.mask]) (by simp) _ _ _ _
  | net6 n dir => exact common_bothCode (fun _ => common_net6Code _ _ _ _) _ _ _ _ _
  | port port dir proto =>
    exact common_addrCode (l := fun off => [.ldhInd (.ofNat off)]) (by simp) _ _ _ _
  | portRange lo hi dir proto =>
    have hrange : ∀ off, Common (rangeCode lo hi off) := fun off => by simp [rangeCode, Cell.hole]
    exact common_bothCode hrange _ _ _ _ _
  | etherHost addr dir =>
    have hmac : ∀ off, Common (macCode addr off) := fun off =>
      common_append.mpr ⟨common_test (by simp) _, common_test (by simp) _⟩
    exact common_bothCode hmac _ _ _ _ _
  | etherMulticast => simp [body, Cell.hole]
  | ipBroadcast => exact common_test (by simp) _
  | ipMulticast => simp [body, jeqFail, Cell.hole]
  | ip6Multicast => exact common_test (by simp) _
  | vlan id => cases id <;> simp [body, jeqFail, Cell.hole]
  | mpls label => cases label <;> simp [body, mplsCode, jeqFail, Cell.hole]
  | pppoeSession sid =>
    cases sid with
    | none => exact common_nil
    | some id => exact common_test (by simp) _
  | len op value => cases h
  | byteAccess ba =>
    simp only [body]
    cases hr : ba.rhs with
    | const value => exact common_constCode _ _ _
    | load rhs =>
      simp only [singular, hr] at h
      cases h
  | proto | etherProto | pppoeDiscovery | ipProtoChain | ip6ProtoChain | inbound | outbound =>
    exact common_nil

end Bodies

section Guards

theorem common_asmEthertype (et : UInt32) (ctx : Ctx) : Common (asmEthertype et ctx).1.code := by
  unfold asmEthertype
  split
  · split
    · exact common_nil
    · exact common_test (by simp) _
  · exact common_nil

theorem common_loadL4 (off : Nat) (want : L4Set) : Common (loadL4 off want) := by
  cases want <;> simp [loadL4, l4Check, jeqFail, Cell.hole]

theorem common_fragMsh (net : Nat) : Common (fragMsh net) := by
  simp [fragMsh, Cell.hole]

theorem common_ldx40 : Common ldx40 := by
  simp [ldx40]

theorem common_dualCode (want : L4Set) (etherOff net : Nat) :
    Common (dualCode want etherOff net) := by
  simp [dualCode, common_loadL4, common_fragMsh, common_ldx40, jeqFail, Cell.hole]

theorem common_knownPrereqs (want : L4Set) (off : Nat) (ready : Option L4Set) (known : Option UInt8)
    (check : UInt8 → Check) {tail : Code} (ht : Common tail) (depth : Nat) :
    Common (knownPrereqs want off ready known check tail depth).1.code := by
  have hl := common_loadL4 off want
  unfold knownPrereqs
  split
  · exact hl
  · split
    · split
      · exact ht
      · exact common_append.mpr ⟨hl, ht⟩
    · exact common_append.mpr ⟨hl, ht⟩

theorem common_asmPortPrereqs (want : L4Set) (ctx : Ctx) :
    Common (asmPortPrereqs want ctx).1.code := by
  have skip : ∀ et, Common (skipVersion et ctx).code := by
    intro et
    rw [skipVersion_code]
    exact common_nil
  have prologue : Common (asmPortPrologue want ctx).1.code := by
    unfold asmPortPrologue
    dsimp only
    split
    · exact common_append.mpr ⟨skip _, common_knownPrereqs _ _ _ _ _ (common_fragMsh _) _⟩
    · split
      · exact common_append.mpr ⟨skip _, common_knownPrereqs _ _ _ _ _ common_ldx40 _⟩
      · exact common_dualCode _ _ _
  unfold asmPortPrereqs
  split
  · split
    · exact common_nil
    · exact prologue
  · exact prologue

theorem common_asmGuard (g : Guard) (ctx : Ctx) : Common (asmGuard g ctx).1.code := by
  cases g with
  | none => exact common_nil
  | ethertype et => exact common_asmEthertype et ctx
  | ip4 n =>
    simp only [asmGuard, asmIp4L4]
    split
    · exact common_append.mpr ⟨common_asmEthertype _ _, common_nil⟩
    · exact common_append.mpr ⟨common_asmEthertype _ _, common_test (by simp) _⟩
  | ip6 n =>
    simp only [asmGuard, asmIp6L4]
    split
    · exact common_append.mpr ⟨common_asmEthertype _ _, common_nil⟩
    · exact common_append.mpr ⟨common_asmEthertype _ _, common_test (by simp) _⟩
  | ports set => exact common_asmPortPrereqs set ctx

theorem common_asmGuards (gs : List Guard) (ctx : Ctx) : Common (asmGuards gs ctx).1.code := by
  induction gs generalizing ctx with
  | nil => exact common_nil
  | cons g gs ih => exact common_append.mpr ⟨common_asmGuard g ctx, ih _⟩

end Guards

/-- A property of instructions that the common ones have holds throughout an expression's code
once it holds in the bodies of its primitives. -/
theorem every_asm {P : Insn → Prop} (hP : ∀ i, common i = true → P i) (mode : HoistMode) {e : Expr}
    (hb : ∀ p ∈ e.leaves, ∀ link depth, ∀ a ∈ body p link depth, P a.insn) (ctx : Ctx) :
    ∀ a ∈ (asm mode e ctx).1.code, P a.insn := by
  have hblind : Blind (fun a : Cell Insn Slot => P a.insn) := {
    fill := fun a x n h => by rwa [Cell.fill_insn]
    fold := fun a h => by rwa [Cell.fold_insn] }
  have hja : ∀ x, P (Piece.jaCell x).insn := fun _ => hP _ (common_ja 0)
  induction e generalizing ctx with
  | primitive p =>
    refine List.forall_mem_append.mpr ⟨fun a ha => hP _ (common_asmGuard _ _ a ha), ?_⟩
    exact hb p List.mem_cons_self _ _
  | and l r hl hr =>
    obtain ⟨h₁, h₂⟩ := List.forall_mem_append.mp hb
    exact hblind.seq (hl h₁ _) (hr h₂ _)
  | or l r hl hr =>
    obtain ⟨h₁, h₂⟩ := List.forall_mem_append.mp hb
    refine List.forall_mem_append.mpr ⟨fun a ha => hP _ (common_asmGuards _ _ a ha), ?_⟩
    exact hblind.alt hja (hl h₁ _) (hr h₂ _)
  | not e ih => exact hblind.neg hja (ih hb _)

end PktBaffle.Proofs.Classic
