import PktBaffle.Forward.Shape
import PktBaffle.Proofs.Classic.Hoist

namespace PktBaffle.Proofs.Classic
open Bpf Forward PktBaffle.Classic

def divCode : UInt16 := bpfAlu ||| bpfDiv ||| bpfK
def ldxMemCode : UInt16 := bpfLdx ||| bpfW ||| bpfMem

/-- The opcodes the generator uses with any operand, besides jumps and returns. -/
def plainCodes : List UInt16 :=
  [bpfW, bpfH, bpfB].map (bpfLd ||| · ||| bpfAbs) ++ [bpfW, bpfH, bpfB].map (bpfLd ||| · ||| bpfInd) ++
  [bpfLd ||| bpfLen, bpfLdx ||| bpfB ||| bpfMsh, bpfLdx ||| bpfW ||| bpfImm, bpfMisc ||| bpfTax] ++
  [bpfAnd, bpfOr, bpfXor, bpfAdd, bpfSub, bpfMul, bpfLsh, bpfRsh].map (bpfAlu ||| · ||| bpfK)

def branchCodes : List UInt16 :=
  [bpfJeq, bpfJgt, bpfJge, bpfJset].map (bpfJmp ||| · ||| bpfK) ++
  [bpfJeq, bpfJgt, bpfJge, bpfJset].map (bpfJmp ||| · ||| bpfX)

/-- An instruction that neither jumps nor returns: no division by zero, and no scratch slot
but the first. -/
def plain (i : Insn) : Bool :=
  plainCodes.contains i.code || (i.code == divCode && i.k != 0) ||
    ((i.code == bpfSt || i.code == ldxMemCode) && i.k == 0)

/-- The one symbolic slot of a jump is the one that leads away: the other branch falls
through. -/
def shaped (a : Cell Insn Slot) : Bool :=
  match a.slot with
  | none => plain a.insn
  | some (.jt, _) => branchCodes.contains a.insn.code && a.insn.jf == 0
  | some (.jf, _) => branchCodes.contains a.insn.code && a.insn.jt == 0
  | some (.ja, _) => a.insn.code == bpfJmp ||| bpfJa

theorem shaped_blind : Blind (fun a : Cell Insn Slot => shaped a = true) where
  fill := by
    rintro ⟨i, _ | ⟨k, t | y⟩⟩ x n h
    · exact h
    · exact h
    · by_cases hy : y = x
      · simp only [Cell.fill, hy, if_true]
        cases k <;> exact h
      · simp only [Cell.fill, hy, if_false]
        exact h
  fold := by
    rintro ⟨i, _ | ⟨k, t | y⟩⟩ h
    · exact h
    · exact h
    · cases k <;> exact h

/-- Code as the generator writes it. -/
structure Solid (c : Code) : Prop where
  shaped : ∀ a ∈ c, shaped a = true
  closed : Frag.Closed c

namespace Solid

variable {c c₁ c₂ : Code}

theorem nil : Solid [] := ⟨fun _ ha => absurd ha List.not_mem_nil, trivial⟩

theorem append (h₁ : Solid c₁) (h₂ : Solid c₂) : Solid (c₁ ++ c₂) :=
  ⟨fun a ha => (List.mem_append.mp ha).elim (h₁.shaped a) (h₂.shaped a),
    h₁.closed.append h₂.closed⟩

/-- Code without a filled slot. -/
theorem of_open (hs : ∀ a ∈ c, Classic.shaped a = true)
    (ho : ∀ a ∈ c, ∀ k n, a.slot ≠ some (k, .skip n)) : Solid c := by
  refine ⟨hs, ?_⟩
  induction c with
  | nil => trivial
  | cons a c ih =>
    exact ⟨fun k n h => absurd h (ho a List.mem_cons_self k n),
      ih (fun b hb => hs b (List.mem_cons_of_mem _ hb))
        (fun b hb => ho b (List.mem_cons_of_mem _ hb))⟩

theorem ops {is : List Insn} (h : ∀ i ∈ is, plain i = true) : Solid (ops is) := by
  refine of_open (fun a ha => ?_) (fun a ha k n => ?_)
  · obtain ⟨i, hi, rfl⟩ := List.mem_map.mp ha
    exact h i hi
  · obtain ⟨i, -, rfl⟩ := List.mem_map.mp ha
    simp

theorem single {a : Cell Insn Slot} (h : Classic.shaped a = true)
    (ho : ∀ k n, a.slot ≠ some (k, .skip n)) : Solid [a] :=
  of_open (fun _ hb => List.mem_singleton.mp hb ▸ h) (fun _ hb => List.mem_singleton.mp hb ▸ ho)

theorem seq (h₁ : Solid c₁) (h₂ : Solid c₂) : Solid (Frag.seq c₁ c₂) :=
  ⟨shaped_blind.seq h₁.shaped h₂.shaped, h₁.closed.seq h₂.closed⟩

theorem alt (h₁ : Solid c₁) (h₂ : Solid c₂) : Solid (Frag.alt Piece.jaCell c₁ c₂) :=
  ⟨shaped_blind.alt (fun _ => rfl) h₁.shaped h₂.shaped,
    h₁.closed.alt (fun k n => by simp [Piece.jaCell]) h₂.closed⟩

theorem neg (h : Solid c) : Solid (Frag.neg Piece.jaCell c) :=
  ⟨shaped_blind.neg (fun _ => rfl) h.shaped, h.closed.neg (fun k n => by simp [Piece.jaCell])⟩

end Solid

section Plain

variable (k : UInt32)

theorem plain_of_code {i : Insn} (h : plainCodes.contains i.code = true) : plain i = true := by
  simp only [plain, h, Bool.true_or]

@[simp] theorem plain_ldwAbs : plain (.ldwAbs k) = true :=
  plain_of_code (by simp +decide only [Insn.ldwAbs])

@[simp] theorem plain_ldhAbs : plain (.ldhAbs k) = true :=
  plain_of_code (by simp +decide only [Insn.ldhAbs])

@[simp] theorem plain_ldbAbs : plain (.ldbAbs k) = true :=
  plain_of_code (by simp +decide only [Insn.ldbAbs])

@[simp] theorem plain_ldwInd : plain (.ldwInd k) = true :=
  plain_of_code (by simp +decide only [Insn.ldwInd])

@[simp] theorem plain_ldhInd : plain (.ldhInd k) = true :=
  plain_of_code (by simp +decide only [Insn.ldhInd])

@[simp] theorem plain_ldbInd : plain (.ldbInd k) = true :=
  plain_of_code (by simp +decide only [Insn.ldbInd])

@[simp] theorem plain_ldxMsh : plain (.ldxMsh k) = true :=
  plain_of_code (by simp +decide only [Insn.ldxMsh])

@[simp] theorem plain_ldxImm : plain (.ldxImm k) = true :=
  plain_of_code (by simp +decide only [Insn.ldxImm])

@[simp] theorem plain_andK : plain (.andK k) = true :=
  plain_of_code (by simp +decide only [Insn.andK])

@[simp] theorem plain_rshK : plain (.rshK k) = true :=
  plain_of_code (by simp +decide only [Insn.rshK])

theorem plain_sized (off : Nat) (size : AccessSize) (ind : Bool) :
    plain (sizedInsn off size ind) = true := by
  cases size <;> cases ind <;> simp [sizedInsn]

theorem plain_alu {op : ArithOp} {i : Insn} (h : aluInsn op k = .ok i) : plain i = true := by
  cases op with
  | div =>
    simp only [aluInsn] at h
    split at h
    · cases h
    · rename_i hk
      cases h
      have hc : ((Insn.divK k).code == divCode) = true := beq_self_eq_true divCode
      have hk' : ((Insn.divK k).k != 0) = true := bne_iff_ne.mpr hk
      simp only [plain, hc, hk', Bool.and_true, Bool.or_true, Bool.true_or]
  | mod => cases h
  | _ =>
    cases h
    refine plain_of_code ?_
    simp +decide only [Insn.andK, Insn.orK, Insn.xorK, Insn.addK, Insn.subK, Insn.mulK,
      Insn.lshK, Insn.rshK]

theorem plain_aluCode (alu : List (ArithOp × UInt32)) : ∀ i ∈ aluCode alu, plain i = true := by
  intro i hi
  obtain ⟨⟨op, operand⟩, -, he⟩ := List.mem_filterMap.mp hi
  cases hr : aluInsn op operand with
  | error e => simp [hr, Except.toOption] at he
  | ok j =>
    simp only [hr, Except.toOption, Option.some.injEq] at he
    exact plain_alu operand (he ▸ hr)

end Plain

section Codes

@[simp] theorem shaped_op (i : Insn) : shaped (.op i) = plain i := rfl

@[simp] theorem shaped_jeqFail (k : UInt32) : shaped (jeqFail k) = true := by
  simp +decide only [shaped, jeqFail, Cell.hole, Insn.jeqK]

theorem shaped_cmp (op : CmpOp) (v : UInt32) : shaped (cmpCell (cmpInsn op v)) = true := by
  cases op <;> simp +decide only [shaped, cmpCell, cmpInsn, Cell.hole, Insn.jeqK, Insn.jgtK,
    Insn.jgeK, Insn.jsetK]

theorem shaped_cmpX (op : CmpOp) : shaped (cmpCell (cmpXInsn op)) = true := by
  cases op <;> decide

theorem solid_test {load : Insn} (h : plain load = true) (k : UInt32) : Solid (test load k) := by
  refine Solid.of_open ?_ (by simp [test, jeqFail])
  simp [test, h]

/-- Loads and a comparison. -/
theorem solid_loads {l : List Insn} (h : ∀ i ∈ l, plain i = true) {a : Cell Insn Slot}
    (ha : shaped a = true) (ho : ∀ k n, a.slot ≠ some (k, .skip n)) :
    Solid (ops l ++ [a]) := (Solid.ops h).append (Solid.single ha ho)

theorem solid_addrCode {l : Nat → List Insn} (h : ∀ off, ∀ i ∈ l off, plain i = true)
    (k : UInt32) (src dst : Nat) (dir : Dir) : Solid (addrCode l k src dst dir) := by
  have unit : ∀ off, Solid (ops (l off) ++ [jeqFail k]) := fun off =>
    solid_loads (h off) (by simp) (by simp [jeqFail])
  cases dir with
  | src => exact unit src
  | dst => exact unit dst
  | srcAndDst => exact (unit src).append (unit dst)
  | srcOrDst =>
    refine Solid.append (solid_loads (h src) ?_ (by simp)) (unit dst)
    simp +decide only [shaped, Cell.hole, Insn.jeqK]

theorem solid_bothCode {check : Nat → Code} (h : ∀ off, Solid (check off))
    (src dst first second : Nat) (dir : Dir) : Solid (bothCode check src dst first second dir) := by
  cases dir with
  | src => exact h src
  | dst => exact h dst
  | srcAndDst => exact (h first).append (h second)
  | srcOrDst => exact (h first).alt (h second)

theorem solid_segsCode (off i : Nat) (segs : List UInt16) : Solid (segsCode off i segs) := by
  induction segs generalizing i with
  | nil => exact Solid.nil
  | cons seg segs ih => exact (solid_test (by simp) _).append (ih _)

theorem solid_net6Code (prefixLen off i : Nat) (segs : List UInt16) :
    Solid (net6Code prefixLen off i segs) := by
  induction segs generalizing i with
  | nil => exact Solid.nil
  | cons seg segs ih =>
    unfold net6Code
    split
    · exact Solid.nil
    · refine Solid.append ?_ (ih _)
      split
      · exact solid_test (by simp) _
      · exact Solid.of_open (by simp) (by simp [jeqFail])

theorem solid_rangeCode (lo hi : UInt16) (off : Nat) : Solid (rangeCode lo hi off) := by
  refine Solid.of_open ?_ (by simp [rangeCode])
  simp +decide [rangeCode, shaped, Cell.hole, Insn.jgeK, Insn.jgtK, Cell.op]

theorem solid_macCode (addr : MacAddr) (off : Nat) : Solid (macCode addr off) :=
  (solid_test (by simp) _).append (solid_test (by simp) _)

theorem solid_mplsCode (label : Option UInt32) (off : Nat) : Solid (mplsCode label off) := by
  have hhead : Solid [.op (.ldhAbs (.ofNat off)), .hole (.jeqK 0x8847 0xff 0) .jt .success,
      jeqFail 0x8848] := by
    refine Solid.of_open ?_ (by simp [jeqFail])
    simp only [List.forall_mem_cons, shaped_op, plain_ldhAbs, shaped_jeqFail, true_and]
    exact ⟨rfl, fun a ha => absurd ha List.not_mem_nil⟩
  cases label with
  | none => exact hhead
  | some lbl => exact hhead.append (Solid.of_open (by simp) (by simp [jeqFail]))

theorem plain_loadSide (layer : Layer) (off : UInt32) (size : AccessSize) (net : Nat) (msh : Bool) :
    ∀ i ∈ loadSide layer off size net msh, plain i = true := by
  intro i hi
  unfold loadSide at hi
  split at hi
  · rcases List.mem_append.mp hi with hi | hi
    · cases msh
      · cases hi
      · rw [List.mem_singleton.mp hi]
        simp
    · rw [List.mem_singleton.mp hi]
      exact plain_sized _ _ _
  · rw [List.mem_singleton.mp hi]
    exact plain_sized _ _ _

theorem solid_constCode (ba : ByteAccess) (value : UInt32) (net : Nat) :
    Solid (constCode ba value net) := by
  refine solid_loads (fun i hi => ?_) (shaped_cmp _ _) (by simp [cmpCell])
  rcases List.mem_append.mp hi with hi | hi
  · cases hl : ba.layer <;> simp only [hl, List.mem_cons, List.not_mem_nil, or_false] at hi
    · exact hi ▸ plain_sized _ _ _
    · exact hi ▸ plain_sized _ _ _
    · rcases hi with rfl | rfl
      · simp
      · exact plain_sized _ _ _
  · exact plain_aluCode _ i hi

theorem solid_loadCode (ba : ByteAccess) (rhs : ByteLoad) (net : Nat) :
    Solid (loadCode ba rhs net) := by
  refine solid_loads (fun i hi => ?_) (shaped_cmpX _) (by simp [cmpCell])
  split at hi
  · simp only [List.mem_append, List.mem_singleton] at hi
    rcases hi with (((hi | hi) | rfl) | hi) | rfl
    · exact plain_loadSide _ _ _ _ _ i hi
    · exact plain_aluCode _ i hi
    · decide
    · exact plain_loadSide _ _ _ _ _ i hi
    · decide
  · simp only [List.mem_append, List.mem_singleton] at hi
    rcases hi with ((rfl | hi) | rfl) | rfl
    · exact plain_sized _ _ _
    · exact plain_aluCode _ i hi
    · decide
    · exact plain_sized _ _ _

theorem solid_body (p : Primitive) (link : LinkType) (depth : Nat) : Solid (body p link depth) := by
  cases p with
  | host addr dir =>
    cases addr with
    | v4 a => exact solid_addrCode (l := fun off => [.ldwAbs (.ofNat off)]) (by simp) _ _ _ _
    | v6 a => exact solid_bothCode (fun _ => solid_segsCode _ _ _) _ _ _ _ _
  | net n dir =>
    exact solid_addrCode (l := fun off => [.ldwAbs (.ofNat off), .andK n.mask]) (by simp) _ _ _ _
  | net6 n dir => exact solid_bothCode (fun _ => solid_net6Code _ _ _ _) _ _ _ _ _
  | port port dir proto =>
    exact solid_addrCode (l := fun off => [.ldhInd (.ofNat off)]) (by simp) _ _ _ _
  | portRange lo hi dir proto => exact solid_bothCode (solid_rangeCode lo hi) _ _ _ _ _
  | etherHost addr dir => exact solid_bothCode (solid_macCode addr) _ _ _ _ _
  | etherMulticast =>
    refine Solid.of_open ?_ (by simp [body])
    simp only [body, List.forall_mem_cons, shaped_op, plain_ldbAbs, true_and]
    exact ⟨rfl, fun a ha => absurd ha List.not_mem_nil⟩
  | ipBroadcast => exact solid_test (by simp) _
  | ipMulticast => exact Solid.of_open (by simp [body]) (by simp [body, jeqFail])
  | ip6Multicast => exact solid_test (by simp) _
  | vlan id =>
    cases id with
    | none => exact Solid.nil
    | some vid => exact Solid.of_open (by simp [body]) (by simp [body, jeqFail])
  | mpls label => exact solid_mplsCode _ _
  | pppoeSession sid =>
    cases sid with
    | none => exact Solid.nil
    | some id => exact solid_test (by simp) _
  | len op value =>
    exact solid_loads (l := [.ldLen]) (by decide) (shaped_cmp _ _) (by simp [cmpCell])
  | byteAccess ba =>
    simp only [body]
    cases ba.rhs with
    | const value => exact solid_constCode _ _ _
    | load rhs => exact solid_loadCode _ _ _
  | proto | etherProto | pppoeDiscovery | ipProtoChain | ip6ProtoChain | inbound | outbound =>
    exact Solid.nil

theorem solid_l4Check (want : L4Set) : Solid (l4Check want) := by
  cases want with
  | one n => exact Solid.single (by simp) (by simp [jeqFail])
  | tcpOrUdp =>
    refine ⟨?_, ⟨?_, (Solid.single (shaped_jeqFail 17) (by simp [jeqFail])).closed⟩⟩
    · simp only [l4Check, List.forall_mem_cons, shaped_jeqFail, true_and]
      exact ⟨rfl, fun a ha => absurd ha List.not_mem_nil⟩
    · simp

theorem solid_loadL4 (off : Nat) (want : L4Set) : Solid (loadL4 off want) :=
  (Solid.single (a := .op (.ldbAbs (.ofNat off))) (by simp) (by simp)).append (solid_l4Check want)

theorem solid_fragMsh (net : Nat) : Solid (fragMsh net) := by
  refine Solid.of_open ?_ (by simp [fragMsh])
  simp only [fragMsh, List.forall_mem_cons, shaped_op, plain_ldhAbs, plain_ldxMsh, true_and]
  exact ⟨rfl, fun a ha => absurd ha List.not_mem_nil⟩

theorem solid_ldx40 : Solid ldx40 := Solid.single (by simp) (by simp)

theorem solid_dualCode (want : L4Set) (etherOff net : Nat) : Solid (dualCode want etherOff net) := by
  have h4 := (solid_loadL4 (net + 9) want).append (solid_fragMsh net)
  have h6 := (solid_loadL4 (net + 6) want).append solid_ldx40
  refine ⟨fun a ha => ?_, ?_⟩
  · simp only [dualCode, List.cons_append, List.nil_append, List.mem_cons, List.mem_append] at ha
    rcases ha with rfl | rfl | rfl | ha | rfl | ha
    · simp
    · rfl
    · simp
    · exact h4.shaped a (List.mem_append.mpr ha)
    · rfl
    · exact h6.shaped a (List.mem_append.mpr ha)
  · have htail : Frag.Closed (⟨.ja 0, some (.ja, .skip (loadL4 (net + 6) want ++ ldx40).length)⟩ ::
        (loadL4 (net + 6) want ++ ldx40)) := ⟨by simp, h6.closed⟩
    refine ⟨by simp, ?_, ?_, h4.closed.append htail⟩
    · intro k n hn
      simp only [Option.some.injEq, Prod.mk.injEq, Target.skip.injEq] at hn
      rw [← hn.2]
      simp
    · simp [jeqFail]

theorem solid_knownPrereqs (want : L4Set) (off : Nat) (ready : Option L4Set) (known : Option UInt8)
    (check : UInt8 → Check) {tail : Code} (ht : Solid tail) (depth : Nat) :
    Solid (knownPrereqs want off ready known check tail depth).1.code := by
  have hl := solid_loadL4 off want
  unfold knownPrereqs
  split
  · exact hl
  · split
    · split
      · exact ht
      · exact hl.append ht
    · exact hl.append ht

theorem solid_asmEthertype (et : UInt32) (ctx : Ctx) : Solid (asmEthertype et ctx).1.code := by
  unfold asmEthertype
  split
  · split
    · exact Solid.nil
    · exact solid_test (by simp) _
  · exact Solid.nil

theorem solid_skipVersion (et : UInt32) (ctx : Ctx) : Solid (skipVersion et ctx).code := by
  unfold skipVersion
  split <;> exact Solid.nil

theorem solid_asmPortPrereqs (want : L4Set) (ctx : Ctx) :
    Solid (asmPortPrereqs want ctx).1.code := by
  have prologue : Solid (asmPortPrologue want ctx).1.code := by
    unfold asmPortPrologue
    dsimp only
    split
    · exact (solid_skipVersion _ _).append (solid_knownPrereqs _ _ _ _ _ (solid_fragMsh _) _)
    · split
      · exact (solid_skipVersion _ _).append (solid_knownPrereqs _ _ _ _ _ solid_ldx40 _)
      · exact solid_dualCode _ _ _
  unfold asmPortPrereqs
  split
  · split
    · exact Solid.nil
    · exact prologue
  · exact prologue

theorem solid_asmGuard (g : Guard) (ctx : Ctx) : Solid (asmGuard g ctx).1.code := by
  cases g with
  | none => exact Solid.nil
  | ethertype et => exact solid_asmEthertype et ctx
  | ip4 n =>
    simp only [asmGuard, asmIp4L4]
    split
    · exact (solid_asmEthertype _ _).append Solid.nil
    · exact (solid_asmEthertype _ _).append (solid_test (by simp) _)
  | ip6 n =>
    simp only [asmGuard, asmIp6L4]
    split
    · exact (solid_asmEthertype _ _).append Solid.nil
    · exact (solid_asmEthertype _ _).append (solid_test (by simp) _)
  | ports set => exact solid_asmPortPrereqs set ctx

theorem solid_asmGuards (gs : List Guard) (ctx : Ctx) : Solid (asmGuards gs ctx).1.code := by
  induction gs generalizing ctx with
  | nil => exact Solid.nil
  | cons g gs ih => exact (solid_asmGuard g ctx).append (ih _)

theorem solid_asmPrimitive (p : Primitive) (ctx : Ctx) : Solid (asmPrimitive p ctx).1.code :=
  (solid_asmGuard _ _).append (solid_body _ _ _)

/-- Everything the generator writes is solid, whether or not it fits the slots. -/
theorem solid_asm (mode : HoistMode) (e : Expr) (ctx : Ctx) : Solid (asm mode e ctx).1.code := by
  induction e generalizing ctx with
  | primitive p => exact solid_asmPrimitive p ctx
  | and l r hl hr => exact (hl _).seq (hr _)
  | or l r hl hr => exact (solid_asmGuards _ _).append ((hl _).alt (hr _))
  | not e ih => exact (ih _).neg

/-- Open code has no filled slot to speak of. -/
theorem within_open {c : Code} (h : ∀ a ∈ c, ∀ k n, a.slot ≠ some (k, .skip n)) :
    Frag.Within 255 c := fun a ha k n hn => absurd hn (h a ha k n)

theorem open_ops (is : List Insn) {a : Cell Insn Slot} (ho : ∀ k n, a.slot ≠ some (k, .skip n)) :
    ∀ b ∈ ops is ++ [a], ∀ k n, b.slot ≠ some (k, .skip n) := by
  intro b hb
  rcases List.mem_append.mp hb with hb | hb
  · obtain ⟨i, -, rfl⟩ := List.mem_map.mp hb
    simp
  · rw [List.mem_singleton.mp hb]
    exact ho

theorem addrCode_length (load : Nat → List Insn) (k : UInt32) (src dst : Nat) (dir : Dir)
    (h : ∀ off, (load off).length ≤ 2) : (addrCode load k src dst dir).length ≤ 100 := by
  have hs := h src
  have hd := h dst
  cases dir <;> simp [addrCode, ops] <;> omega

theorem bothCode_length {check : Nat → Code} (h : ∀ off, (check off).length ≤ 40)
    (src dst first second : Nat) (dir : Dir) :
    (bothCode check src dst first second dir).length ≤ 100 := by
  have hs := h src
  have hd := h dst
  have h1 := h first
  have h2 := h second
  cases dir <;> simp [bothCode, Frag.alt] <;> omega

/-- Only a byte access can have long code, and it jumps only at its end. -/
theorem body_length (p : Primitive) (link : LinkType) (depth : Nat) :
    (body p link depth).length ≤ 100 ∨ (guardOf p = .none ∧ ∃ is a, body p link depth = ops is ++ [a] ∧
      ∃ k, k ≠ .ja ∧ a.slot = some (k, .exit .failure)) := by
  cases p with
  | host addr dir =>
    cases addr with
    | v4 a =>
      simp only [body]
      exact .inl (addrCode_length _ _ _ _ _ (by simp))
    | v6 a =>
      simp only [body]
      refine .inl (bothCode_length (fun off => ?_) _ _ _ _ _)
      have := segsCode_length off 0 a.segments.toList
      simp at this
      omega
  | net n dir =>
    simp only [body]
    exact .inl (addrCode_length _ _ _ _ _ (by simp))
  | net6 n dir =>
    simp only [body]
    refine .inl (bothCode_length (fun off => ?_) _ _ _ _ _)
    have := net6Code_length n.prefixLen.toNat off 0 n.addr.segments.toList
    simp at this
    omega
  | port port dir proto =>
    simp only [body]
    exact .inl (addrCode_length _ _ _ _ _ (by simp))
  | portRange lo hi dir proto =>
    simp only [body]
    exact .inl (bothCode_length (fun _ => by simp [rangeCode]) _ _ _ _ _)
  | etherHost addr dir =>
    simp only [body]
    exact .inl (bothCode_length (fun _ => by simp [macCode, test]) _ _ _ _ _)
  | vlan id => exact .inl (by cases id <;> simp [body])
  | mpls label => exact .inl (by cases label <;> simp [body, mplsCode])
  | pppoeSession sid => exact .inl (by cases sid <;> simp [body, test])
  | byteAccess ba =>
    simp only [body]
    cases ba.rhs with
    | const value =>
      refine .inr ⟨rfl, _, _, rfl, _, ?_, rfl⟩
      cases ba.op <;> simp [cmpInsn]
    | load rhs =>
      refine .inr ⟨rfl, _, _, rfl, _, ?_, rfl⟩
      cases ba.op <;> simp [cmpXInsn]
  | _ => exact .inl (by simp [body, test])

theorem body_within (p : Primitive) (link : LinkType) (depth : Nat) :
    Frag.Within 255 (body p link depth) := by
  rcases body_length p link depth with h | ⟨-, is, a, he, k, -, ha⟩
  · exact (solid_body p link depth).closed.within (by omega)
  · rw [he]
    exact within_open (open_ops is (by simp [ha]))

theorem loadL4_length (off : Nat) (want : L4Set) : (loadL4 off want).length ≤ 3 := by
  cases want <;> simp [loadL4, l4Check]

theorem knownPrereqs_length (want : L4Set) (off : Nat) (ready : Option L4Set) (known : Option UInt8)
    (check : UInt8 → Check) (tail : Code) (ht : tail.length ≤ 3) (depth : Nat) :
    (knownPrereqs want off ready known check tail depth).1.code.length ≤ 6 := by
  have hl := loadL4_length off want
  unfold knownPrereqs
  split
  · simp only
    omega
  · split
    · split
      · simp only
        omega
      · simp only [List.length_append]
        omega
    · simp only [List.length_append]
      omega

theorem asmEthertype_length (et : UInt32) (ctx : Ctx) :
    (asmEthertype et ctx).1.code.length ≤ 2 := by
  unfold asmEthertype
  split
  · split <;> simp [Piece.skip, test]
  · simp [Piece.empty]

theorem skipVersion_code (et : UInt32) (ctx : Ctx) : (skipVersion et ctx).code = [] := by
  unfold skipVersion
  split <;> rfl

theorem asmPortPrereqs_length (want : L4Set) (ctx : Ctx) :
    (asmPortPrereqs want ctx).1.code.length ≤ 20 := by
  have prologue : (asmPortPrologue want ctx).1.code.length ≤ 20 := by
    unfold asmPortPrologue
    dsimp only
    split
    · have := knownPrereqs_length want (ctx.netOffset + 9) ctx.facts.portsReady ctx.facts.ip4Proto
        .ip4Proto (fragMsh ctx.netOffset) (Nat.le_refl 3) ctx.vlanDepth
      simp only [Piece.append, skipVersion_code, List.nil_append]
      omega
    · split
      · have := knownPrereqs_length want (ctx.netOffset + 6) ctx.facts.portsReady ctx.facts.ip6Nh
          .ip6Nh ldx40 (by simp [ldx40]) ctx.vlanDepth
        simp only [Piece.append, skipVersion_code, List.nil_append]
        omega
      · have h9 := loadL4_length (ctx.netOffset + 9) want
        have h6 := loadL4_length (ctx.netOffset + 6) want
        simp [dualCode, fragMsh, ldx40]
        omega
  unfold asmPortPrereqs
  split
  · split
    · simp [Piece.skip]
    · exact prologue
  · exact prologue

theorem asmGuard_length (g : Guard) (ctx : Ctx) : (asmGuard g ctx).1.code.length ≤ 20 := by
  cases g with
  | none => simp [asmGuard, Piece.empty]
  | ethertype et =>
    have := asmEthertype_length et ctx
    simp only [asmGuard]
    omega
  | ip4 n =>
    have := asmEthertype_length 0x0800 ctx
    simp only [asmGuard, asmIp4L4]
    split <;> simp [Piece.append, Piece.skip, test] <;> omega
  | ip6 n =>
    have := asmEthertype_length 0x86dd ctx
    simp only [asmGuard, asmIp6L4]
    split <;> simp [Piece.append, Piece.skip, test] <;> omega
  | ports set => exact asmPortPrereqs_length set ctx

theorem asmGuard_within (g : Guard) (ctx : Ctx) : Frag.Within 255 (asmGuard g ctx).1.code := by
  have := asmGuard_length g ctx
  exact (solid_asmGuard g ctx).closed.within (by omega)

theorem asmGuards_within (gs : List Guard) (ctx : Ctx) :
    Frag.Within 255 (asmGuards gs ctx).1.code := by
  induction gs generalizing ctx with
  | nil => exact Frag.within_nil
  | cons g gs ih => exact (asmGuard_within g ctx).append (ih _)

theorem asmPrimitive_within (p : Primitive) (ctx : Ctx) :
    Frag.Within 255 (asmPrimitive p ctx).1.code :=
  (asmGuard_within _ _).append (body_within _ _ _)

end Codes

end PktBaffle.Proofs.Classic
