import PktBaffle.Proofs.Classic.Verdict
import PktBaffle.Proofs.Ebpf.Compile

namespace PktBaffle.Proofs.RawIp
open PktBaffle.Classic (LinkType)

/-- Whether a step of a byte access has an instruction, in either generator. -/
def encodes : ArithOp × UInt32 → Bool
  | (.mod, _) => false
  | (.div, operand) => operand != 0
  | _ => true

/-- The primitives that look at the link layer's own header. -/
def readsLink : Primitive → Bool
  | .host (.v6 _) _ => true
  | .net6 .. => true
  | .proto p => match p with
    | .ip6 | .arp | .rarp | .icmp6 | .ip6Proto _ => true
    | _ => false
  | .etherHost .. => true
  | .etherProto et => et != 0x0800
  | .etherMulticast => true
  | .ip6Multicast => true
  | .vlan _ => true
  | .mpls _ => true
  | .pppoeDiscovery => true
  | .pppoeSession _ => true
  | .ip6ProtoChain _ => true
  | .byteAccess ba => ba.layer == .raw || match ba.rhs with
    | .load l => l.layer == .raw
    | .const _ => false
  | _ => false

/-- The instructions of a byte access at a fixed offset, in the extended machine. -/
def accessLength (ba : ByteAccess) : Nat :=
  3 + (if ba.size = .byte then 1 else 2) + ba.aluOps.length + (if ba.op = .bitAnd then 2 else 1)

/-- A byte access no program can be made of, whatever it reads. -/
def Hopeless (ba : ByteAccess) : Prop :=
  (∃ s ∈ ba.aluOps, encodes s = false) ∨
    ((∃ v, ba.rhs = .const v) ∧
      (2 ^ 32 ≤ ba.offset.toUInt32.toNat + Extended.AccessSize.bytes ba.size ∨
        32769 < accessLength ba))

/-- Neither generator makes a program of `e`; and unless the offset of some byte access is out of
the reach of a load, the extended one says so in an error of its own. -/
structure Refuses (e : Expr) : Prop where
  classic : ∀ insns, Classic.compile e .rawIp ≠ .ok insns
  extended : ∀ insns, Extended.compile e .rawIp ≠ .ok insns
  error : ¬Ebpf.Strays .rawIp e → ∃ message, Extended.compile e .rawIp = .error (.codegenError message)

section Encodes

theorem aluInsn_encodes (s : ArithOp × UInt32) :
    (Classic.aluInsn s.1 s.2).toOption.isSome = encodes s := by
  obtain ⟨op, k⟩ := s
  cases op with
  | div => by_cases hk : k = 0 <;> simp [Classic.aluInsn, encodes, hk, Except.toOption]
  | _ => rfl

theorem toInt32_eq_zero (k : UInt32) : k.toInt32 = 0 ↔ k = 0 := by
  constructor
  · intro h
    have hk : k.toInt32.toUInt32 = (0 : Int32).toUInt32 := congrArg Int32.toUInt32 h
    rwa [UInt32.toUInt32_toInt32] at hk
  · rintro rfl
    rfl

theorem ebpfAlu32_encodes (s : ArithOp × UInt32) :
    (∃ i, Extended.ebpfAlu32 s.1 Ebpf.r4 s.2.toInt32 = .ok i) ↔ encodes s = true := by
  obtain ⟨op, k⟩ := s
  cases op with
  | div =>
    by_cases hk : k = 0
    · simp [Extended.ebpfAlu32, encodes, hk]
    · simp [Extended.ebpfAlu32, encodes, hk, toInt32_eq_zero]
  | mod => simp [Extended.ebpfAlu32, encodes]
  | _ => simp [Extended.ebpfAlu32, encodes]

/-- The arithmetic has code in the extended machine where every step has an instruction. -/
theorem aluCode_encodes {steps : List (ArithOp × UInt32)} (h : ∀ s ∈ steps, encodes s = true) :
    ∃ is, Ebpf.aluCode steps = .ok is ∧ is.length = steps.length := by
  induction steps with
  | nil => exact ⟨[], rfl, rfl⟩
  | cons s steps ih =>
    obtain ⟨i, hi⟩ := (ebpfAlu32_encodes s).mpr (h s List.mem_cons_self)
    obtain ⟨is, his, hl⟩ := ih fun t ht => h t (List.mem_cons_of_mem _ ht)
    obtain ⟨op, k⟩ := s
    exact ⟨i :: is, by simp [Ebpf.aluCode, hi, his], by simp [hl]⟩

theorem encodes_aluCode {steps : List (ArithOp × UInt32)} {is : List Ebpf.Insn}
    (h : Ebpf.aluCode steps = .ok is) : ∀ s ∈ steps, encodes s = true := by
  induction steps generalizing is with
  | nil => simp
  | cons s steps ih =>
    obtain ⟨op, k⟩ := s
    simp only [Ebpf.aluCode] at h
    split at h
    · rename_i i js hi hj
      intro t ht
      rcases List.mem_cons.mp ht with rfl | ht
      · exact (ebpfAlu32_encodes _).mp ⟨i, hi⟩
      · exact ih hj t ht
    · cases h
    · cases h

end Encodes

section Leaves

variable {p : Primitive} {ba : ByteAccess} {e : Expr}

theorem primOk_byteAccess :
    Classic.primOk (.byteAccess ba) .rawIp = (ba.aluOps.all encodes && match ba.rhs with
      | .const _ => ba.layer != .raw
      | .load _ => true) := by
  have hall : (fun s : ArithOp × UInt32 => (Classic.aluInsn s.1 s.2).toOption.isSome) = encodes :=
    funext aluInsn_encodes
  change (ba.aluOps.all (fun s => (Classic.aluInsn s.1 s.2).toOption.isSome) && _) = _
  rw [hall]
  cases ba.rhs <;> simp

theorem raw_of_readsLink {v : UInt32} (hl : readsLink (.byteAccess ba) = true)
    (hr : ba.rhs = .const v) : ba.layer = .raw := by
  change (ba.layer == .raw || match ba.rhs with
    | .load l => l.layer == .raw
    | .const _ => false) = true at hl
  simpa [hr] using hl

theorem toUInt32_ne {et : UInt16} (h : et ≠ 0x0800) : et.toUInt32 ≠ 0x0800 := by
  intro he
  exact h (by simpa using congrArg UInt32.toUInt16 he)

/-- The classic generator refuses every link-layer primitive but a byte access with a load on its
right side. -/
theorem classic_leaf (hl : readsLink p = true) :
    Classic.primOk p .rawIp = false ∨ ∃ ba l, p = .byteAccess ba ∧ ba.rhs = .load l := by
  cases p with
  | byteAccess ba =>
    cases hr : ba.rhs with
    | const v =>
      exact .inl (by simp [primOk_byteAccess, hr, raw_of_readsLink hl hr])
    | load l => exact .inr ⟨ba, l, rfl, hr⟩
  | host a dir =>
    cases a with
    | v4 => cases hl
    | v6 => exact .inl rfl
  | proto q =>
    cases q with
    | ip | tcp | udp | icmp | igmp | sctp | num => cases hl
    | ip6 | arp | rarp | icmp6 | ip6Proto => exact .inl rfl
  | etherProto et =>
    have het := toUInt32_ne (bne_iff_ne.mp hl)
    refine .inl ?_
    change ((false || et.toUInt32 == 0x0800) && true) = false
    simp [het]
  | mpls | etherHost | etherMulticast | net6 | ip6Multicast | vlan | pppoeDiscovery | pppoeSession
  | ip6ProtoChain => exact .inl rfl
  | port | portRange | net | ipBroadcast | ipMulticast | ipProtoChain | len | inbound | outbound =>
    cases hl

/-- The extended generator refuses every link-layer primitive but a byte access compared with a
constant. -/
theorem extended_leaf (hl : readsLink p = true) :
    (∀ c, Ebpf.leafCode .rawIp p ≠ .ok c) ∨ ∃ ba v, p = .byteAccess ba ∧ ba.rhs = .const v := by
  cases p with
  | byteAccess ba =>
    cases hr : ba.rhs with
    | const v => exact .inr ⟨ba, v, rfl, hr⟩
    | load l => exact .inl (by simp [Ebpf.leafCode, Ebpf.byteAccessCode, hr])
  | host a dir =>
    cases a with
    | v4 => cases hl
    | v6 => exact .inl (fun c h => by cases h)
  | proto q =>
    cases q with
    | ip | tcp | udp | icmp | igmp | sctp | num => cases hl
    | ip6 | arp | rarp | icmp6 | ip6Proto => exact .inl (fun c h => by cases h)
  | etherProto et =>
    have het := toUInt32_ne (bne_iff_ne.mp hl)
    exact .inl (by simp [Ebpf.leafCode, Ebpf.etherCode, LinkType.etherProtoOffset, het])
  | vlan id | pppoeSession id => cases id <;> exact .inl (fun c h => by cases h)
  | mpls | etherHost | etherMulticast | net6 | ip6Multicast | pppoeDiscovery | ip6ProtoChain =>
    exact .inl (fun c h => by cases h)
  | port | portRange | net | ipBroadcast | ipMulticast | ipProtoChain | len | inbound | outbound =>
    cases hl

theorem compile_leaf_ok {insns : List Bpf.Insn} (h : Classic.compile e .rawIp = .ok insns)
    (hp : p ∈ e.leaves) : Classic.primOk p .rawIp = true :=
  (Classic.compileWith_ok.mp h).1.1.leaves p hp

theorem exprCode_leaf_ok {link : LinkType} {c : Ebpf.Code} (h : Ebpf.exprCode link e = .ok c)
    (hp : p ∈ e.leaves) : ∃ d, Ebpf.leafCode link p = .ok d := by
  induction e generalizing c with
  | primitive q =>
    rcases List.mem_singleton.mp hp with rfl
    exact ⟨c, h⟩
  | and l r ihl ihr =>
    obtain ⟨a, b, ha, hb, -⟩ := Ebpf.exprCode_and h
    rcases List.mem_append.mp hp with hp | hp
    · exact ihl ha hp
    · exact ihr hb hp
  | or l r ihl ihr =>
    obtain ⟨a, b, ha, hb, -⟩ := Ebpf.exprCode_or h
    rcases List.mem_append.mp hp with hp | hp
    · exact ihl ha hp
    · exact ihr hb hp
  | not e ih =>
    obtain ⟨a, ha, -⟩ := Ebpf.exprCode_not h
    exact ih ha hp

end Leaves

section Far

open Forward

variable {K : Nat} {c d : Ebpf.Code}

/-- Some failure jump of the code has at least `K` instructions to cross. -/
def Far (K : Nat) (l : Ebpf.Code) : Prop :=
  ∃ i a, l[i]? = some a ∧
    ((a.slot = some ((), .exit .failure) ∧ i + K < l.length) ∨
      ∃ n, a.slot = some ((), .skip n) ∧ K < n)

theorem Far.append_left (h : Far K c) : Far K (c ++ d) := by
  obtain ⟨i, a, ha, h⟩ := h
  have hi := (List.getElem?_eq_some_iff.mp ha).1
  refine ⟨i, a, by rw [List.getElem?_append_left hi, ha], h.imp_left fun ⟨hs, hk⟩ => ⟨hs, ?_⟩⟩
  rw [List.length_append]
  omega

theorem Far.append_right (h : Far K d) : Far K (c ++ d) := by
  obtain ⟨i, a, ha, h⟩ := h
  refine ⟨c.length + i, a, by rw [List.getElem?_append_right (by omega)]; simpa using ha,
    h.imp_left fun ⟨hs, hk⟩ => ⟨hs, ?_⟩⟩
  rw [List.length_append]
  omega

theorem Far.resolve_success (h : Far K c) (n : Nat) : Far K (Frag.resolve .success n c) := by
  obtain ⟨i, a, ha, h⟩ := h
  obtain ⟨hi, rfl⟩ := List.getElem?_eq_some_iff.mp ha
  refine ⟨i, _, Frag.resolve_get .success n c i hi, ?_⟩
  rcases h with ⟨hs, hk⟩ | ⟨m, hs, hk⟩
  · exact .inl ⟨by simp [Cell.fill, hs], by simpa using hk⟩
  · exact .inr ⟨m, by simp [Cell.fill, hs], hk⟩

/-- A failure jump lands behind the code it leaves and not directly behind it. -/
theorem Far.resolve_failure (h : Far K c) {n : Nat} (hn : 0 < n) :
    Far K (Frag.resolve .failure n c) := by
  obtain ⟨i, a, ha, h⟩ := h
  obtain ⟨hi, rfl⟩ := List.getElem?_eq_some_iff.mp ha
  refine ⟨i, _, Frag.resolve_get .failure n c i hi, .inr ?_⟩
  rcases h with ⟨hs, hk⟩ | ⟨m, hs, hk⟩
  · exact ⟨c.length - i - 1 + n, by simp [Cell.fill, hs], by omega⟩
  · exact ⟨m, by simp [Cell.fill, hs], hk⟩

theorem Far.fold (h : Far K c) : Far K (Frag.fold c) := by
  obtain ⟨i, a, ha, h⟩ := h
  refine ⟨i, a.fold, by simp [Frag.fold, ha], ?_⟩
  rcases h with ⟨hs, hk⟩ | ⟨m, hs, hk⟩
  · exact .inl ⟨by simp [Cell.fold, hs], by simpa [Frag.fold] using hk⟩
  · exact .inr ⟨m, by simp [Cell.fold, hs], hk⟩

/-- A far jump of a primitive stays far wherever the primitive stands. -/
theorem exprCode_far {link : LinkType} {e : Expr} {p : Primitive} (hp : p ∈ e.leaves)
    (hd : Ebpf.leafCode link p = .ok d) (hf : Far K d) (h : Ebpf.exprCode link e = .ok c) :
    Far K c := by
  induction e generalizing c with
  | primitive q =>
    rcases List.mem_singleton.mp hp with rfl
    have heq : d = c := Except.ok.inj (hd.symm.trans h)
    exact heq ▸ hf
  | and l r ihl ihr =>
    obtain ⟨a, b, ha, hb, rfl⟩ := Ebpf.exprCode_and h
    rcases List.mem_append.mp hp with hp | hp
    · exact ((ihl hp ha).resolve_success 0).append_left
    · exact (ihr hp hb).append_right
  | or l r ihl ihr =>
    obtain ⟨a, b, ha, hb, rfl⟩ := Ebpf.exprCode_or h
    rcases List.mem_append.mp hp with hp | hp
    · exact ((ihl hp ha).resolve_failure Nat.one_pos).append_left
    · rw [Frag.alt, ← List.singleton_append]
      exact (ihr hp hb).append_right.append_right
  | not e ih =>
    obtain ⟨a, ha, rfl⟩ := Ebpf.exprCode_not h
    exact ((ih hp ha).resolve_failure Nat.one_pos).fold.append_left

theorem far_not_finished (h : Far 32767 c) : ¬Ebpf.Finished (Ebpf.program c) := by
  intro hf
  obtain ⟨i, a, ha, h⟩ := ((h.resolve_success 0).resolve_failure (n := 2) (by omega)).append_left
    (d := Ebpf.ops Ebpf.epilogue) |>.append_right (c := Ebpf.ops Ebpf.prologue)
  rcases h with ⟨hs, -⟩ | ⟨n, hs, hn⟩
  · exact hf.filled a (List.mem_of_getElem? ha) _ _ hs
  · have := hf.tidy.within a (List.mem_of_getElem? ha) _ n hs
    omega

end Far

section Negated

open Forward Extended

variable {link : LinkType} {p : Primitive} {c : Ebpf.Code}

/-- A primitive without success jumps, behind whose two first instructions the failure jumps stand:
its negation is emitted unless the code is too long for them. -/
theorem emitTree_not {cg : Codegen} {i j : Ebpf.Insn} {rest : Ebpf.Code}
    (hc : Ebpf.leafCode cg.link p = .ok c) (he : c = .op i :: .op j :: rest)
    (hs : ∀ b, Frag.slots .success b c = []) (hl : c.length ≤ 32769) :
    ∃ k cg', Ebpf.emitTree (.not (.primitive p)) cg = .ok (⟨[], [((), k)]⟩, cg') ∧
      cg'.insns.length = k + 1 := by
  have hy := Ebpf.emitPrimitive_yields cg p
  rw [hc] at hy
  obtain ⟨q, hq, hsucc, hfail⟩ := hy
  have hnil : q.success = [] := by
    rw [List.eq_nil_iff_forall_not_mem]
    intro r hr
    rw [hsucc, hs] at hr
    cases hr
  have hlen : (Ebpf.placed cg c).insns.length = cg.insns.length + c.length := Ebpf.placed_length ..
  -- The failures of the primitive cross what follows them and the jump behind it.
  have hfar : ∀ r ∈ q.failure, r.2 < (Ebpf.placed cg c).insns.length + 1 ∧
      (Ebpf.placed cg c).insns.length + 1 - r.2 - 1 ≤ 32767 ∧
      r.2 < (Ebpf.placed (Ebpf.placed cg c) [.op (.ja 0)]).insns.length := by
    intro r hr
    obtain ⟨k, hk, hpos, hslot⟩ := Frag.mem_slots.mp ((hfail r).mp hr)
    rw [hlen, Ebpf.placed_length _ [.op (.ja 0)], hlen]
    match k with
    | 0 | 1 => simp [he] at hslot
    | k + 2 => omega
  have hrun := Ebpf.resolveAll_run (Ebpf.placed (Ebpf.placed cg c) [.op (.ja 0)]) hfar
  have hend : (Ebpf.placed (Ebpf.placed cg c) [.op (.ja 0)]).insns.length =
      (Ebpf.placed cg c).insns.length + 1 := Ebpf.placed_length ..
  refine ⟨(Ebpf.placed cg c).insns.length, ⟨patchAll Ebpf.Insn.put q.failure
    ((Ebpf.placed cg c).insns.length + 1) (Ebpf.placed (Ebpf.placed cg c) [.op (.ja 0)]).insns,
    cg.link⟩, ?_, ?_⟩
  · change (emitPrimitive p >>= _) cg = _
    rw [Ebpf.bind_run hq, Ebpf.bind_run (Ebpf.push_op _ _), Ebpf.insnsLen_bind, hend,
      Ebpf.bind_run hrun, hnil]
    rfl
  · simp only [patchAll_length, hend]

end Negated

section Access

open Forward

variable {ba : ByteAccess} {e : Expr} {v : UInt32}

theorem cmpCode_length (op : CmpOp) (v : UInt32) :
    (Ebpf.cmpCode op v).length = if op = .bitAnd then 2 else 1 := by
  cases op <;> rfl

theorem ldxBe_length (size : AccessSize) (dst src : UInt8) (off : Int16) :
    (Extended.ldxBe size dst src off).length = if size = .byte then 1 else 2 := by
  cases size <;> rfl

/-- The code of an access at a fixed offset behind its first jump. -/
theorem access_length (off : Nat) {is : List Ebpf.Insn} (hi : is.length = ba.aluOps.length) :
    (Ebpf.loadCode ba.size off ++ Ebpf.ops is ++ Ebpf.cmpCode ba.op v).length = accessLength ba := by
  simp only [Ebpf.loadCode, List.length_append, Ebpf.ops_length, cmpCode_length, ldxBe_length, hi,
    accessLength, List.length_cons, List.length_nil]

theorem access_success (off : Nat) (is : List Ebpf.Insn) (b : Nat) :
    Frag.slots .success b (Ebpf.loadCode ba.size off ++ Ebpf.ops is ++ Ebpf.cmpCode ba.op v) = [] := by
  have hcmp : ∀ n, Frag.slots .success n (Ebpf.cmpCode ba.op v) = [] := by
    intro n
    cases ba.op <;> rfl
  simp only [Ebpf.loadCode, Frag.slots_append, Ebpf.slots_ops, hcmp, List.append_nil,
    List.nil_append]
  rfl

theorem aluCode_length {steps : List (ArithOp × UInt32)} {is : List Ebpf.Insn}
    (h : Ebpf.aluCode steps = .ok is) : is.length = steps.length := by
  obtain ⟨js, hj, hl⟩ := aluCode_encodes (encodes_aluCode h)
  cases h.symm.trans hj
  exact hl

/-- No program holds a byte access with no instruction, or with a jump that cannot be taken. -/
theorem hopeless_extended (hraw : ba.layer = .raw) (h : Hopeless ba)
    (he : .byteAccess ba ∈ e.leaves) : ∀ insns, Extended.compile e .rawIp ≠ .ok insns := by
  intro insns hc
  obtain ⟨c, hcode, hfin, -⟩ := Ebpf.compile_ok hc
  obtain ⟨d, hd⟩ := exprCode_leaf_ok hcode he
  obtain ⟨value, is, hv, ha, ⟨ht, -⟩ | ⟨-, hoff, hshape⟩⟩ := Ebpf.byteAccessCode_ok hd
  · rw [hraw] at ht
    cases ht
  rcases h with ⟨s, hs, hbad⟩ | ⟨-, hover | hlong⟩
  · rw [encodes_aluCode ha s hs] at hbad
    cases hbad
  · simp only [Ebpf.layerBase, hraw] at hoff
    simp at hoff
    omega
  · have hlen : d.length = accessLength ba := by
      rw [hshape]
      exact access_length _ (aluCode_length ha)
    refine far_not_finished (exprCode_far he hd ?_ hcode) hfin
    refine ⟨2, Ebpf.failing (.jgtReg Ebpf.r5 Ebpf.r3 0), ?_, .inl ⟨rfl, by omega⟩⟩
    rw [hshape]
    rfl

/-- The negation of every other one has a program. -/
theorem hopeful_extended (hr : ba.rhs = .const v) (hraw : ba.layer = .raw) (h : ¬Hopeless ba) :
    ∃ insns, Extended.compile (.not (.primitive (.byteAccess ba))) .rawIp = .ok insns := by
  simp only [Hopeless, not_or, not_exists, not_and, Bool.not_eq_false] at h
  obtain ⟨henc, hfit⟩ := h
  obtain ⟨hoff, hlen⟩ := hfit ⟨v, hr⟩
  obtain ⟨is, ha, hi⟩ := aluCode_encodes henc
  have hc : Ebpf.leafCode .rawIp (.byteAccess ba) =
      .ok (Ebpf.loadCode ba.size (0 + ba.offset.toUInt32.toNat) ++ Ebpf.ops is ++
        Ebpf.cmpCode ba.op v) := by
    simp only [Ebpf.leafCode, Ebpf.byteAccessCode, hr, hraw, ha]
    rw [if_neg (by decide), if_pos (by simpa using hoff)]
    rfl
  obtain ⟨k, cg, ht, hk⟩ := @emitTree_not _ _
    (Ebpf.placed (Extended.Codegen.new .rawIp) (Ebpf.ops Ebpf.prologue)) _ _ _ hc rfl
    (access_success _ _) (by rw [access_length _ hi]; omega)
  obtain ⟨insns, hc, -⟩ := Ebpf.compile_of_tree ht fun r hr => by
    rcases hr with hr | hr
    · cases hr
    · rcases List.mem_singleton.mp hr with rfl
      exact ⟨by omega, by omega⟩
  exact ⟨insns, hc⟩

end Access

/-- `ether[0] = 0` -/
def macIsZero : ByteAccess := ⟨.raw, 0, .byte, [], .eq, .const 0⟩

/-- `ether[0] = ip[0]` -/
def macIsIp : ByteAccess := ⟨.raw, 0, .byte, [], .eq, .load ⟨.net, 0, .byte⟩⟩

end PktBaffle.Proofs.RawIp
