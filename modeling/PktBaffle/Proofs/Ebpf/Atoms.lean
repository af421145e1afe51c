import PktBaffle.Proofs.Ebpf.Outcomes

namespace PktBaffle.Proofs.Ebpf
open PktBaffle.Ebpf Forward PktBaffle.Extended
open PktBaffle.Classic (LinkType)

/-- The comparisons of R4 with an immediate. -/
inductive IsTest : Insn → Prop
  | jeq (k : Int32) : IsTest (.jeqImm r4 k 0)
  | jne (k : Int32) : IsTest (.jneImm r4 k 0)
  | jgt (k : Int32) : IsTest (.jgtImm r4 k 0)
  | jge (k : Int32) : IsTest (.jgeImm r4 k 0)
  | jlt (k : Int32) : IsTest (.jltImm r4 k 0)
  | jle (k : Int32) : IsTest (.jleImm r4 k 0)
  | jset (k : Int32) : IsTest (.jsetImm r4 k 0)

/-- How many bytes behind R6 the last bounds check was for, if it was for R6. -/
abbrev Mark := Option Int32

/-- A property of code that holds of the pieces of every primitive but a byte access, and is
kept when they are put together. It may follow the bounds checks in the order of emission. -/
structure Atoms (P : Mark → Code → Mark → Prop) : Prop where
  nil : ∀ m, P m [] m
  append : ∀ {a b m c d}, P a c b → P b d m → P a (c ++ d) m
  load : ∀ m size {off}, off ≤ 100 → P m (loadCode size off) none
  failing : ∀ m {i}, IsTest i → P m [failing i] m
  leaving : ∀ m {i}, IsTest i → P m [leaving i] m
  either : ∀ m {i j}, IsTest i → IsTest j ∨ j = .ja 0 → P m (Frag.skipping i () [Ebpf.failing j]) m
  branch : ∀ {a b m c d}, P a c b → P b d m → c.length ≤ 100 → d.length ≤ 100 →
    P a (Frag.branch (.jeqImm r4 0x0800 0) (.ja 0) () c d) m
  alt : ∀ {a b m c d}, P a c b → P b d m → c.length ≤ 100 →
    P a (Frag.alt (Cell.hole (.ja 0) ()) c d) m
  mask : ∀ m k, P m (ops [.and32Imm r4 k]) m
  shift : ∀ m, P m (ops [.rsh32Imm r4 12]) m
  pointer : ∀ m {n}, n ≤ 16 → P m (ops (transportPointer n)) m
  fixed : ∀ m {n}, n ≤ 56 → P m (ops [.mov64Reg r6 r2, .add64Imm r6 (.ofNat n)]) m
  bound : ∀ m k, P m (r6Code k) (some k)
  port : ∀ {off}, off = 0 ∨ off = 2 → P (some 4) (portLoad off) (some 4)
  length : ∀ m, P m (ops [.mov64Reg r4 r3, .sub64Reg r4 r2]) m

/-- The property wherever the code stands. -/
def Whole (P : Mark → Code → Mark → Prop) (c : Code) : Prop := ∀ m, ∃ m', P m c m'

namespace Atoms

variable {P : Mark → Code → Mark → Prop} (h : Atoms P) {link : LinkType} {c d : Code} {m m' : Mark}
include h

theorem whole_nil : Whole P [] := fun m => ⟨m, h.nil m⟩

theorem whole_append (hc : Whole P c) (hd : Whole P d) : Whole P (c ++ d) := by
  intro m
  obtain ⟨a, ha⟩ := hc m
  obtain ⟨b, hb⟩ := hd a
  exact ⟨b, h.append ha hb⟩

theorem whole_load (size : AccessSize) {off : Nat} (ho : off ≤ 100) : Whole P (loadCode size off) :=
  fun m => ⟨none, h.load m size ho⟩

theorem whole_failing {i : Insn} (hi : IsTest i) : Whole P [Ebpf.failing i] :=
  fun m => ⟨m, h.failing m hi⟩

theorem whole_mask (k : Int32) : Whole P (ops [.and32Imm r4 k]) := fun m => ⟨m, h.mask m k⟩

theorem check (size : AccessSize) {off : Nat} (k : UInt32) (ho : off ≤ 100) :
    Whole P (checkCode size off k) :=
  h.whole_append (h.whole_load size ho) (h.whole_failing (.jne _))

theorem ether {et : UInt32} (hc : etherCode link et = .ok c) : Whole P c := by
  unfold etherCode at hc
  cases ho : link.etherProtoOffset with
  | some off =>
    have hle := etherProtoOffset_le ho
    rw [ho] at hc
    cases hc
    exact h.check .half _ (by omega)
  | none =>
    rw [ho] at hc
    dsimp only at hc
    split at hc
    · cases hc
      exact h.whole_nil
    · cases hc

theorem guarded {et : UInt32} (hc : (etherCode link et).map (· ++ d) = .ok c) (hd : Whole P d) :
    Whole P c := by
  cases hg : etherCode link et with
  | error e =>
    rw [hg] at hc
    cases hc
  | ok g =>
    rw [hg] at hc
    cases hc
    exact h.whole_append (h.ether hg) hd

theorem dual {off : Nat} {c6 c4 : Code} (ho : off ≤ 100) (h6 : Whole P c6) (h4 : ∀ m, P m c4 m')
    (l6 : c6.length ≤ 99) (l4 : c4.length ≤ 100) : P m (dualCode off c6 c4) m' := by
  obtain ⟨b, hb⟩ := h6 none
  refine h.append (h.load m .half ho) (h.branch (h.append (h.failing none (.jne _)) hb) (h4 b) ?_ l4)
  simp only [List.length_append, List.length_singleton]
  omega

theorem dualL4 {n : UInt8} (hc : dualL4Code link n = .ok c) : Whole P c := by
  have hnet := netOffset_le link
  have hl := checkCode_length .byte
  unfold dualL4Code at hc
  cases ho : link.etherProtoOffset with
  | none =>
    rw [ho] at hc
    exact h.guarded hc (h.check .byte _ (by omega))
  | some off =>
    have hle := etherProtoOffset_le ho
    rw [ho] at hc
    cases hc
    exact fun m => ⟨none, h.dual (by omega) (h.check .byte _ (by omega))
      (fun m => h.append (h.load m .byte (by omega)) (h.failing none (.jne _)))
      (le_trans (hl ..) (by decide)) (le_trans (hl ..) (by decide))⟩

theorem proto {p : Proto} (hc : protoCode link p = .ok c) : Whole P c := by
  have hnet := netOffset_le link
  cases p with
  | ip => exact h.ether hc
  | ip6 => exact h.ether hc
  | arp => exact h.ether hc
  | rarp => exact h.ether hc
  | tcp => exact h.dualL4 hc
  | udp => exact h.dualL4 hc
  | sctp => exact h.dualL4 hc
  | icmp => exact h.guarded hc (h.check .byte _ (by omega))
  | igmp => exact h.guarded hc (h.check .byte _ (by omega))
  | icmp6 => exact h.guarded hc (h.check .byte _ (by omega))
  | num n => exact h.guarded hc (h.check .byte _ (by omega))
  | ip6Proto n => exact h.guarded hc (h.check .byte _ (by omega))

/-- An address test, if its load may stand where the test stands. -/
theorem addr {code : Nat → Code} {so dst : Nat} (hs : ∀ m, P m (code so) m')
    (hd : ∀ m, P m (code dst) m') (k : Int32) (dir : Dir) :
    P m (addrCode code k so dst dir) m' := by
  have test : ∀ {off}, (∀ m, P m (code off) m') → ∀ m,
      P m (code off ++ [Ebpf.failing (.jneImm r4 k 0)]) m' :=
    fun hc m => h.append (hc m) (h.failing m' (.jne _))
  cases dir with
  | src => exact test hs m
  | dst => exact test hd m
  | srcAndDst => exact h.append (test hs m) (test hd m')
  | srcOrDst => exact h.append (h.append (hs m) (h.leaving m' (.jeq _))) (test hd m')

theorem both {code : Nat → Code} {src dst first second : Nat} (hl : (code first).length ≤ 100)
    (hc : ∀ off, off = src ∨ off = dst ∨ off = first ∨ off = second → Whole P (code off))
    (dir : Dir) : Whole P (bothCode code src dst first second dir) := by
  have h₁ := hc first (by simp)
  have h₂ := hc second (by simp)
  cases dir with
  | src => exact hc src (by simp)
  | dst => exact hc dst (by simp)
  | srcAndDst => exact h.whole_append h₁ h₂
  | srcOrDst =>
    intro m
    obtain ⟨a, ha⟩ := h₁ m
    obtain ⟨b, hb⟩ := h₂ a
    exact ⟨b, h.alt ha hb hl⟩

theorem segs {off : Nat} (segs : List UInt16) (i : Nat) (hl : off + (i + segs.length) * 2 ≤ 100) :
    Whole P (segsCode off i segs) := by
  induction segs generalizing i with
  | nil => exact h.whole_nil
  | cons seg segs ih =>
    simp only [List.length_cons] at hl
    exact h.whole_append (h.check .half _ (by omega)) (ih (i + 1) (by omega))

theorem net6Segs {prefixLen off : Nat} (segs : List UInt16) (i : Nat)
    (hl : off + (i + segs.length) * 2 ≤ 100) : Whole P (net6SegsCode prefixLen off i segs) := by
  induction segs generalizing i with
  | nil => exact h.whole_nil
  | cons seg segs ih =>
    simp only [List.length_cons] at hl
    rw [net6SegsCode]
    split
    · exact h.whole_nil
    · refine h.whole_append (h.whole_append (h.whole_load .half (by omega)) ?_)
        (ih (i + 1) (by omega))
      split
      · exact h.whole_failing (.jne _)
      · exact h.whole_append (h.whole_mask _) (h.whole_failing (.jne _))

theorem l4Proto {off : Nat} {proto : Option Proto} (ho : off ≤ 100)
    (hc : l4ProtoCode off proto = .ok c) : Whole P c := by
  rcases proto with _ | p
  · cases hc
    exact fun m => ⟨none, h.append (h.load m .byte ho) (h.either none (.jeq _) (.inl (.jne _)))⟩
  · cases p with
    | tcp => cases hc; exact h.check .byte _ ho
    | udp => cases hc; exact h.check .byte _ ho
    | sctp => cases hc; exact h.check .byte _ ho
    | _ => cases hc

theorem transport (link : LinkType) (m : Mark) : P m (transportCode link.netOffset) none := by
  have hnet := netOffset_le link
  exact h.append (h.load m .byte (by omega)) (h.pointer none hnet)

theorem portPrereqs {proto : Option Proto} (hc : portPrereqsCode link proto = .ok c) (m : Mark) :
    P m c (some 4) := by
  have hnet := netOffset_le link
  have four : ∀ {l : Code}, Whole P l → ∀ m,
      P m (l ++ transportCode link.netOffset ++ r6Code 4) (some 4) := by
    intro l hl m
    obtain ⟨a, ha⟩ := hl m
    exact h.append (h.append ha (h.transport link a)) (h.bound none 4)
  unfold portPrereqsCode at hc
  cases ho : link.etherProtoOffset with
  | none =>
    rw [ho] at hc
    cases hg : etherCode link 0x0800 with
    | error e =>
      rw [hg] at hc
      cases hc
    | ok g =>
      cases hl : l4ProtoCode (link.netOffset + 9) proto with
      | error e =>
        rw [hg, hl] at hc
        cases hc
      | ok l =>
        rw [hg, hl] at hc
        cases hc
        exact four (h.whole_append (h.ether hg) (h.l4Proto (by omega) hl)) m
  | some off =>
    have hle := etherProtoOffset_le ho
    rw [ho] at hc
    cases h6 : l4ProtoCode (link.netOffset + 6) proto with
    | error e =>
      rw [h6] at hc
      cases hc
    | ok l6 =>
      cases h4 : l4ProtoCode (link.netOffset + 9) proto with
      | error e =>
        rw [h6, h4] at hc
        cases hc
      | ok l4 =>
        rw [h6, h4] at hc
        cases hc
        have e6 := l4ProtoCode_length h6
        have e4 := l4ProtoCode_length h4
        have el := loadCode_length .byte link.netOffset
        refine h.dual (by omega) (fun m => ?_) (four (h.l4Proto (by omega) h4)) ?_ ?_
        · obtain ⟨a, ha⟩ := h.l4Proto (by omega) h6 m
          exact ⟨some 4, h.append (h.append ha (h.fixed a (by omega))) (h.bound a 4)⟩
        · simp only [r6Code, List.length_append, ops_length, List.length_cons, List.length_nil]
          omega
        · simp only [r6Code, transportCode, transportPointer, List.length_append, ops_length,
            List.length_cons, List.length_nil]
          omega

theorem ports {proto : Option Proto} (hc : (portPrereqsCode link proto).map (· ++ d) = .ok c)
    (hd : P (some 4) d m') : Whole P c := by
  cases hg : portPrereqsCode link proto with
  | error e =>
    rw [hg] at hc
    cases hc
  | ok g =>
    rw [hg] at hc
    cases hc
    exact fun m => ⟨m', h.append (h.portPrereqs hg m) hd⟩

theorem port_addr (k : Int32) (dir : Dir) :
    P (some 4) (addrCode portLoad k 0 2 dir) (some 4) := by
  have test : ∀ off, off = 0 ∨ off = 2 →
      P (some 4) (portLoad off ++ [Ebpf.failing (.jneImm r4 k 0)]) (some 4) :=
    fun off ho => h.append (h.port ho) (h.failing _ (.jne _))
  cases dir with
  | src => exact test 0 (by simp)
  | dst => exact test 2 (by simp)
  | srcAndDst => exact h.append (test 0 (by simp)) (test 2 (by simp))
  | srcOrDst =>
    exact h.append (h.append (h.port (by simp)) (h.leaving _ (.jeq _))) (test 2 (by simp))

theorem port_range (lo hi : UInt16) (dir : Dir) :
    P (some 4) (bothCode (rangeCode lo hi) 0 2 0 2 dir) (some 4) := by
  have test : ∀ off, off = 0 ∨ off = 2 → P (some 4) (rangeCode lo hi off) (some 4) :=
    fun off ho => h.append (h.append (h.port ho) (h.failing _ (.jlt _))) (h.failing _ (.jgt _))
  cases dir with
  | src => exact test 0 (by simp)
  | dst => exact test 2 (by simp)
  | srcAndDst => exact h.append (test 0 (by simp)) (test 2 (by simp))
  | srcOrDst =>
    exact h.alt (test 0 (by simp)) (test 2 (by simp)) (by simp [rangeCode, portLoad, ldxHBe])

theorem cmp (op : CmpOp) (k : UInt32) (m : Mark) : P m (cmpCode op k) m := by
  cases op with
  | eq => exact h.failing m (.jne _)
  | ne => exact h.failing m (.jeq _)
  | gt => exact h.failing m (.jle _)
  | ge => exact h.failing m (.jlt _)
  | lt => exact h.failing m (.jge _)
  | le => exact h.failing m (.jgt _)
  | bitAnd => exact h.either m (.jset _) (.inr rfl)

/-- A word of the packet compared under a mask. -/
theorem masked (size : AccessSize) {off : Nat} (k j : Int32) (ho : off ≤ 100) :
    Whole P (loadCode size off ++ ops [.and32Imm r4 k] ++ [Ebpf.failing (.jneImm r4 j 0)]) :=
  h.whole_append (h.whole_append (h.whole_load size ho) (h.whole_mask k)) (h.whole_failing (.jne _))

/-- The code of every primitive has the property, if that of byte accesses has. -/
theorem leaf {p : Primitive} (hc : leafCode link p = .ok c)
    (hb : ∀ ba, p = .byteAccess ba → Whole P c) : Whole P c := by
  have hnet := netOffset_le link
  cases p with
  | proto p => exact h.proto hc
  | host a dir =>
    cases a with
    | v4 a =>
      exact h.guarded hc fun m => ⟨none, h.addr (fun m => h.load m .word (by omega))
        (fun m => h.load m .word (by omega)) _ dir⟩
    | v6 a =>
      refine h.guarded hc (h.both (le_trans (segsCode_length ..) (by simp))
        (fun off ho => h.segs _ 0 ?_) dir)
      simp
      omega
  | net net dir =>
    have hload : ∀ off, off ≤ 100 → ∀ m,
        P m (loadCode .word off ++ ops [.and32Imm r4 net.mask.toInt32]) none :=
      fun off ho m => h.append (h.load m .word ho) (h.mask none _)
    exact h.guarded hc fun m => ⟨none, h.addr (hload _ (by omega)) (hload _ (by omega)) _ dir⟩
  | net6 net dir =>
    refine h.guarded hc (h.both (le_trans (net6SegsCode_length ..) (by simp))
      (fun off ho => h.net6Segs _ 0 ?_) dir)
    simp
    omega
  | port port dir proto => exact h.ports hc (h.port_addr _ dir)
  | portRange lo hi dir proto => exact h.ports hc (h.port_range lo hi dir)
  | etherHost addr dir =>
    rw [← noRawIp_ok hc]
    exact h.both (le_trans (macCode_length ..) (by decide)) (fun off ho =>
      h.whole_append (h.check .word _ (by omega)) (h.check .half _ (by omega))) dir
  | etherProto et => exact h.ether hc
  | etherMulticast =>
    rw [← noRawIp_ok hc]
    exact fun m => ⟨none, h.append (h.load m .byte (by omega)) (h.either none (.jset _) (.inr rfl))⟩
  | ipBroadcast => exact h.guarded hc (h.check .word _ (by omega))
  | ipMulticast => exact h.guarded hc (h.masked .word _ _ (by omega))
  | ip6Multicast => exact h.guarded hc (h.check .byte _ (by omega))
  | vlan id =>
    have hoff := @getD_le link 14 (by decide)
    rcases id with _ | vid
    · exact h.ether hc
    · exact h.guarded hc (h.masked .half _ _ (by omega))
  | mpls label =>
    have hguard : ∀ off, off ≤ 100 → ∀ m, P m (mplsGuardCode off) none := fun off ho m =>
      h.append (h.load m .half ho) (h.either none (.jeq _) (.inl (.jne _)))
    cases ho : link.etherProtoOffset with
    | none => simp [leafCode, ho] at hc
    | some off =>
      have hle := etherProtoOffset_le ho
      rcases label with _ | lbl
      · simp only [leafCode, ho, Except.ok.injEq] at hc
        rw [← hc]
        exact fun m => ⟨none, hguard off (by omega) m⟩
      · simp only [leafCode, ho, Except.ok.injEq] at hc
        rw [← hc]
        exact fun m => ⟨none, h.append (hguard off (by omega) m)
          (h.append (h.append (h.load none .word (by omega)) (h.shift none))
            (h.failing none (.jne _)))⟩
  | pppoeDiscovery => exact h.ether hc
  | pppoeSession id =>
    have hoff := @getD_le link 12 (by decide)
    rcases id with _ | id
    · exact h.ether hc
    · exact h.guarded hc (h.whole_append (h.whole_load .half (by omega)) (h.whole_failing (.jne _)))
  | ipProtoChain n => exact h.guarded hc (h.check .byte _ (by omega))
  | ip6ProtoChain n => exact h.guarded hc (h.check .byte _ (by omega))
  | len op value =>
    cases hc
    exact fun m => ⟨m, h.append (h.length m) (h.cmp op value m)⟩
  | inbound => cases hc
  | outbound => cases hc
  | byteAccess ba => exact hb ba rfl

/-- The code of a byte access, from its load and its arithmetic. -/
theorem access {ba : ByteAccess} {is : List Insn} (value : UInt32)
    (hl : Whole P c) (ha : ∀ m, P m (ops is) m) :
    Whole P (c ++ ops is ++ cmpCode ba.op value) := by
  intro m
  obtain ⟨a, hc⟩ := hl m
  exact ⟨a, h.append (h.append hc (ha a)) (h.cmp ba.op value a)⟩

end Atoms

end PktBaffle.Proofs.Ebpf
