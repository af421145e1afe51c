import PktBaffle.Proofs.Classic.Access
import PktBaffle.Proofs.Fields
import PktBaffle.Proofs.Ebpf.Verdict

namespace PktBaffle.Proofs.Prefix
open Vm (Packet)
open PktBaffle.Classic (LinkType)
open Fields Forward

/-- Bit `i` of what stands at `off`, the first bit of a byte being its highest. -/
def bitAt (pkt : Packet) (off i : Nat) : Bool :=
  (pkt.getD (off + i / 8) 0).toNat.testBit (7 - i % 8)

/-- Bit `i` of a list of segments. -/
def segBit (segs : List UInt16) (i : Nat) : Bool := (segs.getD (i / 16) 0).toNat.testBit (15 - i % 16)

/-- The first bits of the address at `off` are those of the network. -/
def InNet (pkt : Packet) (net : Ipv6Net) (off : Nat) : Prop :=
  ∀ i < net.prefixLen.toNat, bitAt pkt off i = segBit net.addr.segments.toList i

section Bits

variable {pkt : Packet} {off i t : Nat}

theorem bitAt_shift (j : Nat) : bitAt pkt (off + 2 * i) j = bitAt pkt off (16 * i + j) := by
  have hbyte : off + 2 * i + j / 8 = off + (16 * i + j) / 8 := by omega
  have hbit : j % 8 = (16 * i + j) % 8 := by omega
  unfold bitAt
  rw [hbyte, hbit]

theorem testBit_pair (a b : UInt8) (ht : t < 16) :
    (bigEndian [a, b]).testBit (15 - t) =
      if t < 8 then a.toNat.testBit (7 - t) else b.toNat.testBit (15 - t) := by
  have hb := b.toNat_lt
  have hv : bigEndian [a, b] = 2 ^ 8 * a.toNat + b.toNat := by
    simp only [bigEndian, List.foldl]
    omega
  rw [hv, Nat.testBit_two_pow_mul_add _ hb]
  by_cases h8 : t < 8
  · rw [if_neg (by omega), if_pos h8]
    congr 1
    omega
  · rw [if_pos (by omega), if_neg h8]

/-- The bits of two bytes of the packet. -/
theorem number_bits (h : off + 2 ≤ pkt.length) :
    ∃ n, number pkt off 2 = some n ∧ n < 2 ^ 16 ∧
      ∀ t < 16, n.testBit (15 - t) = bitAt pkt off t := by
  have hd : pkt.drop off = pkt[off] :: pkt[off + 1] :: pkt.drop (off + 2) := by
    rw [List.drop_eq_getElem_cons (by omega), List.drop_eq_getElem_cons (by omega)]
  refine ⟨bigEndian [pkt[off], pkt[off + 1]], ?_, ?_, fun t ht => ?_⟩
  · rw [number, if_pos h, hd]
    rfl
  · have ha := pkt[off].toNat_lt
    have hb := pkt[off + 1].toNat_lt
    simp only [bigEndian, List.foldl]
    omega
  · rw [testBit_pair _ _ ht, bitAt]
    by_cases h8 : t < 8
    · have h0 : t / 8 = 0 := by omega
      have ht' : t % 8 = t := by omega
      rw [if_pos h8, h0, ht', Nat.add_zero, List.getD_eq_getElem _ _ (by omega)]
    · have h1 : t / 8 = 1 := by omega
      have ht' : 7 - t % 8 = 15 - t := by omega
      rw [if_neg h8, h1, ht', List.getD_eq_getElem _ _ (by omega)]

/-- Sixteen bits agree. -/
theorem eq_iff_bits {n m : Nat} (hn : n < 2 ^ 16) (hm : m < 2 ^ 16) :
    n = m ↔ ∀ t < 16, n.testBit (15 - t) = m.testBit (15 - t) := by
  constructor
  · rintro rfl t -
    rfl
  · intro h
    refine Nat.eq_of_testBit_eq fun k => ?_
    by_cases hk : k < 16
    · have := h (15 - k) (by omega)
      rwa [show 15 - (15 - k) = k by omega] at this
    · rw [Nat.testBit_lt_two_pow (Nat.lt_of_lt_of_le hn (Nat.pow_le_pow_right (by omega) (by omega))),
        Nat.testBit_lt_two_pow (Nat.lt_of_lt_of_le hm (Nat.pow_le_pow_right (by omega) (by omega)))]

/-- The mask of a prefix that ends in a segment lets its first bits through. -/
theorem testBit_segMask {plen k : Nat} :
    (Classic.segMask plen i).toNat.testBit k =
      (decide (16 - (plen - i * 16) ≤ k) && decide (k < 16)) := by
  have hs : (UInt32.ofNat (16 - (plen - i * 16))).toNat % 32 = 16 - (plen - i * 16) := by
    rw [UInt32.toNat_ofNat']
    omega
  have hff : (0xffff : UInt32).toNat = 2 ^ 16 - 1 := rfl
  rw [Classic.segMask, UInt32.toNat_and, UInt32.toNat_shiftLeft, hs, hff, Nat.testBit_and,
    Nat.testBit_mod_two_pow, Nat.testBit_shiftLeft, Nat.testBit_two_pow_sub_one,
    Nat.testBit_two_pow_sub_one]
  by_cases hk : k < 16
  · by_cases hm : 16 - (plen - i * 16) ≤ k
    · simp [hk, hm]
      omega
    · simp [hm]
  · simp [hk]

theorem masked_iff_bits {plen n m : Nat} (hlo : i * 16 < plen) (hhi : plen < i * 16 + 16) :
    n &&& (Classic.segMask plen i).toNat = m &&& (Classic.segMask plen i).toNat ↔
      ∀ t < 16, 16 * i + t < plen → n.testBit (15 - t) = m.testBit (15 - t) := by
  constructor
  · intro h t ht hp
    have hb := congrArg (Nat.testBit · (15 - t)) h
    simp only [Nat.testBit_and, testBit_segMask] at hb
    have hmask : (decide (16 - (plen - i * 16) ≤ 15 - t) && decide (15 - t < 16)) = true := by
      simp only [Bool.and_eq_true, decide_eq_true_eq]
      omega
    simpa only [hmask, Bool.and_true] using hb
  · intro h
    refine Nat.eq_of_testBit_eq fun k => ?_
    rw [Nat.testBit_and, Nat.testBit_and, testBit_segMask]
    by_cases hmask : 16 - (plen - i * 16) ≤ k ∧ k < 16
    · have hb := h (15 - k) (by omega) (by omega)
      rw [show 15 - (15 - k) = k by omega] at hb
      rw [hb]
    · have hf : (decide (16 - (plen - i * 16) ≤ k) && decide (k < 16)) = false := by
        simpa [not_and] using hmask
      rw [hf, Bool.and_false, Bool.and_false]

end Bits

section Segments

variable {pkt : Packet} {plen off : Nat}

/-- The bits of the segments from the `i`th on that belong to the prefix. -/
def Agrees (pkt : Packet) (plen off i : Nat) (segs : List UInt16) : Prop :=
  ∀ j < 16 * segs.length, 16 * i + j < plen → bitAt pkt off (16 * i + j) = segBit segs j

theorem agrees_nil (i : Nat) : Agrees pkt plen off i [] := by
  intro j hj
  simp at hj

theorem agrees_past {i : Nat} (segs : List UInt16) (h : plen ≤ i * 16) :
    Agrees pkt plen off i segs := by
  intro j _ hp
  omega

theorem agrees_cons {i : Nat} {seg : UInt16} {segs : List UInt16} :
    Agrees pkt plen off i (seg :: segs) ↔
      (∀ t < 16, 16 * i + t < plen → bitAt pkt off (16 * i + t) = seg.toNat.testBit (15 - t)) ∧
        Agrees pkt plen off (i + 1) segs := by
  constructor
  · intro h
    refine ⟨fun t ht hp => ?_, fun j hj hp => ?_⟩
    · have hb := h t (by rw [List.length_cons]; omega) hp
      rw [hb, segBit, show t / 16 = 0 by omega, show t % 16 = t by omega]
      rfl
    · have hb := h (16 + j) (by rw [List.length_cons]; omega) (by omega)
      rw [show 16 * (i + 1) + j = 16 * i + (16 + j) by omega, hb, segBit, segBit,
        show (16 + j) / 16 = j / 16 + 1 by omega, show (16 + j) % 16 = j % 16 by omega]
      rfl
  · rintro ⟨hfirst, hrest⟩ j hj hp
    by_cases h16 : j < 16
    · rw [hfirst j h16 hp, segBit, show j / 16 = 0 by omega, show j % 16 = j by omega]
      rfl
    · have hb := hrest (j - 16) (by rw [List.length_cons] at hj; omega) (by omega)
      rw [show 16 * (i + 1) + (j - 16) = 16 * i + j by omega] at hb
      rw [hb, segBit, segBit, show j / 16 = (j - 16) / 16 + 1 by omega,
        show j % 16 = (j - 16) % 16 by omega]
      rfl

/-- What is compared of one segment. -/
theorem segment_iff {i n : Nat} {seg : UInt16} (hlt : n < 2 ^ 16)
    (hbits : ∀ t < 16, n.testBit (15 - t) = bitAt pkt (off + 2 * i) t) (hi : i * 16 < plen) :
    (if i * 16 + 16 ≤ plen then n = seg.toNat
      else n &&& (Classic.segMask plen i).toNat = seg.toNat &&& (Classic.segMask plen i).toNat) ↔
      ∀ t < 16, 16 * i + t < plen → bitAt pkt off (16 * i + t) = seg.toNat.testBit (15 - t) := by
  have hseg := seg.toNat_lt
  split
  · rename_i hfull
    rw [eq_iff_bits hlt hseg]
    refine forall₂_congr fun t ht => ?_
    rw [hbits t ht, bitAt_shift]
    exact ⟨fun h _ => h, fun h => h (by omega)⟩
  · rename_i hpart
    rw [masked_iff_bits hi (by omega)]
    refine forall₂_congr fun t ht => ?_
    rw [hbits t ht, bitAt_shift]

/-- The classic comparison of the segments, where the packet has them. -/
theorem classic_segments (segs : List UInt16) (i : Nat) (hoff : off + 2 * (i + segs.length) < 2 ^ 32)
    (h : ∀ k, k < i + segs.length → 16 * k < plen → off + 2 * k + 2 ≤ pkt.length) :
    ∃ b, Classic.net6Val pkt plen off i segs = some b ∧ (b = true ↔ Agrees pkt plen off i segs) := by
  induction segs generalizing i with
  | nil => exact ⟨true, rfl, by simp [agrees_nil]⟩
  | cons seg segs ih =>
    rw [List.length_cons] at h hoff
    by_cases hi : plen ≤ i * 16
    · exact ⟨true, by rw [Classic.net6Val, if_pos hi], by simp [agrees_past _ hi]⟩
    · obtain ⟨b, hb, hiff⟩ := ih (i + 1) (by omega) fun k hk => h k (by omega)
      obtain ⟨n, hn, hlt, hbits⟩ := number_bits (h i (by omega) (by omega))
      have hk : (UInt32.ofNat (off + i * 2)).toNat = off + 2 * i := by
        rw [UInt32.toNat_ofNat']
        omega
      have hload := half_number pkt (.ofNat (off + i * 2))
      rw [hk, hn] at hload
      obtain ⟨u, hu, rfl⟩ := Option.map_eq_some_iff.mp hload
      have hfirst := @segment_iff pkt plen off i _ seg hlt hbits (by omega)
      rw [Classic.net6Val, if_neg hi, hb, Classic.halfAt, hu]
      split at hfirst
      · rename_i hfull
        rw [if_pos hfull, Classic.equals, Option.map_some, Tri.and_some]
        refine ⟨_, rfl, ?_⟩
        rw [Bool.and_eq_true, hiff, agrees_cons, ← hfirst, beq_iff_eq, ← UInt32.toNat_inj]
        simp
      · rename_i hpart
        rw [if_neg hpart, Classic.equals, Option.map_some, Option.map_some, Tri.and_some]
        refine ⟨_, rfl, ?_⟩
        rw [Bool.and_eq_true, hiff, agrees_cons, ← hfirst, beq_iff_eq, ← UInt32.toNat_inj]
        simp

/-- The context can give the end of the packet in 32 bits. -/
def Addressable (pkt : Packet) : Prop := Ebpf.pktBase.toNat + pkt.length < 2 ^ 32

theorem fits_iff (ha : Addressable pkt) (n : Nat) :
    Ebpf.fits pkt off n = true ↔ off + n ≤ pkt.length := by
  unfold Addressable at ha
  rw [Ebpf.pktBase_toNat] at ha
  rw [Ebpf.fits, decide_eq_true_eq, Ebpf.dataEnd, Ebpf.pktBase_toNat, UInt32.toNat_toUInt64,
    UInt64.toNat_toUInt32, UInt64.toNat_add, Ebpf.pktBase_toNat, UInt64.toNat_ofNat']
  omega

theorem field_half (h : off + 2 ≤ pkt.length) :
    number pkt off 2 = some (Ebpf.field pkt .half off).toNat := by
  have hd : pkt.drop off = pkt[off] :: pkt[off + 1] :: pkt.drop (off + 2) := by
    rw [List.drop_eq_getElem_cons (by omega), List.drop_eq_getElem_cons (by omega)]
  have hf : Ebpf.field pkt .half off = Vm.fromBe2 pkt[off] pkt[off + 1] := by
    unfold Ebpf.field
    rw [hd]
  rw [hf, toNat_fromBe2, number, if_pos h, hd]
  rfl

/-- A constant below 2^31 is compared as it stands. -/
theorem beq_wide {v k : UInt32} (hk : k.toNat < 2 ^ 31) :
    (v.toUInt64 == Ebpf.wide k.toInt32) = decide (v.toNat = k.toNat) := by
  have hw : Ebpf.wide k.toInt32 = UInt64.ofNat k.toNat := by
    have hi : k.toInt32.toInt = (k.toNat : Int) := by
      have h := BitVec.toInt_eq_toNat_cond k.toBitVec
      change k.toInt32.toInt = _ at h
      rw [h, if_pos (by change 2 * k.toNat < 2 ^ 32; omega)]
      rfl
    rw [Ebpf.wide, hi]
    exact Ebpf.sext_natCast (by omega)
  rw [hw, Bool.eq_iff_iff, beq_iff_eq, decide_eq_true_eq, ← UInt64.toNat_inj]
  simp

/-- The extended comparison of the segments, where the packet has them. -/
theorem extended_segments (ha : Addressable pkt) (segs : List UInt16) (i : Nat)
    (h : ∀ k, k < i + segs.length → 16 * k < plen → off + 2 * k + 2 ≤ pkt.length) :
    Ebpf.net6SegsVal pkt plen off i segs = true ↔ Agrees pkt plen off i segs := by
  induction segs generalizing i with
  | nil => simp [agrees_nil, Ebpf.net6SegsVal]
  | cons seg segs ih =>
    rw [List.length_cons] at h
    by_cases hi : plen ≤ i * 16
    · simp [agrees_past _ hi, Ebpf.net6SegsVal, hi]
    · have hrest := ih (i + 1) fun k hk => h k (by omega)
      have hlen := h i (by omega) (by omega)
      obtain ⟨n, hn, hlt, hbits⟩ := number_bits hlen
      rw [field_half hlen] at hn
      cases hn
      have hfirst := @segment_iff pkt plen off i _ seg hlt hbits (by omega)
      have hin : Ebpf.inside pkt .half (off + i * 2) = true := by
        rw [Ebpf.inside, fits_iff ha]
        show off + i * 2 + 2 ≤ _
        omega
      have hseg := seg.toNat_lt
      have hmask : (seg.toUInt32 &&& Classic.segMask plen i).toNat < 2 ^ 31 := by
        rw [UInt32.toNat_and]
        exact Nat.lt_of_le_of_lt Nat.and_le_left (by simp; omega)
      rw [Ebpf.net6SegsVal, if_neg (by omega)]
      simp only [hin, Bool.true_and, Bool.and_eq_true, hrest, agrees_cons]
      rw [← hfirst]
      refine and_congr ?_ Iff.rfl
      rw [Nat.mul_comm i 2]
      split
      · rw [Ebpf.loaded, beq_wide (by simp; omega), decide_eq_true_eq, UInt16.toNat_toUInt32]
      · rw [show ((0xffff : UInt32) <<< UInt32.ofNat (16 - (plen - i * 16))) &&& 0xffff =
          Classic.segMask plen i from rfl, beq_wide hmask, decide_eq_true_eq, UInt32.toNat_and,
          UInt32.toNat_and, UInt16.toNat_toUInt32]

end Segments

/-- The packet has the address bytes at `off` that belong to the prefix, in whole segments. -/
def Contains (pkt : Packet) (net : Ipv6Net) (off : Nat) : Prop :=
  off + 2 * ((net.prefixLen.toNat + 15) / 16) ≤ pkt.length

/-- The packet has the bytes of every address a direction names. -/
def Covers (pkt : Packet) (link : LinkType) (net : Ipv6Net) : Dir → Prop
  | .src => Contains pkt net (link.netOffset + 8)
  | .dst => Contains pkt net (link.netOffset + 24)
  | .srcAndDst | .srcOrDst =>
    Contains pkt net (link.netOffset + 8) ∧ Contains pkt net (link.netOffset + 24)

/-- An IPv6 packet with the addresses of the direction in the network; `ether` is where the
ethertype is. -/
def Matches (pkt : Packet) (link : LinkType) (ether : Nat) (net : Ipv6Net) (dir : Dir) : Prop :=
  number pkt ether 2 = some 0x86dd ∧
    Classic.Directed (InNet pkt net) (link.netOffset + 8) (link.netOffset + 24) dir

section Leaf

variable {pkt : Packet} {link : LinkType} {ether : Nat} {net : Ipv6Net} {dir : Dir}

theorem agrees_inNet (hp : net.prefixLen.toNat ≤ 128) (off : Nat) :
    Agrees pkt net.prefixLen.toNat off 0 net.addr.segments.toList ↔ InNet pkt net off := by
  have hl : net.addr.segments.toList.length = 8 := by simp
  unfold Agrees InNet
  rw [hl]
  constructor
  · intro h i hi
    have hb := h i (by omega) (by omega)
    rwa [Nat.mul_zero, Nat.zero_add] at hb
  · intro h j _ hj
    rw [Nat.mul_zero, Nat.zero_add] at hj ⊢
    exact h j hj

theorem contains_segments {off : Nat} (h : Contains pkt net off) :
    ∀ k, k < 0 + net.addr.segments.toList.length → 16 * k < net.prefixLen.toNat →
      off + 2 * k + 2 ≤ pkt.length := by
  intro k _ hk
  unfold Contains at h
  omega

theorem classic_inNet (hp : net.prefixLen.toNat ≤ 128) {off : Nat} (hoff : off ≤ 100)
    (h : Contains pkt net off) :
    ∃ b, Classic.net6Val pkt net.prefixLen.toNat off 0 net.addr.segments.toList = some b ∧
      (b = true ↔ InNet pkt net off) := by
  obtain ⟨b, hb, hiff⟩ := @classic_segments pkt net.prefixLen.toNat off net.addr.segments.toList 0
    (by simp; omega) (contains_segments h)
  exact ⟨b, hb, hiff.trans (agrees_inNet hp off)⟩

theorem extended_inNet (ha : Addressable pkt) (hp : net.prefixLen.toNat ≤ 128) {off : Nat}
    (h : Contains pkt net off) :
    Ebpf.net6SegsVal pkt net.prefixLen.toNat off 0 net.addr.segments.toList = true ↔
      InNet pkt net off :=
  (extended_segments ha _ 0 (contains_segments h)).trans (agrees_inNet hp off)

theorem contains_of_length (hp : net.prefixLen.toNat ≤ 128) {off : Nat}
    (h : off + 16 ≤ pkt.length) : Contains pkt net off := by
  unfold Contains
  omega

/-- The classic leaf. -/
theorem classic_net6 (hp : net.prefixLen.toNat ≤ 128) (ho : link.etherProtoOffset = some ether)
    {insns : List Bpf.Insn} (hc : PktBaffle.Classic.compile (.primitive (.net6 net dir)) link = .ok insns)
    (hl : link.netOffset + 40 ≤ pkt.length) :
    Vm.run insns pkt = true ↔ Matches pkt link ether net dir := by
  have hnet := Classic.netOffset_small link
  rw [Classic.leaf_accepts hc]
  refine and_congr ?_ ?_
  · exact Classic.etherVal_iff ho 0x86dd
  · have hv : Classic.bodyVal pkt (.net6 net dir) link 0 (Classic.portsX pkt link 0) =
        Classic.bothVal (fun off => Classic.net6Val pkt net.prefixLen.toNat off 0
          net.addr.segments.toList) (link.netOffset + 8) (link.netOffset + 24)
          (link.netOffset + 8) (link.netOffset + 24) dir := rfl
    rw [hv]
    exact Classic.both_directed (classic_inNet hp (by omega) (contains_of_length hp (by omega)))
      (classic_inNet hp (by omega) (contains_of_length hp (by omega)))

theorem extended_ether (ha : Addressable pkt) (ho : link.etherProtoOffset = some ether) :
    Ebpf.etherVal pkt link 0x86dd = true ↔ number pkt ether 2 = some 0x86dd := by
  unfold Ebpf.etherVal
  rw [ho]
  simp only [Ebpf.checkVal, Ebpf.inside, Bool.and_eq_true, fits_iff ha, Ebpf.loaded]
  rw [beq_wide (by decide), decide_eq_true_eq]
  constructor
  · rintro ⟨hl, hv⟩
    rw [field_half hl, hv]
    rfl
  · intro h
    have hl : ether + 2 ≤ pkt.length := number_isSome.mp (by rw [h]; rfl)
    rw [field_half hl] at h
    exact ⟨hl, Option.some.inj h⟩

/-- The extended leaf. -/
theorem extended_net6 (hp : net.prefixLen.toNat ≤ 128) (ho : link.etherProtoOffset = some ether)
    (ha : Addressable pkt) (hc : Covers pkt link net dir) :
    ∃ b, Ebpf.leafVal pkt link (.net6 net dir) = some b ∧
      (b = true ↔ Matches pkt link ether net dir) := by
  refine ⟨_, rfl, ?_⟩
  rw [Bool.and_eq_true, extended_ether ha ho]
  refine and_congr Iff.rfl ?_
  cases dir with
  | src => exact extended_inNet ha hp hc
  | dst => exact extended_inNet ha hp hc
  | srcAndDst =>
    exact (Bool.and_eq_true ..).to_iff.trans
      (and_congr (extended_inNet ha hp hc.1) (extended_inNet ha hp hc.2))
  | srcOrDst =>
    exact (Bool.or_eq_true ..).to_iff.trans
      (or_congr (extended_inNet ha hp hc.1) (extended_inNet ha hp hc.2))

theorem covers_of_length (hp : net.prefixLen.toNat ≤ 128) (h : link.netOffset + 40 ≤ pkt.length) :
    Covers pkt link net dir := by
  have hs : Contains pkt net (link.netOffset + 8) := contains_of_length hp (by omega)
  have hd : Contains pkt net (link.netOffset + 24) := contains_of_length hp (by omega)
  cases dir with
  | src => exact hs
  | dst => exact hd
  | srcAndDst => exact ⟨hs, hd⟩
  | srcOrDst => exact ⟨hs, hd⟩

theorem extended_compiles (ho : link.etherProtoOffset = some ether) :
    ∃ prog, Extended.compile (.primitive (.net6 net dir)) link = .ok prog := by
  have hlen : ∀ off, (Ebpf.net6SegsCode net.prefixLen.toNat off 0
      net.addr.segments.toList).length ≤ 56 := by
    intro off
    have h := Ebpf.net6SegsCode_length net.prefixLen.toNat off 0 net.addr.segments.toList
    simpa using h
  have hc : Ebpf.leafCode link (.net6 net dir) = .ok (Ebpf.checkCode .half ether 0x86dd ++
      Ebpf.bothCode (Ebpf.net6SegsCode net.prefixLen.toNat · 0 net.addr.segments.toList)
        (link.netOffset + 8) (link.netOffset + 24) (link.netOffset + 8) (link.netOffset + 24)
        dir) := by
    simp only [Ebpf.leafCode, Ebpf.etherCode, ho]
    rfl
  have hg := Ebpf.checkCode_length .half ether 0x86dd
  have hs := hlen (link.netOffset + 8)
  have hd := hlen (link.netOffset + 24)
  obtain ⟨prog, hprog, -⟩ := Ebpf.compile_leaf hc (by
    rw [List.length_append]
    cases dir <;>
      simp only [Ebpf.bothCode, Frag.alt, List.length_append, Frag.resolve_length,
        List.length_cons] <;> omega)
  exact ⟨prog, hprog⟩

end Leaf

/-- Prefix matching in both machines: the first bits of the addresses decide, and on whole headers
the two verdicts are the same. -/
theorem net6_matches {net : Ipv6Net} {link : LinkType} {ether : Nat} (dir : Dir)
    (hp : net.prefixLen.toNat ≤ 128) (ho : link.etherProtoOffset = some ether) :
    ∃ insns prog, PktBaffle.Classic.compile (.primitive (.net6 net dir)) link = .ok insns ∧
      Extended.compile (.primitive (.net6 net dir)) link = .ok prog ∧
      (∀ pkt : Packet, link.netOffset + 40 ≤ pkt.length →
        (Vm.run insns pkt = true ↔ Matches pkt link ether net dir)) ∧
      (∀ (pkt : Packet) host limit, Addressable pkt → Covers pkt link net dir →
        prog.length ≤ limit → ∃ b, Ebpf.runWithin pkt host prog limit = .ok (Ebpf.verdictOf b) ∧
          (b = true ↔ Matches pkt link ether net dir)) ∧
      ∀ (pkt : Packet) host limit, Addressable pkt → link.netOffset + 40 ≤ pkt.length →
        prog.length ≤ limit →
        Ebpf.runWithin pkt host prog limit = .ok (Ebpf.verdictOf (Vm.run insns pkt)) := by
  have hok : Classic.primOk (.net6 net dir) link = true := by
    cases link with
    | rawIp => cases ho
    | _ => rfl
  obtain ⟨insns, hi⟩ := @Classic.leaf_compiles .hoist _ _ hok
  obtain ⟨prog, hprog⟩ := @extended_compiles link ether net dir ho
  have hext : ∀ (pkt : Packet) host limit, Addressable pkt → Covers pkt link net dir →
      prog.length ≤ limit →
      ∃ b, Ebpf.runWithin pkt host prog limit = .ok (Ebpf.verdictOf b) ∧
        (b = true ↔ Matches pkt link ether net dir) := by
    intro pkt host limit ha hc hl
    obtain ⟨b, hb, hiff⟩ := extended_net6 hp ho ha hc
    exact ⟨b, Ebpf.leaf_verdict hprog nofun hb hl, hiff⟩
  refine ⟨insns, prog, hi, hprog, fun pkt hl => classic_net6 hp ho hi hl, hext, ?_⟩
  intro pkt host limit ha hlen hl
  obtain ⟨b, hb, hiff⟩ := hext pkt host limit ha (covers_of_length hp hlen) hl
  have heq : b = Vm.run insns pkt := by
    rw [Bool.eq_iff_iff, hiff]
    exact (classic_net6 hp ho hi hlen).symm
  rw [hb, heq]

/-- `::/0` -/
def everything : Ipv6Net := ⟨⟨Vector.replicate 8 0⟩, 0⟩

/-- An Ethernet header with the ethertype of IPv6. -/
def ipv6Frame (rest : Packet) : Packet := [0, 0, 0, 0, 0, 0, 0, 0, 0, 0, 0, 0, 0x86, 0xdd] ++ rest

theorem ipv6Frame_length (rest : Packet) : (ipv6Frame rest).length = rest.length + 14 :=
  List.length_append.trans (Nat.add_comm ..)

theorem ipv6Frame_matches (rest : Packet) : Matches (ipv6Frame rest) .ethernet 12 everything .src := by
  refine ⟨?_, fun i hi => absurd hi (by simp [everything])⟩
  rw [number, if_pos (by rw [ipv6Frame_length]; omega)]
  rfl

/-- The end of a packet of almost 2^32 bytes does not fit the context, and the extended program
drops what the classic one accepts. -/
theorem net6_far_end : ∃ pkt : Packet, ∃ insns prog,
    PktBaffle.Classic.compile (.primitive (.net6 everything .src)) .ethernet = .ok insns ∧
      Extended.compile (.primitive (.net6 everything .src)) .ethernet = .ok prog ∧
      LinkType.ethernet.netOffset + 40 ≤ pkt.length ∧ Covers pkt .ethernet everything .src ∧
      Matches pkt .ethernet 12 everything .src ∧ Vm.run insns pkt = true ∧
      ∀ host limit, prog.length ≤ limit →
        Ebpf.runWithin pkt host prog limit = .ok .noMatch := by
  obtain ⟨insns, hi⟩ := @Classic.leaf_compiles .hoist (.net6 everything .src) .ethernet (by decide)
  obtain ⟨prog, hp⟩ := @extended_compiles .ethernet 12 everything .src rfl
  generalize hn : List.replicate (2 ^ 32 - 0x10000010) (0 : UInt8) = rest
  have hlen : (ipv6Frame rest).length = 2 ^ 32 - 0x10000002 := by
    rw [ipv6Frame_length, ← hn, List.length_replicate]
    norm_num
  have hlong : LinkType.ethernet.netOffset + 40 ≤ (ipv6Frame rest).length := by
    rw [hlen]
    decide
  refine ⟨ipv6Frame rest, insns, prog, hi, hp, hlong, covers_of_length (by decide) hlong,
    ipv6Frame_matches rest, (classic_net6 (by decide) rfl hi hlong).mpr (ipv6Frame_matches rest), ?_⟩
  intro host limit hl
  refine Ebpf.leaf_verdict (b := false) hp nofun ?_ hl
  -- The bounds check of the ethertype fails: the end has wrapped to 0.
  have hend : Ebpf.fits (ipv6Frame rest) 12 2 = false := by
    rw [Ebpf.fits, Ebpf.dataEnd, hlen]
    decide
  show some (Ebpf.etherVal _ .ethernet 0x86dd && _) = some false
  have hether : Ebpf.etherVal (ipv6Frame rest) .ethernet 0x86dd = false := by
    show (Ebpf.fits (ipv6Frame rest) 12 2 && _) = false
    rw [hend]
    rfl
  rw [hether]
  rfl

/-- `2001:db8::/33` -/
def docNet : Ipv6Net := ⟨⟨#v[0x2001, 0xdb8, 0, 0, 0, 0, 0, 0]⟩, 33⟩

/-- A packet to `2001:db8:7f00::`. -/
def toDocNet : Packet :=
  ipv6Frame (List.replicate 24 0 ++ [0x20, 0x01, 0x0d, 0xb8, 0x7f] ++ List.replicate 11 0)

theorem net6_matches_doc : ∃ insns prog,
    PktBaffle.Classic.compile (.primitive (.net6 docNet .dst)) .ethernet = .ok insns ∧
      Extended.compile (.primitive (.net6 docNet .dst)) .ethernet = .ok prog ∧
      Vm.run insns toDocNet = true ∧ ∀ host limit, prog.length ≤ limit →
        Ebpf.runWithin toDocNet host prog limit = .ok .matched := by
  obtain ⟨insns, prog, hi, hp, hc, -, he⟩ := @net6_matches docNet .ethernet 12 .dst (by decide) rfl
  have hnet : InNet toDocNet docNet 38 := by
    show ∀ i < 33, bitAt toDocNet 38 i = segBit docNet.addr.segments.toList i
    decide
  have hrun : Vm.run insns toDocNet = true := (hc toDocNet (by decide)).mpr ⟨by decide, hnet⟩
  refine ⟨insns, prog, hi, hp, hrun, fun host limit hl => ?_⟩
  rw [he toDocNet host limit (by unfold Addressable; decide) (by decide) hl, hrun]
  rfl

end PktBaffle.Proofs.Prefix
