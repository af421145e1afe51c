import PktBaffle.Proofs.Classic.Access

namespace PktBaffle.Proofs.Classic
open Bpf Forward PktBaffle.Classic Fields

section Documented

variable (pkt : Vm.Packet) (link : LinkType)

/-- The protocol field of the link header has this value; a capture without link layer is IPv4. -/
def EtherIs (et : Nat) : Prop :=
  match link.etherProtoOffset with
  | some off => number pkt off 2 = some et
  | none => et = 0x0800

/-- The IPv4 protocol number. -/
def Ip4Is (n : Nat) : Prop := EtherIs pkt link 0x0800 ∧ number pkt (link.netOffset + 9) 1 = some n

/-- The IPv6 next header. -/
def Ip6Is (n : Nat) : Prop := EtherIs pkt link 0x86dd ∧ number pkt (link.netOffset + 6) 1 = some n

/-- The protocols of a port qualifier: TCP and UDP if there is none. -/
def portProtos : Option Proto → List Nat
  | none => [6, 17]
  | some .tcp => [6]
  | some .udp => [17]
  | some .sctp => [132]
  | some _ => []

/-- A first fragment, or a packet that is not fragmented. -/
def FirstFragment : Prop := ∃ f, number pkt (link.netOffset + 6) 2 = some f ∧ f % 2 ^ 13 = 0

/-- A test of the transport header, whose position depends on the IP version. -/
def AtPorts (protos : List Nat) (test : Nat → Prop) : Prop :=
  (∃ n ∈ protos, Ip4Is pkt link n ∧ FirstFragment pkt link ∧
    ∃ b, number pkt link.netOffset 1 = some b ∧ test (link.netOffset + 4 * (b % 16))) ∨
  ∃ n ∈ protos, Ip6Is pkt link n ∧ test (link.netOffset + 40)

/-- What the filter language says of a primitive; the last line is for those this module leaves
to others. -/
def Documented : Primitive → Prop
  | .host (.v4 a) dir => EtherIs pkt link 0x0800 ∧
      Directed (fun off => number pkt off 4 = some a.toNat) (link.netOffset + 12)
        (link.netOffset + 16) dir
  | .host (.v6 a) dir => EtherIs pkt link 0x86dd ∧
      Directed (fun off => ∀ i : Fin 8, number pkt (off + 2 * i) 2 = some a.segments[i].toNat)
        (link.netOffset + 8) (link.netOffset + 24) dir
  | .net n dir => EtherIs pkt link 0x0800 ∧
      Directed (fun off => ∃ v, number pkt off 4 = some v ∧
        v &&& n.mask.toNat = n.addr.toNat &&& n.mask.toNat) (link.netOffset + 12)
        (link.netOffset + 16) dir
  | .port port dir proto => AtPorts pkt link (portProtos proto) fun base =>
      Directed (fun off => number pkt off 2 = some port.toNat) base (base + 2) dir
  | .portRange lo hi dir proto => AtPorts pkt link (portProtos proto) fun base =>
      Directed (fun off => ∃ v, number pkt off 2 = some v ∧ lo.toNat ≤ v ∧ v ≤ hi.toNat) base
        (base + 2) dir
  | .proto p => match p with
    | .ip => EtherIs pkt link 0x0800
    | .ip6 => EtherIs pkt link 0x86dd
    | .arp => EtherIs pkt link 0x0806
    | .rarp => EtherIs pkt link 0x8035
    | .icmp => Ip4Is pkt link 1
    | .igmp => Ip4Is pkt link 2
    | .icmp6 => Ip6Is pkt link 58
    | .num n => Ip4Is pkt link n.toNat
    | .ip6Proto n => Ip6Is pkt link n.toNat
    | .tcp | .udp | .sctp => False
  | .etherHost addr dir =>
      Directed (fun off => ∀ i : Fin 6, number pkt (off + i) 1 = some addr.octets[i].toNat) 6 0 dir
  | .etherProto et => EtherIs pkt link et.toNat
  | .etherMulticast => ∃ b, number pkt 0 1 = some b ∧ b % 2 = 1
  | .ipBroadcast => EtherIs pkt link 0x0800 ∧
      number pkt (link.netOffset + 16) 4 = some 0xffffffff
  | .ipMulticast => EtherIs pkt link 0x0800 ∧
      ∃ v, number pkt (link.netOffset + 16) 4 = some v ∧ v / 2 ^ 28 = 0xe
  | .ip6Multicast => EtherIs pkt link 0x86dd ∧ number pkt (link.netOffset + 24) 1 = some 0xff
  | .vlan none => EtherIs pkt link 0x8100
  | .vlan (some id) => EtherIs pkt link 0x8100 ∧ ∃ off v, link.etherProtoOffset = some off ∧
      number pkt (off + 2) 2 = some v ∧ v % 2 ^ 12 = id.toNat
  | .mpls none => EtherIs pkt link 0x8847 ∨ EtherIs pkt link 0x8848
  | .pppoeDiscovery => EtherIs pkt link 0x8863
  | .pppoeSession none => EtherIs pkt link 0x8864
  | .pppoeSession (some id) => EtherIs pkt link 0x8864 ∧ ∃ off, link.etherProtoOffset = some off ∧
      number pkt (off + 4) 2 = some id.toNat
  | .ipProtoChain n => Ip4Is pkt link n.toNat
  | .ip6ProtoChain n => Ip6Is pkt link n.toNat
  | .len op value => Holds op (pkt.length % 2 ^ 32) value.toNat
  | .net6 .. | .mpls (some _) | .byteAccess _ | .inbound | .outbound => False

end Documented

/-- The primitives of this module. A transport protocol without a port, a labelled `mpls`, an IPv6
network and a byte access are not among them. -/
def hasPredicate : Primitive → Bool
  | .proto .tcp | .proto .udp | .proto .sctp | .net6 .. | .mpls (some _) | .byteAccess _ => false
  | _ => true

section Loads

variable {pkt : Vm.Packet} {off : Nat}

theorem byteAt_number (h : off < 2 ^ 32) :
    (Vm.byte pkt (.ofNat off)).map UInt32.toNat = number pkt off 1 := by
  rw [byte_number, toNat_ofNat h]

theorem halfAt_number (h : off < 2 ^ 32) :
    (halfAt pkt off).map UInt32.toNat = number pkt off 2 := by
  rw [halfAt, half_number, toNat_ofNat h]

theorem wordAt_number (h : off < 2 ^ 32) :
    (wordAt pkt off).map UInt32.toNat = number pkt off 4 := by
  rw [wordAt, word_number, toNat_ofNat h]

variable {o : Option UInt32} {m : Option Nat}

/-- A loaded value, in a packet that has it. -/
theorem loaded_some (h : o.map UInt32.toNat = m) (hm : m.isSome = true) :
    ∃ u, o = some u ∧ m = some u.toNat := by
  subst h
  cases o with
  | none => cases hm
  | some u => exact ⟨u, rfl, rfl⟩

/-- A comparison of a value that is there gives a verdict. -/
theorem equals_verdict (h : o.map UInt32.toNat = m) (hm : m.isSome = true) (k : UInt32) :
    ∃ b, equals o k = some b ∧ (b = true ↔ m = some k.toNat) := by
  obtain ⟨u, rfl, rfl⟩ := loaded_some h hm
  exact ⟨u == k, rfl, by simp [UInt32.toNat_inj]⟩

/-- The same for a value that is changed before the comparison. -/
theorem mapped_verdict (h : o.map UInt32.toNat = m) (hm : m.isSome = true) {f : UInt32 → UInt32}
    {P : Nat → Prop} {k : UInt32} (hf : ∀ u, f u = k ↔ P u.toNat) :
    ∃ b, equals (o.map f) k = some b ∧ (b = true ↔ ∃ v, m = some v ∧ P v) := by
  obtain ⟨u, rfl, rfl⟩ := loaded_some h hm
  refine ⟨f u == k, rfl, ?_⟩
  rw [beq_iff_eq, hf]
  simp

end Loads

section Tests

variable {pkt : Vm.Packet} {off : Nat}

theorem segs_verdict (segs : List UInt16) (i : Nat) (hoff : off + 2 * (i + segs.length) < 2 ^ 32)
    (hl : off + 2 * (i + segs.length) ≤ pkt.length) :
    ∃ b, segsVal pkt off i segs = some b ∧ (b = true ↔
      ∀ k (hk : k < segs.length), number pkt (off + 2 * (i + k)) 2 = some segs[k].toNat) := by
  induction segs generalizing i with
  | nil => exact ⟨true, rfl, by simp⟩
  | cons seg segs ih =>
    rw [List.length_cons] at hoff hl
    obtain ⟨b, hb, hiff⟩ := ih (i + 1) (by omega) (by omega)
    obtain ⟨c, hc, hciff⟩ := equals_verdict (@halfAt_number pkt (off + i * 2)
      (by omega)) (number_isSome.mpr (by omega)) seg.toUInt32
    refine ⟨c && b, by rw [segsVal, hb, hc, Tri.and_some], ?_⟩
    rw [Bool.and_eq_true, hiff, hciff, UInt16.toNat_toUInt32]
    constructor
    · rintro ⟨hfirst, hrest⟩ k hk
      cases k with
      | zero => rwa [show off + 2 * (i + 0) = off + i * 2 by omega]
      | succ k =>
        rw [show i + (k + 1) = i + 1 + k by omega]
        exact hrest k (by simpa using hk)
    · intro h
      refine ⟨?_, fun k hk => ?_⟩
      · have h0 := h 0 (by simp)
        rwa [show off + 2 * (i + 0) = off + i * 2 by omega] at h0
      · have hk1 := h (k + 1) (by simpa using hk)
        rwa [show i + (k + 1) = i + 1 + k by omega] at hk1

theorem host6_verdict (a : Ipv6Addr) (hoff : off ≤ 1000) (hl : off + 16 ≤ pkt.length) :
    ∃ b, segsVal pkt off 0 a.segments.toList = some b ∧ (b = true ↔
      ∀ i : Fin 8, number pkt (off + 2 * i) 2 = some a.segments[i].toNat) := by
  have hlen : a.segments.toList.length = 8 := by simp
  obtain ⟨b, hb, hiff⟩ := @segs_verdict pkt off a.segments.toList 0
    (by omega) (by omega)
  refine ⟨b, hb, hiff.trans ⟨fun h i => ?_, fun h k hk => ?_⟩⟩
  · have hi := h i (by omega)
    simpa using hi
  · have hk' := h ⟨k, by omega⟩
    simpa using hk'

theorem bigEndian_four {a b c d a' b' c' d' : UInt8} :
    bigEndian [a, b, c, d] = bigEndian [a', b', c', d'] ↔ a = a' ∧ b = b' ∧ c = c' ∧ d = d' := by
  have ha := a.toNat_lt
  have hb := b.toNat_lt
  have hc := c.toNat_lt
  have hd := d.toNat_lt
  have ha' := a'.toNat_lt
  have hb' := b'.toNat_lt
  have hc' := c'.toNat_lt
  have hd' := d'.toNat_lt
  simp only [bigEndian, List.foldl, ← UInt8.toNat_inj]
  omega

theorem number_one (h : off + 1 ≤ pkt.length) : number pkt off 1 = some pkt[off].toNat := by
  rw [number, if_pos h, List.drop_eq_getElem_cons (by omega)]
  simp only [List.take, bigEndian, List.foldl, Nat.zero_mul, Nat.zero_add]

theorem number_two (h : off + 2 ≤ pkt.length) :
    number pkt off 2 = some (bigEndian [pkt[off], pkt[off + 1]]) := by
  rw [number, if_pos h, List.drop_eq_getElem_cons (by omega),
    List.drop_eq_getElem_cons (by omega)]
  rfl

theorem number_four (h : off + 4 ≤ pkt.length) :
    number pkt off 4 = some (bigEndian [pkt[off], pkt[off + 1], pkt[off + 2], pkt[off + 3]]) := by
  rw [number, if_pos h, List.drop_eq_getElem_cons (by omega),
    List.drop_eq_getElem_cons (by omega), List.drop_eq_getElem_cons (by omega),
    List.drop_eq_getElem_cons (by omega)]
  rfl

theorem mac_verdict (addr : MacAddr) (hoff : off ≤ 1000) (hl : off + 6 ≤ pkt.length) :
    ∃ b, macVal pkt addr off = some b ∧ (b = true ↔
      ∀ i : Fin 6, number pkt (off + i) 1 = some addr.octets[i].toNat) := by
  obtain ⟨b, hb, hbiff⟩ := equals_verdict (@wordAt_number pkt off (by omega))
    (number_isSome.mpr (by omega))
    (Vm.fromBe4 addr.octets[0]! addr.octets[1]! addr.octets[2]! addr.octets[3]!)
  obtain ⟨c, hc, hciff⟩ := equals_verdict (@halfAt_number pkt (off + 4) (by omega))
    (number_isSome.mpr (by omega)) (Vm.fromBe4 0 0 addr.octets[4]! addr.octets[5]!)
  refine ⟨b && c, by rw [macVal, hb, hc, Tri.and_some], ?_⟩
  rw [Bool.and_eq_true, hbiff, hciff, toNat_fromBe4, toNat_fromBe4, number_four (by omega),
    number_two (by omega)]
  have htwo : bigEndian [pkt[off + 4], pkt[off + 4 + 1]] =
      bigEndian [0, 0, pkt[off + 4], pkt[off + 5]] := by
    simp [bigEndian]
  simp only [Option.some.injEq]
  rw [htwo, bigEndian_four, bigEndian_four]
  have hone : ∀ i : Fin 6, number pkt (off + i) 1 = some addr.octets[i].toNat ↔
      pkt[off + i] = addr.octets[i] := by
    intro i
    rw [number_one (by omega), Option.some.injEq, UInt8.toNat_inj]
  simp only [hone]
  constructor
  · rintro ⟨⟨h0, h1, h2, h3⟩, -, -, h4, h5⟩ i
    fin_cases i
    · exact h0
    · exact h1
    · exact h2
    · exact h3
    · exact h4
    · exact h5
  · intro h
    exact ⟨⟨h 0, h 1, h 2, h 3⟩, trivial, trivial, h 4, h 5⟩

/-- The four highest of 32 bits. -/
theorem high_bits {n : Nat} (h : n < 2 ^ 32) : n &&& 0xf0000000 = n / 2 ^ 28 * 2 ^ 28 := by
  refine Nat.eq_of_testBit_eq fun k => ?_
  have hmask : (0xf0000000 : Nat) = (2 ^ 4 - 1) <<< 28 := rfl
  rw [Nat.testBit_and, hmask, Nat.testBit_shiftLeft, Nat.testBit_two_pow_sub_one,
    ← Nat.shiftLeft_eq, Nat.testBit_shiftLeft, ← Nat.shiftRight_eq_div_pow, Nat.testBit_shiftRight]
  by_cases hk : 28 ≤ k
  · by_cases h32 : k < 32
    · have hs : k - 28 < 4 := by omega
      simp [hk, hs]
    · have hz : n.testBit k = false :=
        Nat.testBit_lt_two_pow (Nat.lt_of_lt_of_le h (Nat.pow_le_pow_right (by omega) (by omega)))
      simp [hz, hk]
  · simp [hk]

end Tests

section Guards

variable {pkt : Vm.Packet} {link : LinkType}

theorem etherVal_is {et : UInt32} (h : guardOk (.ethertype et) link = true) :
    etherVal pkt link 0 et = some true ↔ EtherIs pkt link et.toNat := by
  cases ho : link.etherProtoOffset with
  | some off =>
    rw [etherVal_iff ho, EtherIs, ho]
  | none =>
    have het : et = 0x0800 := by simpa [guardOk, ho] using h
    have hat : etherAt link 0 = none := by simp [etherAt, ho]
    simp [etherVal, hat, EtherIs, ho, het]

theorem netAt_zero : netAt link 0 = link.netOffset := by simp [netAt]

theorem ip4Val_is (n : UInt8) :
    ip4Val pkt link 0 n = some true ↔ number pkt (link.netOffset + 9) 1 = some n.toNat := by
  have hnet := netOffset_small link
  rw [ip4Val, netAt_zero, equals_iff (byteAt_number (by omega)), UInt8.toNat_toUInt32]

theorem ip6Val_is (n : UInt8) :
    ip6Val pkt link 0 n = some true ↔ number pkt (link.netOffset + 6) 1 = some n.toNat := by
  have hnet := netOffset_small link
  rw [ip6Val, netAt_zero, equals_iff (byteAt_number (by omega)), UInt8.toNat_toUInt32]

theorem ip4Guard_is (n : UInt8) :
    guardVal pkt link 0 (.ip4 n) = some true ↔ Ip4Is pkt link n.toNat := by
  rw [guardVal, Tri.and_eq_true, ip4Val_is, etherVal_is (by simp [guardOk]), Ip4Is]
  rfl

theorem ip6Guard_is {n : UInt8} (h : guardOk (.ip6 n) link = true) :
    guardVal pkt link 0 (.ip6 n) = some true ↔ Ip6Is pkt link n.toNat := by
  have hok : guardOk (.ethertype 0x86dd) link = true := by
    have h' : link.etherProtoOffset.isSome = true := h
    simp [guardOk, h']
  rw [guardVal, Tri.and_eq_true, ip6Val_is, etherVal_is hok, Ip6Is]
  rfl

/-- The protocols of a set, as numbers. -/
def setProtos : L4Set → List Nat
  | .one n => [n.toNat]
  | .tcpOrUdp => [6, 17]

theorem l4setFor_protos {proto : Option Proto} {want : L4Set} (h : l4setFor proto = .ok want) :
    setProtos want = portProtos proto := by
  cases proto with
  | none =>
    cases h
    rfl
  | some p => cases p <;> first | cases h; rfl | cases h

theorem l4Val_is {off : Nat} (want : L4Set) (h : off < 2 ^ 32) :
    l4Val pkt off want = some true ↔ ∃ n ∈ setProtos want, number pkt off 1 = some n := by
  have hb := @byteAt_number pkt off h
  unfold l4Val
  rw [← hb]
  cases Vm.byte pkt (.ofNat off) with
  | none => simp
  | some v =>
    cases want with
    | one n => simp [admits, setProtos, ← UInt32.toNat_inj]
    | tcpOrUdp => simp [admits, setProtos, ← UInt32.toNat_inj]

theorem fragVal_is : fragVal pkt link 0 = some true ↔ FirstFragment pkt link := by
  have hnet := netOffset_small link
  have hb := @halfAt_number pkt (link.netOffset + 6) (by omega)
  unfold fragVal FirstFragment
  rw [netAt_zero, ← hb]
  unfold halfAt
  cases Vm.half pkt (.ofNat (link.netOffset + 6)) with
  | none => simp
  | some v =>
    have hm : (v &&& 0x1fff).toNat = v.toNat % 2 ^ 13 := by
      rw [UInt32.toNat_and]
      exact Nat.and_two_pow_sub_one_eq_mod _ 13
    simp [← UInt32.toNat_inj, hm]

section Ports

variable {want : L4Set} {T : UInt32 → Prop} {test : Nat → Prop}

/-- The IPv4 side of the port prologue, and a test with the header length in X. -/
theorem ports4_iff (hT : ∀ base, base ≤ 60 → (T (.ofNat base) ↔ test (link.netOffset + base)))
    (hl : link.netOffset + 1 ≤ pkt.length) :
    (ports4 pkt link 0 want = some true ∧ T ((ihl pkt link 0).getD 0)) ↔
      (∃ n ∈ setProtos want, number pkt (link.netOffset + 9) 1 = some n) ∧ FirstFragment pkt link ∧
        ∃ b, number pkt link.netOffset 1 = some b ∧ test (link.netOffset + 4 * (b % 16)) := by
  have hnet := netOffset_small link
  obtain ⟨b, hb, hnum⟩ := loaded_some (@byteAt_number pkt link.netOffset (by omega))
    (number_isSome.mpr hl)
  have hihl : ihl pkt link 0 = some (.ofNat (4 * (b.toNat % 16))) := by
    rw [ihl, netAt_zero, hb, Option.map_some]
    have hm : (b &&& 0xf).toNat = b.toNat % 16 := by
      rw [UInt32.toNat_and]
      exact Nat.and_two_pow_sub_one_eq_mod _ 4
    congr 1
    apply UInt32.toNat_inj.mp
    rw [UInt32.toNat_mul, hm, toNat_ofNat (by omega)]
    have h4 : (4 : UInt32).toNat = 4 := rfl
    rw [h4]
    omega
  rw [ports4, netAt_zero, Tri.and_eq_true, Tri.and_eq_true, l4Val_is want (by omega), fragVal_is,
    hihl, Option.getD_some, hT _ (by omega), hnum]
  simp only [Option.map_some, Option.some.injEq, exists_eq_left', and_true, and_assoc]

theorem ports6_iff (hT : ∀ base, base ≤ 60 → (T (.ofNat base) ↔ test (link.netOffset + base))) :
    (ports6 pkt link 0 want = some true ∧ T 40) ↔
      (∃ n ∈ setProtos want, number pkt (link.netOffset + 6) 1 = some n) ∧
        test (link.netOffset + 40) := by
  have hnet := netOffset_small link
  rw [ports6, netAt_zero, l4Val_is want (by omega)]
  exact and_congr Iff.rfl (hT 40 (by omega))

/-- The two IP versions of a test behind the ports, the ethertype first. -/
theorem atPorts_iff (protos : List Nat) : AtPorts pkt link protos test ↔
    (EtherIs pkt link 0x0800 ∧ (∃ n ∈ protos, number pkt (link.netOffset + 9) 1 = some n) ∧
      FirstFragment pkt link ∧
        ∃ b, number pkt link.netOffset 1 = some b ∧ test (link.netOffset + 4 * (b % 16))) ∨
    (EtherIs pkt link 0x86dd ∧ (∃ n ∈ protos, number pkt (link.netOffset + 6) 1 = some n) ∧
      test (link.netOffset + 40)) := by
  unfold AtPorts Ip4Is Ip6Is
  refine or_congr ⟨?_, ?_⟩ ⟨?_, ?_⟩
  · rintro ⟨n, hn, ⟨he, hp⟩, hrest⟩
    exact ⟨he, ⟨n, hn, hp⟩, hrest⟩
  · rintro ⟨he, ⟨n, hn, hp⟩, hrest⟩
    exact ⟨n, hn, ⟨he, hp⟩, hrest⟩
  · rintro ⟨n, hn, ⟨he, hp⟩, hrest⟩
    exact ⟨he, ⟨n, hn, hp⟩, hrest⟩
  · rintro ⟨he, ⟨n, hn, hp⟩, hrest⟩
    exact ⟨n, hn, ⟨he, hp⟩, hrest⟩

/-- The port prologue, and a test that finds in X where the transport header is. -/
theorem ports_iff (hT : ∀ base, base ≤ 60 → (T (.ofNat base) ↔ test (link.netOffset + base)))
    (hl : link.netOffset + 64 ≤ pkt.length) :
    (portsVal pkt link 0 want = some true ∧ T (portsX pkt link 0)) ↔
      AtPorts pkt link (setProtos want) test := by
  have hnet := netOffset_small link
  rw [atPorts_iff, ← ports4_iff hT (by omega), ← ports6_iff hT]
  unfold EtherIs portsVal portsX
  cases ho : link.etherProtoOffset with
  | none =>
    have hat : etherAt link 0 = none := by simp [etherAt, ho]
    simp [hat]
  | some off =>
    have hoff : off ≤ 14 := by
      cases link <;> simp [LinkType.etherProtoOffset] at ho <;> omega
    have hat : etherAt link 0 = some off := by simp [etherAt, ho]
    obtain ⟨et, het, hnum⟩ := loaded_some (@halfAt_number pkt off (by omega))
      (number_isSome.mpr (by
        cases link <;> simp [LinkType.etherProtoOffset, LinkType.netOffset] at ho hl <;> omega))
    have het' : Vm.half pkt (.ofNat off) = some et := het
    have hnat : ∀ k : UInt32, et.toNat = k.toNat ↔ et = k := fun k => UInt32.toNat_inj
    have h86 := hnat 0x86dd
    have h08 := hnat 0x0800
    simp only [UInt32.reduceToNat] at h86 h08
    simp only [hat, het', hnum, Option.some.injEq, h86, h08]
    by_cases h6 : et = 0x86dd
    · simp [h6]
    · by_cases h4 : et = 0x0800
      · simp [h4]
      · simp [h6, h4]

end Ports

end Guards

section Leaves

variable {pkt : Vm.Packet} {link : LinkType} {dir : Dir}

theorem portAt_number {base off : Nat} (hb : base ≤ 60) (ho : off ≤ 100) :
    (portAt pkt (.ofNat base) off).map UInt32.toNat = number pkt (base + off) 2 := by
  rw [portAt, half_number, UInt32.toNat_add, toNat_ofNat (by omega), toNat_ofNat (by omega),
    Nat.mod_eq_of_lt (by omega)]

theorem directed_shift {test : Nat → Prop} (base net : Nat) :
    Directed (fun off => test (base + off)) net (net + 2) dir ↔
      Directed test (net + base) (net + base + 2) dir := by
  have h : base + (net + 2) = net + base + 2 := by omega
  cases dir <;> simp only [Directed, h, Nat.add_comm base net]

variable (hl : link.netOffset + 64 ≤ pkt.length)
include hl

theorem port_directed (port : UInt16) {base : Nat} (hb : base ≤ 60) :
    addrVal (portAt pkt (.ofNat base)) port.toUInt32 link.netOffset (link.netOffset + 2) dir =
        some true ↔
      Directed (fun off => number pkt off 2 = some port.toNat) (link.netOffset + base)
        (link.netOffset + base + 2) dir := by
  have hnet := netOffset_small link
  have hv : ∀ off, off ≤ link.netOffset + 2 → ∃ b, equals (portAt pkt (.ofNat base) off)
      port.toUInt32 = some b ∧ (b = true ↔ number pkt (base + off) 2 = some port.toNat) := by
    intro off ho
    have h := equals_verdict (@portAt_number pkt base off hb (by omega))
      (number_isSome.mpr (by omega)) port.toUInt32
    rwa [UInt16.toNat_toUInt32] at h
  rw [addrVal_eq_bothVal,
    ← @directed_shift dir (fun off => number pkt off 2 = some port.toNat) base link.netOffset]
  exact both_directed (hv link.netOffset (by omega)) (hv (link.netOffset + 2) (by omega))

theorem range_directed (lo hi : UInt16) {base : Nat} (hb : base ≤ 60) :
    bothVal (rangeVal pkt lo hi (.ofNat base)) link.netOffset (link.netOffset + 2) link.netOffset
        (link.netOffset + 2) dir = some true ↔
      Directed (fun off => ∃ v, number pkt off 2 = some v ∧ lo.toNat ≤ v ∧ v ≤ hi.toNat)
        (link.netOffset + base) (link.netOffset + base + 2) dir := by
  have hnet := netOffset_small link
  have hv : ∀ off, off ≤ link.netOffset + 2 → ∃ b, rangeVal pkt lo hi (.ofNat base) off = some b ∧
      (b = true ↔ ∃ v, number pkt (base + off) 2 = some v ∧ lo.toNat ≤ v ∧ v ≤ hi.toNat) := by
    intro off ho
    obtain ⟨u, hu, hnum⟩ := loaded_some (@portAt_number pkt base off hb (by omega))
      (number_isSome.mpr (by omega))
    refine ⟨decide (lo.toUInt32 ≤ u) && decide (u ≤ hi.toUInt32), by rw [rangeVal, hu]; rfl, ?_⟩
    rw [hnum]
    simp [UInt32.le_iff_toNat_le]
  rw [← @directed_shift dir (fun off => ∃ v, number pkt off 2 = some v ∧ lo.toNat ≤ v ∧
    v ≤ hi.toNat) base link.netOffset]
  exact both_directed (hv link.netOffset (by omega)) (hv (link.netOffset + 2) (by omega))

theorem host4_directed (a : UInt32) :
    addrVal (wordAt pkt) a (link.netOffset + 12) (link.netOffset + 16) dir = some true ↔
      Directed (fun off => number pkt off 4 = some a.toNat) (link.netOffset + 12)
        (link.netOffset + 16) dir := by
  have hnet := netOffset_small link
  rw [addrVal_eq_bothVal]
  exact both_directed
    (equals_verdict (wordAt_number (by omega)) (number_isSome.mpr (by omega)) a)
    (equals_verdict (wordAt_number (by omega)) (number_isSome.mpr (by omega)) a)

theorem net_directed (n : IpNet) :
    addrVal (fun off => (wordAt pkt off).map (· &&& n.mask)) (n.addr &&& n.mask)
        (link.netOffset + 12) (link.netOffset + 16) dir = some true ↔
      Directed (fun off => ∃ v, number pkt off 4 = some v ∧
        v &&& n.mask.toNat = n.addr.toNat &&& n.mask.toNat) (link.netOffset + 12)
        (link.netOffset + 16) dir := by
  have hnet := netOffset_small link
  have hf : ∀ u : UInt32, u &&& n.mask = n.addr &&& n.mask ↔
      u.toNat &&& n.mask.toNat = n.addr.toNat &&& n.mask.toNat := by
    intro u
    rw [← UInt32.toNat_inj, UInt32.toNat_and, UInt32.toNat_and]
  rw [addrVal_eq_bothVal]
  exact both_directed
    (mapped_verdict (wordAt_number (by omega)) (number_isSome.mpr (by omega)) hf)
    (mapped_verdict (wordAt_number (by omega)) (number_isSome.mpr (by omega)) hf)

theorem host6_directed (a : Ipv6Addr) :
    bothVal (fun off => segsVal pkt off 0 a.segments.toList) (link.netOffset + 8)
        (link.netOffset + 24) (link.netOffset + 8) (link.netOffset + 24) dir = some true ↔
      Directed (fun off => ∀ i : Fin 8, number pkt (off + 2 * i) 2 = some a.segments[i].toNat)
        (link.netOffset + 8) (link.netOffset + 24) dir := by
  have hnet := netOffset_small link
  exact both_directed (host6_verdict a (by omega) (by omega)) (host6_verdict a (by omega) (by omega))

end Leaves

section Theorem

theorem l4setFor_ok {proto : Option Proto} (h : (l4setFor proto).toOption.isSome = true) :
    ∃ want, l4setFor proto = .ok want := by
  cases hw : l4setFor proto with
  | ok want => exact ⟨want, rfl⟩
  | error e =>
    rw [hw] at h
    cases h

theorem portsGuard_ok {proto : Option Proto} {want : L4Set} (h : l4setFor proto = .ok want) :
    portsGuard proto = .ports want := by
  rw [portsGuard, h]

variable {pkt : Vm.Packet} {link : LinkType} {p : Primitive} {insns : List Insn}

theorem and_true_right {P Q R : Prop} (h : P ↔ Q) (hr : R) : (P ∧ R) ↔ Q :=
  (and_iff_left hr).trans h

theorem etherProtoOffset_small {off : Nat} (ho : link.etherProtoOffset = some off) :
    off ≤ 14 ∧ off + 2 ≤ link.netOffset := by
  cases link with
  | ethernet =>
    cases ho
    decide
  | linuxSll =>
    cases ho
    decide
  | rawIp => cases ho

/-- A primitive that asks for another ethertype than IPv4's only compiles where there is one. -/
theorem ether_of_guard {et : UInt32} (h : guardOk (.ethertype et) link = true) (hne : et ≠ 0x0800) :
    ∃ off, link.etherProtoOffset = some off ∧ off ≤ 14 ∧ off + 2 ≤ link.netOffset := by
  cases ho : link.etherProtoOffset with
  | some off => exact ⟨off, rfl, etherProtoOffset_small ho⟩
  | none => exact absurd (by simpa [guardOk, ho] using h) hne

theorem mpls_verdict {off : Nat} (ho : link.etherProtoOffset = some off)
    (hl : off + 2 ≤ pkt.length) :
    mplsVal pkt none off = some true ↔ EtherIs pkt link 0x8847 ∨ EtherIs pkt link 0x8848 := by
  have hoff : off ≤ 14 := by
    cases link <;> simp [LinkType.etherProtoOffset] at ho <;> omega
  obtain ⟨b, hb, hbiff⟩ := equals_verdict (@halfAt_number pkt off (by omega))
    (number_isSome.mpr hl) 0x8847
  obtain ⟨c, hc, hciff⟩ := equals_verdict (@halfAt_number pkt off (by omega))
    (number_isSome.mpr hl) 0x8848
  rw [mplsVal, hb, hc, EtherIs, EtherIs, ho]
  have h47 : (0x8847 : UInt32).toNat = 0x8847 := rfl
  have h48 : (0x8848 : UInt32).toNat = 0x8848 := rfl
  rw [h47] at hbiff
  rw [h48] at hciff
  simp [← hbiff, ← hciff]

/-- On packets that hold every header whole, the program of a primitive accepts exactly what the
filter language says. -/
theorem leaf_documented (hc : compile (.primitive p) link = .ok insns)
    (hp : hasPredicate p = true)
    (he : p = .etherMulticast ∨ (∃ addr dir, p = .etherHost addr dir) → link = .ethernet)
    (hl : link.netOffset + 64 ≤ pkt.length) :
    Vm.run insns pkt = true ↔ Documented pkt link p := by
  have hnet := netOffset_small link
  have hok : primOk p link = true := (compileWith_ok.mp hc).1.1.leaves p List.mem_cons_self
  have hguard : guardOk (guardOf p) link = true := by
    simp only [primOk, Bool.and_eq_true] at hok
    exact hok.1
  have hbody : bodyOk p link = true := by
    simp only [primOk, Bool.and_eq_true] at hok
    exact hok.2
  rw [leaf_accepts hc]
  cases p with
  | host a dir =>
    cases a with
    | v4 a => exact and_congr (etherVal_is hguard) (host4_directed hl a)
    | v6 a => exact and_congr (etherVal_is hguard) (host6_directed hl a)
  | net n dir => exact and_congr (etherVal_is hguard) (net_directed hl n)
  | port port dir proto =>
    obtain ⟨want, hw⟩ : ∃ want, l4setFor proto = .ok want := l4setFor_ok hbody
    rw [Documented, ← l4setFor_protos hw, show guardOf (.port port dir proto) = .ports want from
      portsGuard_ok hw]
    exact ports_iff (T := fun x => bodyVal pkt (.port port dir proto) link 0 x = some true)
      (fun base hb => port_directed hl port hb) hl
  | portRange lo hi dir proto =>
    obtain ⟨want, hw⟩ : ∃ want, l4setFor proto = .ok want := l4setFor_ok hbody
    rw [Documented, ← l4setFor_protos hw, show guardOf (.portRange lo hi dir proto) = .ports want from
      portsGuard_ok hw]
    exact ports_iff (T := fun x => bodyVal pkt (.portRange lo hi dir proto) link 0 x = some true)
      (fun base hb => range_directed hl lo hi hb) hl
  | proto q =>
    cases q with
    | ip | ip6 | arp | rarp => exact and_true_right (etherVal_is hguard) rfl
    | icmp | igmp => exact and_true_right (ip4Guard_is _) rfl
    | num n => exact and_true_right (ip4Guard_is n) rfl
    | icmp6 => exact and_true_right (ip6Guard_is hguard) rfl
    | ip6Proto n => exact and_true_right (ip6Guard_is hguard) rfl
    | tcp | udp | sctp => cases hp
  | etherHost addr dir =>
    have hlink := he (.inr ⟨addr, dir, rfl⟩)
    subst hlink
    refine (and_iff_right rfl).trans ?_
    show bothVal (macVal pkt addr) 6 0 0 6 dir = some true ↔
      Directed (fun off => ∀ i : Fin 6, number pkt (off + i) 1 = some addr.octets[i].toNat) 6 0 dir
    exact both_directed_dst (@mac_verdict pkt 6 addr (by omega) (by omega))
      (@mac_verdict pkt 0 addr (by omega) (by omega))
  | etherProto et =>
    have h := @etherVal_is pkt link _ hguard
    rw [UInt16.toNat_toUInt32] at h
    exact and_true_right h rfl
  | etherMulticast =>
    refine (and_iff_right rfl).trans ?_
    obtain ⟨u, hu, hnum⟩ := loaded_some (@byteAt_number pkt 0 (by omega))
      (number_isSome.mpr (by omega))
    have hone : (u &&& 1).toNat = u.toNat % 2 := by
      rw [UInt32.toNat_and]
      exact Nat.and_two_pow_sub_one_eq_mod _ 1
    show (Vm.byte pkt (.ofNat 0)).map (· &&& 0x01 != 0) = some true ↔ ∃ b, number pkt 0 1 = some b ∧ b % 2 = 1
    rw [hu, hnum]
    simp [← UInt32.toNat_inj, hone]
  | ipBroadcast =>
    exact and_congr (etherVal_is hguard) (equals_iff (wordAt_number (by omega)) _)
  | ipMulticast =>
    refine and_congr (etherVal_is hguard) ?_
    obtain ⟨b, hb, hiff⟩ := mapped_verdict (k := 0xe0000000) (f := (· &&& 0xf0000000))
      (P := fun v => v / 2 ^ 28 = 0xe)
      (@wordAt_number pkt (link.netOffset + 16) (by omega))
      (number_isSome.mpr (by omega)) fun u => by
        rw [← UInt32.toNat_inj, UInt32.toNat_and, show (0xf0000000 : UInt32).toNat = 0xf0000000 from rfl,
          high_bits u.toNat_lt, show (0xe0000000 : UInt32).toNat = 0xe * 2 ^ 28 from rfl]
        omega
    refine Iff.trans ?_ hiff
    show equals ((wordAt pkt (link.netOffset + 16)).map (· &&& 0xf0000000)) 0xe0000000 = some true ↔ _
    rw [hb, Option.some.injEq]
  | ip6Multicast =>
    exact and_congr (etherVal_is hguard) (equals_iff (byteAt_number (by omega)) _)
  | vlan id =>
    cases id with
    | none => exact and_true_right (etherVal_is hguard) rfl
    | some id =>
      refine and_congr (etherVal_is hguard) ?_
      obtain ⟨off, ho, hoff⟩ := ether_of_guard hguard (by decide)
      obtain ⟨b, hb, hiff⟩ := mapped_verdict (k := id.toUInt32) (f := (· &&& 0x0fff))
        (P := fun v => v % 2 ^ 12 = id.toNat) (@halfAt_number pkt (off + 2) (by omega))
        (number_isSome.mpr (by omega)) fun u => by
          rw [← UInt32.toNat_inj, UInt32.toNat_and, UInt16.toNat_toUInt32]
          exact Eq.congr_left (Nat.and_two_pow_sub_one_eq_mod _ 12)
      have hv : bodyVal pkt (.vlan (some id)) link 0 (portsX pkt link 0) = some b := by
        simp only [bodyVal, ho]
        exact hb
      rw [hv, Option.some.injEq, hiff]
      simp [ho]
  | mpls label =>
    cases label with
    | some lbl => cases hp
    | none =>
      have hlink : link ≠ .rawIp := by
        intro h
        subst h
        cases hbody
      obtain ⟨off, ho⟩ : ∃ off, link.etherProtoOffset = some off := by
        cases link <;> first | exact ⟨_, rfl⟩ | exact absurd rfl hlink
      have hv : bodyVal pkt (.mpls none) link 0 (portsX pkt link 0) = mplsVal pkt none off := by
        simp only [bodyVal, ho]
        rfl
      refine (and_iff_right rfl).trans ?_
      rw [hv]
      have hoff := etherProtoOffset_small ho
      exact mpls_verdict ho (by omega)
  | pppoeDiscovery => exact and_true_right (etherVal_is hguard) rfl
  | pppoeSession id =>
    cases id with
    | none => exact and_true_right (etherVal_is hguard) rfl
    | some id =>
      refine and_congr (etherVal_is hguard) ?_
      obtain ⟨off, ho, hoff⟩ := ether_of_guard hguard (by decide)
      have hv : bodyVal pkt (.pppoeSession (some id)) link 0 (portsX pkt link 0) =
          equals (halfAt pkt (off + 4)) id.toUInt32 := by
        simp only [bodyVal, ho]
        rfl
      rw [hv, equals_iff (halfAt_number (by omega)), UInt16.toNat_toUInt32]
      simp [ho]
  | ipProtoChain n => exact and_true_right (ip4Guard_is n) rfl
  | ip6ProtoChain n => exact and_true_right (ip6Guard_is hguard) rfl
  | len op value =>
    refine (and_iff_right rfl).trans ?_
    show some (cmpVal op (Vm.pktLen pkt) value) = some true ↔ _
    rw [Option.some.injEq, cmpVal_holds, Vm.pktLen, UInt32.toNat_ofNat']
    rfl
  | net6 | byteAccess => cases hp
  | inbound | outbound => cases hbody

end Theorem

/-- `udp portrange 50-100` from either side, on an IPv4 packet of 78 bytes from port 80. -/
theorem leaf_documented_range : ∃ insns,
    compile (.primitive (.portRange 50 100 .srcOrDst (some .udp))) .ethernet = .ok insns ∧
      Vm.run insns (List.replicate 12 0 ++ [8, 0, 0x46] ++ List.replicate 8 0 ++ [17] ++
        List.replicate 14 0 ++ [0, 80] ++ List.replicate 38 0) = true := by
  obtain ⟨insns, hc⟩ := @leaf_compiles .hoist (.portRange 50 100 .srcOrDst (some .udp)) .ethernet
    (by decide)
  refine ⟨insns, hc, (leaf_documented hc (by decide) (by simp) (by decide)).mpr (.inl ?_)⟩
  exact ⟨17, by decide, ⟨show number _ 12 2 = some 0x0800 by decide, by decide⟩, ⟨0, by decide, by decide⟩, 0x46,
    by decide, .inl ⟨80, by decide, by decide, by decide⟩⟩

end PktBaffle.Proofs.Classic
