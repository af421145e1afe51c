import PktBaffle.Proofs.Classic.Compositional
import PktBaffle.Proofs.Prefix

namespace PktBaffle.Proofs.Parity
open Vm (Packet)
open PktBaffle.Classic (LinkType)
open Fields Forward Prefix

/-- A verdict that is the outcome of a test, where the test has one. -/
def Follows (t : Tri) (x : Bool) : Prop := ∀ b, t = some b → x = b

namespace Follows

variable {t u : Tri} {x y : Bool}

theorem some (b : Bool) : Follows (some b) b := by
  intro c h
  exact Option.some.inj h

theorem none (x : Bool) : Follows none x := by
  intro b h
  cases h

theorem and (h : Follows t x) (h' : t = Option.some true → Follows u y) :
    Follows (t.and u) (x && y) := by
  rcases t with _ | _ | _
  · exact .none _
  · rw [h false rfl]
    exact .some false
  · rw [h true rfl, Bool.true_and]
    exact h' rfl

theorem or (h : Follows t x) (h' : t = Option.some false → Follows u y) :
    Follows (t.or u) (x || y) := by
  rcases t with _ | _ | _
  · exact .none _
  · rw [h false rfl, Bool.false_or]
    exact h' rfl
  · rw [h true rfl]
    exact .some true

end Follows

/-- A constant that the extended machine compares as it stands: its immediates are signed. -/
def Unsigned (k : UInt32) : Prop := k.toNat < 2 ^ 31

instance (k : UInt32) : Decidable (Unsigned k) := inferInstanceAs (Decidable (_ < _))

section Constants

variable {k : UInt32}

theorem wide_unsigned (hk : Unsigned k) : Ebpf.wide k.toInt32 = k.toUInt64 := by
  unfold Unsigned at hk
  have hi : k.toInt32.toInt = (k.toNat : Int) := by
    have h := BitVec.toInt_eq_toNat_cond k.toBitVec
    change k.toInt32.toInt = _ at h
    rw [h, if_pos (by change 2 * k.toNat < 2 ^ 32; omega)]
    rfl
  rw [Ebpf.wide, hi, Ebpf.sext_natCast (by omega)]
  simp

theorem beq_unsigned (hk : Unsigned k) (v : UInt32) :
    (v.toUInt64 == Ebpf.wide k.toInt32) = (v == k) := by
  rw [wide_unsigned hk, Bool.eq_iff_iff, beq_iff_eq, beq_iff_eq]
  simp [← UInt64.toNat_inj, ← UInt32.toNat_inj]

theorem unsigned_of_le {n : Nat} (h : k.toNat ≤ n) (hn : n < 2 ^ 31) : Unsigned k :=
  Nat.lt_of_le_of_lt h hn

theorem unsigned_byte (n : UInt8) : Unsigned n.toUInt32 := by
  have h := n.toNat_lt
  exact unsigned_of_le (n := 255) (by simp; omega) (by decide)

theorem unsigned_half (n : UInt16) : Unsigned n.toUInt32 := by
  have h := n.toNat_lt
  exact unsigned_of_le (n := 65535) (by simp; omega) (by decide)

theorem unsigned_and {m : UInt32} (h : Unsigned k) : Unsigned (k &&& m) := by
  unfold Unsigned at *
  rw [UInt32.toNat_and]
  exact Nat.lt_of_le_of_lt Nat.and_le_left h

/-- A comparison with such a constant is the same in 32 and in 64 bits. -/
theorem cmp_unsigned (hk : Unsigned k) (op : CmpOp) (v : UInt32) :
    Ebpf.cmpVal op v.toUInt64 k = Classic.cmpVal op v k := by
  unfold Ebpf.cmpVal
  rw [wide_unsigned hk]
  cases op with
  | eq => exact wide_unsigned hk ▸ beq_unsigned hk v
  | ne =>
    have h := beq_unsigned hk v
    rw [wide_unsigned hk] at h
    simp only [Classic.cmpVal, bne, h]
  | gt => simp [Classic.cmpVal, UInt64.lt_iff_toNat_lt, UInt32.lt_iff_toNat_lt]
  | ge => simp [Classic.cmpVal, UInt64.le_iff_toNat_le, UInt32.le_iff_toNat_le]
  | lt => simp [Classic.cmpVal, UInt64.lt_iff_toNat_lt, UInt32.lt_iff_toNat_lt]
  | le => simp [Classic.cmpVal, UInt64.le_iff_toNat_le, UInt32.le_iff_toNat_le]
  | bitAnd =>
    simp only [Classic.cmpVal, bne]
    congr 1
    rw [Bool.eq_iff_iff, beq_iff_eq, beq_iff_eq, ← UInt64.toNat_inj, ← UInt32.toNat_inj]
    simp

end Constants

section Fields

variable {pkt : Packet} {n : AccessSize} {k v : UInt32} {off : Nat}

/-- What the software VM loads is the field the extended code reads. -/
theorem field_of_load (h : Classic.sizedVal pkt n k = some v) :
    k.toNat + Extended.AccessSize.bytes n ≤ pkt.length ∧ Ebpf.field pkt n k.toNat = v := by
  have hlen : (pkt.drop k.toNat).length = pkt.length - k.toNat := List.length_drop
  unfold Ebpf.field
  cases n with
  | byte =>
    have h' : Vm.byte pkt k = some v := h
    unfold Vm.byte at h'
    rcases hd : pkt.drop k.toNat with _ | ⟨a, rest⟩
    · simp [hd] at h'
    · simp only [hd, Option.some.injEq] at h'
      rw [hd, List.length_cons] at hlen
      exact ⟨by simp only [Extended.AccessSize.bytes]; omega, h'⟩
  | half =>
    have h' : Vm.half pkt k = some v := h
    unfold Vm.half at h'
    rcases hd : pkt.drop k.toNat with _ | ⟨a, _ | ⟨b, rest⟩⟩
    · simp [hd] at h'
    · simp [hd] at h'
    · simp only [hd, Option.some.injEq] at h'
      rw [hd, List.length_cons, List.length_cons] at hlen
      exact ⟨by simp only [Extended.AccessSize.bytes]; omega, h'⟩
  | word =>
    have h' : Vm.word pkt k = some v := h
    unfold Vm.word at h'
    rcases hd : pkt.drop k.toNat with _ | ⟨a, _ | ⟨b, _ | ⟨c, _ | ⟨d, rest⟩⟩⟩⟩
    · simp [hd] at h'
    · simp [hd] at h'
    · simp [hd] at h'
    · simp [hd] at h'
    · simp only [hd, Option.some.injEq] at h'
      rw [hd] at hlen
      simp only [List.length_cons] at hlen
      exact ⟨by simp only [Extended.AccessSize.bytes]; omega, h'⟩

variable (ha : Addressable pkt)
include ha

/-- The bounds check of the extended code passes where the software VM can load. -/
theorem inside_of_load (h : Classic.sizedVal pkt n k = some v) :
    Ebpf.inside pkt n k.toNat = true ∧ Ebpf.loaded pkt n k.toNat = v.toUInt64 := by
  obtain ⟨hlen, hf⟩ := field_of_load h
  refine ⟨(fits_iff ha _).mpr hlen, ?_⟩
  rw [Ebpf.loaded, hf]

/-- A load at a fixed offset, and a test of what it loads. -/
theorem follows_load {f : UInt32 → Bool} {g : UInt32 → Bool} (hoff : off < 2 ^ 32)
    (hg : ∀ v, f v = g v) :
    Follows ((Classic.sizedVal pkt n (.ofNat off)).map f)
      (Ebpf.inside pkt n off && g (Ebpf.field pkt n off)) := by
  intro b hb
  obtain ⟨v, hv, rfl⟩ := Option.map_eq_some_iff.mp hb
  have hin := (inside_of_load ha hv).1
  have hf := (field_of_load hv).2
  rw [Classic.toNat_ofNat hoff] at hin hf
  rw [hin, hf, Bool.true_and, hg]

theorem follows_equals (hoff : off < 2 ^ 32) (hk : Unsigned k) :
    Follows (Classic.equals (Classic.sizedVal pkt n (.ofNat off)) k)
      (Ebpf.checkVal pkt n off k) :=
  follows_load (g := fun v => v.toUInt64 == Ebpf.wide k.toInt32) ha hoff
    fun v => (beq_unsigned hk v).symm

theorem follows_masked (hoff : off < 2 ^ 32) (hk : Unsigned k) (m : UInt32) :
    Follows (Classic.equals ((Classic.sizedVal pkt n (.ofNat off)).map (· &&& m)) k)
      (Ebpf.inside pkt n off && (Ebpf.field pkt n off &&& m).toUInt64 ==
        Ebpf.wide k.toInt32) := by
  rw [Classic.equals, Option.map_map]
  exact follows_load (g := fun v => (v &&& m).toUInt64 == Ebpf.wide k.toInt32) ha hoff
    fun v => (beq_unsigned hk (v &&& m)).symm

end Fields

section Tests

variable {pkt : Packet} {link : LinkType} {dir : Dir}

/-- The four directions of a load and a comparison. -/
theorem follows_addr {val : Nat → Option UInt32} {fit : Nat → Bool} {val' : Nat → UInt64}
    {k : UInt32} {w : Int32} {so dst so' dst' : Nat}
    (hs : ∀ v, val so = some v → fit so' = true ∧ (val' so' == Ebpf.wide w) = (v == k))
    (hd : ∀ v, val dst = some v → fit dst' = true ∧ (val' dst' == Ebpf.wide w) = (v == k)) :
    Follows (Classic.addrVal val k so dst dir) (Ebpf.addrVal fit val' w so' dst' dir) := by
  have test : ∀ off off', (∀ v, val off = some v → fit off' = true ∧
      (val' off' == Ebpf.wide w) = (v == k)) →
      Follows (Classic.equals (val off) k) (fit off' && val' off' == Ebpf.wide w) := by
    intro off off' h b hb
    obtain ⟨v, hv, rfl⟩ := Option.map_eq_some_iff.mp hb
    obtain ⟨hf, he⟩ := h v hv
    rw [hf, he, Bool.true_and]
  cases dir with
  | src => exact test so so' hs
  | dst => exact test dst dst' hd
  | srcAndDst => exact (test so so' hs).and fun _ => test dst dst' hd
  | srcOrDst =>
    show Follows ((Classic.equals (val so) k).or (Classic.equals (val dst) k))
      (fit so' && (val' so' == Ebpf.wide w || (fit dst' && val' dst' == Ebpf.wide w)))
    cases hv : val so with
    | none => exact .none _
    | some v =>
      obtain ⟨hf, he⟩ := hs v hv
      rw [hf, he, Bool.true_and]
      exact (Follows.some (v == k)).or fun _ => test dst dst' hd

/-- The four directions of any test. -/
theorem follows_both (test : Nat → Tri) (test' : Nat → Bool) {src dst first second : Nat}
    {src' dst' first' second' : Nat} (hs : Follows (test src) (test' src'))
    (hd : Follows (test dst) (test' dst')) (h₁ : Follows (test first) (test' first'))
    (h₂ : Follows (test second) (test' second')) :
    Follows (Classic.bothVal test src dst first second dir)
      (Ebpf.bothVal test' src' dst' first' second' dir) := by
  cases dir with
  | src => exact hs
  | dst => exact hd
  | srcAndDst => exact h₁.and fun _ => h₂
  | srcOrDst => exact h₁.or fun _ => h₂

variable (ha : Addressable pkt)
include ha

theorem follows_ether {et : UInt32} (hk : Unsigned et) :
    Follows (Classic.etherVal pkt link 0 et) (Ebpf.etherVal pkt link et) := by
  unfold Classic.etherVal Ebpf.etherVal Classic.etherAt
  cases ho : link.etherProtoOffset with
  | none => exact .some true
  | some off =>
    have hoff : off + 0 * 4 < 2 ^ 32 := by
      have h := (Classic.etherProtoOffset_small ho).1
      omega
    exact follows_equals (n := .half) ha hoff hk

theorem follows_ip4 (n : UInt8) :
    Follows (Classic.guardVal pkt link 0 (.ip4 n)) (Ebpf.ip4Val pkt link n) := by
  have hnet := Classic.netOffset_small link
  refine (follows_ether ha (by decide)).and fun _ => ?_
  rw [Classic.ip4Val, Classic.netAt_zero]
  exact follows_equals (n := .byte) ha (by omega) (unsigned_byte n)

theorem follows_ip6 (n : UInt8) :
    Follows (Classic.guardVal pkt link 0 (.ip6 n)) (Ebpf.ip6Val pkt link n) := by
  have hnet := Classic.netOffset_small link
  refine (follows_ether ha (by decide)).and fun _ => ?_
  rw [Classic.ip6Val, Classic.netAt_zero]
  exact follows_equals (n := .byte) ha (by omega) (unsigned_byte n)

/-- The segments of an IPv6 address, in order. -/
theorem follows_segs {off : Nat} (segs : List UInt16) (i : Nat)
    (h : off + (i + segs.length) * 2 < 2 ^ 32) :
    Follows (Classic.segsVal pkt off i segs) (Ebpf.segsVal pkt off i segs) := by
  induction segs generalizing i with
  | nil => exact .some true
  | cons seg segs ih =>
    rw [List.length_cons] at h
    exact (follows_equals (n := .half) ha (by omega) (unsigned_half seg)).and
      fun _ => ih (i + 1) (by omega)

theorem follows_net6 {plen off : Nat} (segs : List UInt16) (i : Nat)
    (h : off + (i + segs.length) * 2 < 2 ^ 32) :
    Follows (Classic.net6Val pkt plen off i segs) (Ebpf.net6SegsVal pkt plen off i segs) := by
  induction segs generalizing i with
  | nil => exact .some true
  | cons seg segs ih =>
    rw [List.length_cons] at h
    unfold Classic.net6Val Ebpf.net6SegsVal
    by_cases hp : plen ≤ i * 16
    · rw [if_pos hp, if_pos hp]
      exact .some true
    · rw [if_neg hp, if_neg hp]
      refine Follows.and ?_ fun _ => ih (i + 1) (by omega)
      by_cases hw : i * 16 + 16 ≤ plen
      · simp only [hw, if_true]
        exact follows_equals (n := .half) ha (by omega) (unsigned_half seg)
      · simp only [hw, if_false]
        exact follows_masked (n := .half) ha (by omega) (unsigned_and (unsigned_half seg)) _

theorem follows_mac {addr : MacAddr} {off : Nat} (h : off + 4 < 2 ^ 32)
    (hk : Unsigned (Vm.fromBe4 addr.octets[0]! addr.octets[1]! addr.octets[2]! addr.octets[3]!)) :
    Follows (Classic.macVal pkt addr off) (Ebpf.macVal pkt addr off) := by
  refine (follows_equals (n := .word) ha (by omega) hk).and fun _ =>
    follows_equals (n := .half) ha h ?_
  have h4 := addr.octets[4]!.toNat_lt
  have h5 := addr.octets[5]!.toNat_lt
  refine unsigned_of_le (n := 65535) ?_ (by decide)
  simp only [toNat_fromBe4, bigEndian, List.foldl, UInt8.toNat_zero]
  omega

end Tests

/-- The packet is no later fragment, and it holds both ports of its transport header. -/
structure HoldsPorts (pkt : Packet) (link : LinkType) : Prop where
  first : Classic.EtherIs pkt link 0x0800 →
    ∀ f, number pkt (link.netOffset + 6) 2 = some f → f % 2 ^ 13 = 0
  ip4 : Classic.EtherIs pkt link 0x0800 → ∀ b, number pkt link.netOffset 1 = some b →
    link.netOffset + 4 * (b % 16) + 4 ≤ pkt.length
  ip6 : Classic.EtherIs pkt link 0x86dd → link.netOffset + 44 ≤ pkt.length

section Ports

variable {pkt : Packet} {link : LinkType} {proto : Option Proto} {want : Classic.L4Set}

/-- The transport protocols of a port test. -/
theorem follows_l4 (ha : Addressable pkt) {off : Nat} (hoff : off < 2 ^ 32)
    (hw : PktBaffle.Classic.l4setFor proto = .ok want) :
    Follows (Classic.l4Val pkt off want) (Ebpf.l4ProtoVal pkt off proto) := by
  have one : ∀ n : UInt8, Follows (Classic.l4Val pkt off (.one n))
      (Ebpf.checkVal pkt .byte off n.toUInt32) := fun n =>
    follows_equals (n := .byte) ha hoff (unsigned_byte n)
  rcases proto with _ | p
  · cases hw
    exact follows_load (n := .byte) (g := fun v => v.toUInt64 == Ebpf.wide 6 ||
      v.toUInt64 == Ebpf.wide 17) ha hoff fun v => by
        have h6 := beq_unsigned (k := 6) (by decide) v
        have h17 := beq_unsigned (k := 17) (by decide) v
        exact (congrArg₂ or h6 h17).symm
  · cases p with
    | tcp =>
      cases hw
      exact one 6
    | udp =>
      cases hw
      exact one 17
    | sctp =>
      cases hw
      exact one 132
    | _ => cases hw

/-- X holds the length of the IPv4 header where the extended code adds it to R6. -/
theorem ihl_offset {x : UInt32} (h : Classic.ihl pkt link 0 = some x) :
    Ebpf.ihlOff pkt link.netOffset = link.netOffset + x.toNat ∧ x.toNat ≤ 60 ∧
      ∃ b, number pkt link.netOffset 1 = some b ∧ x.toNat = 4 * (b % 16) := by
  have hnet := Classic.netOffset_small link
  rw [Classic.ihl, Classic.netAt_zero] at h
  obtain ⟨b, hb, rfl⟩ := Option.map_eq_some_iff.mp h
  have hload : Classic.sizedVal pkt .byte (.ofNat link.netOffset) = some b := hb
  have hf := (field_of_load hload).2
  have hnum := @Classic.byteAt_number pkt link.netOffset (by omega)
  rw [Classic.toNat_ofNat (by omega)] at hf
  rw [hb] at hnum
  have hm : (b &&& 0xf).toNat = b.toNat % 16 := by
    rw [UInt32.toNat_and]
    exact Nat.and_two_pow_sub_one_eq_mod _ 4
  have hx : (4 * (b &&& 0xf)).toNat = 4 * (b.toNat % 16) := by
    rw [UInt32.toNat_mul, hm]
    have h4 : (4 : UInt32).toNat = 4 := rfl
    rw [h4]
    omega
  have hs : ((b &&& 0x0f) <<< 2).toNat = 4 * (b.toNat % 16) := by
    rw [UInt32.toNat_shiftLeft, hm, Nat.shiftLeft_eq]
    have h2 : (2 : UInt32).toNat % 32 = 2 := rfl
    rw [h2]
    omega
  refine ⟨?_, by omega, b.toNat, hnum.symm, hx⟩
  rw [Ebpf.ihlOff, hf, hs, hx]

/-- No packet of `HoldsPorts` fails the fragment test of the classic prologue. -/
theorem HoldsPorts.fragVal (hh : HoldsPorts pkt link) (he : Classic.EtherIs pkt link 0x0800) :
    Classic.fragVal pkt link 0 ≠ some false := by
  have hnet := Classic.netOffset_small link
  intro hf
  have hf' := hf
  unfold Classic.fragVal at hf
  rw [Classic.netAt_zero] at hf
  obtain ⟨f, hl, -⟩ := Option.map_eq_some_iff.mp hf
  have hnum := @Classic.halfAt_number pkt (link.netOffset + 6) (by omega)
  rw [Classic.halfAt, hl] at hnum
  have htrue := Classic.fragVal_is.mpr ⟨f.toNat, hnum.symm, hh.first he _ hnum.symm⟩
  rw [hf'] at htrue
  cases htrue

section Prologue

variable (ha : Addressable pkt) (hh : HoldsPorts pkt link)
  (hw : PktBaffle.Classic.l4setFor proto = .ok want)
include ha hh hw

theorem follows_port4 (he : Classic.EtherIs pkt link 0x0800) :
    Follows (Classic.ports4 pkt link 0 want) (Ebpf.port4Val pkt link.netOffset proto) := by
  have hnet := Classic.netOffset_small link
  unfold Classic.ports4 Ebpf.port4Val
  rw [Classic.netAt_zero, Bool.and_assoc]
  refine (follows_l4 ha (by omega) hw).and fun _ b hb => ?_
  have hfrag := hh.fragVal he
  cases hi : Classic.ihl pkt link 0 with
  | none =>
    rw [hi] at hb
    rcases hf : Classic.fragVal pkt link 0 with _ | _ | _ <;> simp_all
  | some x =>
    obtain ⟨hoff, -, n, hn, hx⟩ := ihl_offset hi
    have hlen := hh.ip4 he n hn
    have hsome : (number pkt link.netOffset 1).isSome := by
      rw [hn]
      rfl
    have hin : Ebpf.inside pkt .byte link.netOffset = true :=
      (fits_iff ha _).mpr (number_isSome.mp hsome)
    have hfit : Ebpf.fits pkt (Ebpf.ihlOff pkt link.netOffset) 4 = true := by
      rw [fits_iff ha, hoff]
      omega
    rw [hi] at hb
    rw [hin, hfit]
    rcases hf : Classic.fragVal pkt link 0 with _ | _ | _ <;> simp_all

theorem follows_port6 (he : Classic.EtherIs pkt link 0x86dd) :
    Follows (Classic.ports6 pkt link 0 want) (Ebpf.port6Val pkt link.netOffset proto) := by
  have hnet := Classic.netOffset_small link
  have hfit : Ebpf.fits pkt (link.netOffset + 40) 4 = true := (fits_iff ha _).mpr (hh.ip6 he)
  unfold Classic.ports6 Ebpf.port6Val
  rw [Classic.netAt_zero, hfit, Bool.and_true]
  exact follows_l4 ha (by omega) hw

/-- The port prologue, and where it leaves the transport header. -/
theorem follows_ports :
    Follows (Classic.portsVal pkt link 0 want) (Ebpf.portPrereqsVal pkt link proto) ∧
      (Classic.portsVal pkt link 0 want = some true →
        Ebpf.transOff pkt link = link.netOffset + (Classic.portsX pkt link 0).toNat ∧
          (Classic.portsX pkt link 0).toNat ≤ 60) := by
  have h4 := follows_port4 ha hh hw
  have h6 := follows_port6 ha hh hw
  have hpos : Classic.ports4 pkt link 0 want = some true →
      Ebpf.ihlOff pkt link.netOffset =
        link.netOffset + ((Classic.ihl pkt link 0).getD 0).toNat ∧
          ((Classic.ihl pkt link 0).getD 0).toNat ≤ 60 := by
    intro hp
    have hihl := (Tri.and_eq_true.mp (Tri.and_eq_true.mp hp).2).2
    obtain ⟨x, hx, -⟩ := Option.map_eq_some_iff.mp hihl
    obtain ⟨hoff, hle, -⟩ := ihl_offset hx
    rw [hx]
    exact ⟨hoff, hle⟩
  unfold Classic.portsVal Classic.portsX Ebpf.portPrereqsVal Ebpf.transOff Classic.EtherIs at *
  cases ho : link.etherProtoOffset with
  | none =>
    have hat : Classic.etherAt link 0 = none := by simp [Classic.etherAt, ho]
    rw [ho] at h4
    simp only [hat]
    exact ⟨h4 rfl, hpos⟩
  | some off =>
    have hoff := (Classic.etherProtoOffset_small ho).1
    have hat : Classic.etherAt link 0 = some off := by simp [Classic.etherAt, ho]
    rw [ho] at h4 h6
    simp only [hat]
    cases hl : Vm.half pkt (.ofNat off) with
    | none => exact ⟨.none _, fun h => by cases h⟩
    | some et =>
      have hload : Classic.sizedVal pkt .half (.ofNat off) = some et := hl
      have hnum := @Classic.halfAt_number pkt off (by omega)
      rw [Classic.halfAt, hl] at hnum
      obtain ⟨hin, hval⟩ := inside_of_load ha hload
      rw [Classic.toNat_ofNat (by omega)] at hin hval
      have h08 := beq_unsigned (k := 0x0800) (by decide) et
      have h86 := beq_unsigned (k := 0x86dd) (by decide) et
      have hw08 : Ebpf.wide 0x0800 = Ebpf.wide (0x0800 : UInt32).toInt32 := rfl
      have hw86 : Ebpf.wide 0x86dd = Ebpf.wide (0x86dd : UInt32).toInt32 := rfl
      simp only [Ebpf.dualVal, hin, hval, hw08, hw86, h08, h86, Bool.true_and]
      by_cases e6 : et = 0x86dd
      · subst e6
        have he : number pkt off 2 = some 0x86dd := hnum.symm
        refine ⟨h6 he, fun _ => ⟨rfl, ?_⟩⟩
        rw [if_pos rfl]
        decide
      · by_cases e4 : et = 0x0800
        · subst e4
          have he : number pkt off 2 = some 0x0800 := hnum.symm
          exact ⟨h4 he, hpos⟩
        · rw [if_neg e6, if_neg e4]
          refine ⟨?_, fun h => by cases h⟩
          have b4 : (et == 0x0800) = false := by simpa using e4
          have b6 : (et == 0x86dd) = false := by simpa using e6
          rw [b4, b6]
          exact .some false

end Prologue

end Ports

/-- The primitives both generators compile alike, with constants below 2^31. A bare transport
protocol, a labelled `mpls` and the two tests of an IPv4 address above 2^31 are not among them, and
neither is a byte access with a load on its right side. -/
def Shared : Primitive → Prop
  | .host (.v4 a) _ => Unsigned a
  | .net n _ => Unsigned (n.addr &&& n.mask)
  | .etherHost addr _ => Unsigned (Vm.fromBe4 addr.octets[0]! addr.octets[1]! addr.octets[2]!
      addr.octets[3]!)
  | .len _ value => Unsigned value
  | .byteAccess ba => ∃ value, ba.rhs = .const value ∧ Unsigned value ∧ 0 ≤ ba.offset.toInt ∧
      ba.offset.toInt ≤ 32000 ∧ ∀ st ∈ ba.aluOps, st.1 = .shl ∨ st.1 = .shr → st.2 < 32
  | .proto .tcp | .proto .udp | .proto .sctp | .ipBroadcast | .ipMulticast | .mpls (some _) => False
  | _ => True

/-- The primitives that read a transport header. -/
def readsPorts : Primitive → Bool
  | .port .. | .portRange .. => true
  | _ => false

section Leaves

variable {pkt : Packet} {link : LinkType} {p : Primitive}

theorem etherOff_small (link : LinkType) (d : Nat) (hd : d ≤ 14) :
    link.etherProtoOffset.getD d ≤ 14 := by
  cases ho : link.etherProtoOffset with
  | none => exact hd
  | some off => exact (Classic.etherProtoOffset_small ho).1

theorem follows_alu {steps : List (ArithOp × UInt32)} (v : UInt32)
    (h : ∀ st ∈ steps, st.1 = .shl ∨ st.1 = .shr → st.2 < 32) :
    Ebpf.aluVal steps v = some (Classic.aluVal steps v) := by
  induction steps generalizing v with
  | nil => rfl
  | cons st steps ih =>
    obtain ⟨op, k⟩ := st
    have hstep : Ebpf.arith op v k = some (Classic.arith op v k) := by
      have hk := h (op, k) List.mem_cons_self
      cases op with
      | shl => exact if_pos (hk (.inl rfl))
      | shr => exact if_pos (hk (.inr rfl))
      | _ => rfl
    rw [Ebpf.aluVal, hstep, Option.bind_some]
    exact ih _ fun st hst => h st (List.mem_cons_of_mem _ hst)

variable (ha : Addressable pkt)
include ha

/-- A loaded word or half, compared in four directions. -/
theorem follows_abs {n : AccessSize} {f : UInt32 → UInt32} {k : UInt32} {so dst : Nat} {dir : Dir}
    (hk : Unsigned k) (hso : so < 2 ^ 32) (hdst : dst < 2 ^ 32) :
    Follows (Classic.addrVal (fun off => (Classic.sizedVal pkt n (.ofNat off)).map f) k so dst dir)
      (Ebpf.addrVal (Ebpf.inside pkt n) (fun off => (f (Ebpf.field pkt n off)).toUInt64) k.toInt32
        so dst dir) := by
  have load : ∀ off, off < 2 ^ 32 → ∀ v,
      (Classic.sizedVal pkt n (.ofNat off)).map f = some v →
      Ebpf.inside pkt n off = true ∧
        ((f (Ebpf.field pkt n off)).toUInt64 == Ebpf.wide k.toInt32) = (v == k) := by
    intro off hoff v hv
    obtain ⟨u, hu, rfl⟩ := Option.map_eq_some_iff.mp hv
    have hin := (inside_of_load ha hu).1
    have hf := (field_of_load hu).2
    rw [Classic.toNat_ofNat hoff] at hin hf
    rw [hf]
    exact ⟨hin, beq_unsigned hk (f u)⟩
  exact follows_addr (load so hso) (load dst hdst)

theorem follows_access {ba : ByteAccess} (hs : Shared (.byteAccess ba)) :
    ∃ x, Ebpf.byteAccessVal pkt link ba = some x ∧
      Follows (Classic.accessVal pkt ba link.netOffset) x := by
  have hnet := Classic.netOffset_small link
  obtain ⟨value, hr, hk, h0, hle, hshift⟩ := hs
  obtain ⟨n, hn⟩ := Int.eq_ofNat_of_zero_le h0
  have hoff := (Ebpf.offset_narrow hn).1
  have hcmp : ∀ v, Ebpf.accessVal ba value v =
      some (Classic.cmpVal ba.op (Classic.aluVal ba.aluOps v) value) := by
    intro v
    rw [Ebpf.accessVal, follows_alu v hshift, Option.map_some, cmp_unsigned hk]
  unfold Ebpf.byteAccessVal Classic.accessVal Classic.layerVal
  simp only [hr, hoff]
  by_cases ht : ba.layer = .trans
  · rw [if_pos ht, if_pos ht, hcmp, Tri.and_some]
    refine ⟨_, rfl, fun b hb => ?_⟩
    -- The header length is loaded first, then the field behind it.
    obtain ⟨v, hv, hb⟩ := Option.bind_eq_some_iff.mp hb
    obtain ⟨len, hlen, hv⟩ := Option.bind_eq_some_iff.mp hv
    have hihl : Classic.ihl pkt link 0 = some (4 * (len &&& 0xf)) := by
      rw [Classic.ihl, Classic.netAt_zero, hlen]
      rfl
    obtain ⟨hpos, hle60, -⟩ := ihl_offset hihl
    have hadd : (4 * (len &&& 0xf) + UInt32.ofNat (link.netOffset + n)).toNat =
        Ebpf.ihlOff pkt link.netOffset + n := by
      rw [UInt32.toNat_add, Classic.toNat_ofNat (by omega), hpos]
      omega
    have hload : Classic.sizedVal pkt .byte (.ofNat link.netOffset) = some len := hlen
    have hin := (inside_of_load ha hload).1
    have hin' := (inside_of_load ha hv).1
    have hf := (field_of_load hv).2
    rw [Classic.toNat_ofNat (by omega)] at hin
    rw [hadd] at hin' hf
    rw [hin, hin', hf]
    exact Option.some.inj hb
  · rw [if_neg ht, if_neg ht, hcmp, Tri.and_some]
    refine ⟨_, rfl, fun b hb => ?_⟩
    obtain ⟨v, hv, hb⟩ := Option.bind_eq_some_iff.mp hb
    have hpos : PktBaffle.Classic.layerOffset link.netOffset ba.layer ba.offset.toUInt32 =
        Ebpf.layerBase link ba + n := by
      unfold Ebpf.layerBase
      cases hl : ba.layer with
      | raw => simp [PktBaffle.Classic.layerOffset, hoff]
      | net => simp [PktBaffle.Classic.layerOffset, hoff]
      | trans => exact absurd hl ht
    have hlt : Ebpf.layerBase link ba + n < 2 ^ 32 := by
      unfold Ebpf.layerBase
      split <;> omega
    rw [hpos] at hv
    have hin := (inside_of_load ha hv).1
    have hf := (field_of_load hv).2
    rw [Classic.toNat_ofNat hlt] at hin hf
    rw [hin, hf]
    exact Option.some.inj hb

/-- The two loads of a port test, behind the prologue. -/
theorem port_load {off off' : Nat} {k v : UInt32} (hk : Unsigned k)
    (hpos : Ebpf.transOff pkt link = link.netOffset + (Classic.portsX pkt link 0).toNat ∧
      (Classic.portsX pkt link 0).toNat ≤ 60) (hoff : off = link.netOffset + off') (hlt : off' ≤ 2)
    (hv : Classic.portAt pkt (Classic.portsX pkt link 0) off = some v) :
    (Ebpf.loaded pkt .half (Ebpf.transOff pkt link + off') == Ebpf.wide k.toInt32) = (v == k) ∧
      Ebpf.loaded pkt .half (Ebpf.transOff pkt link + off') = v.toUInt64 := by
  have hnet := Classic.netOffset_small link
  have hadd : (Classic.portsX pkt link 0 + UInt32.ofNat off).toNat =
      Ebpf.transOff pkt link + off' := by
    rw [UInt32.toNat_add, Classic.toNat_ofNat (by omega), hpos.1, hoff]
    omega
  have hload : Classic.sizedVal pkt .half (Classic.portsX pkt link 0 + .ofNat off) = some v := hv
  have hval := (inside_of_load ha hload).2
  rw [hadd] at hval
  rw [hval]
  exact ⟨beq_unsigned hk v, rfl⟩

/-- Both sides of a port range, in 64 bits. -/
theorem follows_range {lo hi : UInt16} {off off' : Nat}
    (hpos : Ebpf.transOff pkt link = link.netOffset + (Classic.portsX pkt link 0).toNat ∧
      (Classic.portsX pkt link 0).toNat ≤ 60) (hoff : off = link.netOffset + off') (hlt : off' ≤ 2) :
    Follows (Classic.rangeVal pkt lo hi (Classic.portsX pkt link 0) off)
      (Ebpf.rangeVal pkt lo hi (Ebpf.transOff pkt link) off') := by
  intro b hb
  obtain ⟨v, hv, rfl⟩ := Option.map_eq_some_iff.mp hb
  have hval := (port_load ha (unsigned_half lo) hpos hoff hlt hv).2
  unfold Ebpf.rangeVal
  rw [hval, wide_unsigned (unsigned_half lo), wide_unsigned (unsigned_half hi), Bool.eq_iff_iff]
  simp [UInt64.lt_iff_toNat_lt, UInt32.le_iff_toNat_le]

/-- Either of the two ethertypes of MPLS. -/
theorem follows_mpls {off : Nat} (hoff : off ≤ 14) :
    Follows (Classic.mplsVal pkt none off) (Ebpf.mplsGuardVal pkt off) := by
  have h : Classic.mplsVal pkt none off =
      (Classic.sizedVal pkt .half (.ofNat off)).map fun v => v == 0x8847 || v == 0x8848 := by
    rw [Classic.mplsVal, Tri.and_accept]
    show (Classic.equals (Classic.sizedVal pkt .half (.ofNat off)) _).or _ = _
    unfold Classic.halfAt
    show (Classic.equals (Classic.sizedVal pkt .half (.ofNat off)) _).or
      (Classic.equals (Classic.sizedVal pkt .half (.ofNat off)) _) = _
    cases Classic.sizedVal pkt .half (.ofNat off) with
    | none => rfl
    | some v => exact Tri.or_some _ _
  rw [h]
  exact follows_load (n := .half) (g := fun v => v.toUInt64 == Ebpf.wide 0x8847 ||
    v.toUInt64 == Ebpf.wide 0x8848) ha (by omega) fun v =>
      (congrArg₂ or (beq_unsigned (k := 0x8847) (by decide) v)
        (beq_unsigned (k := 0x8848) (by decide) v)).symm

/-- The length of the packet, as the pointers give it. -/
theorem length_loaded : Ebpf.dataEnd pkt - Ebpf.pktBase = (Vm.pktLen pkt).toUInt64 := by
  unfold Addressable at ha
  rw [Ebpf.pktBase_toNat] at ha
  apply UInt64.toNat_inj.mp
  have hend : (Ebpf.dataEnd pkt).toNat = Ebpf.pktBase.toNat + pkt.length := by
    rw [Ebpf.dataEnd, UInt32.toNat_toUInt64, UInt64.toNat_toUInt32, UInt64.toNat_add,
      Ebpf.pktBase_toNat, UInt64.toNat_ofNat']
    omega
  rw [UInt64.toNat_sub, hend, Ebpf.pktBase_toNat, UInt32.toNat_toUInt64, Vm.pktLen,
    UInt32.toNat_ofNat']
  omega

/-- The extended verdict on a shared primitive is the classic outcome, where there is one. -/
theorem follows_leaf (hs : Shared p) (hok : Classic.primOk p link = true)
    (hp : readsPorts p = true → HoldsPorts pkt link) :
    ∃ x, Ebpf.leafVal pkt link p = some x ∧ Follows (Classic.leafVal pkt link p 0) x := by
  have hnet := Classic.netOffset_small link
  have hbody : Classic.bodyOk p link = true := (Bool.and_eq_true_iff.mp hok).2
  rw [Classic.leafVal, Classic.outcome_body hbody]
  have guard : ∀ {g x}, Follows (Classic.guardVal pkt link 0 g) x →
      Follows ((Classic.guardVal pkt link 0 g).and (some true)) x := fun h => by
    rwa [Tri.and_accept]
  cases p with
  | proto q =>
    refine ⟨_, rfl, ?_⟩
    cases q with
    | ip | ip6 | arp | rarp => exact guard (follows_ether ha (by decide))
    | icmp | igmp => exact guard (follows_ip4 ha _)
    | num n => exact guard (follows_ip4 ha n)
    | icmp6 => exact guard (follows_ip6 ha _)
    | ip6Proto n => exact guard (follows_ip6 ha n)
    | tcp | udp | sctp => cases hs
  | host a dir =>
    cases a with
    | v4 a =>
      refine ⟨_, rfl, (follows_ether ha (by decide)).and fun _ => ?_⟩
      have h := @follows_abs pkt ha .word id a (link.netOffset + 12) (link.netOffset + 16) dir hs
        (by omega) (by omega)
      simp only [Option.map_id, id] at h
      exact h
    | v6 a =>
      have hlen : a.segments.toList.length = 8 := by simp
      have seg : ∀ off, off ≤ 100 → Follows (Classic.segsVal pkt off 0 a.segments.toList)
          (Ebpf.segsVal pkt off 0 a.segments.toList) := fun off h =>
        follows_segs ha _ 0 (by omega)
      refine ⟨_, rfl, (follows_ether ha (by decide)).and fun _ => ?_⟩
      have hs8 := seg (link.netOffset + 8) (by omega)
      have hs24 := seg (link.netOffset + 24) (by omega)
      exact follows_both (Classic.segsVal pkt · 0 a.segments.toList)
        (Ebpf.segsVal pkt · 0 a.segments.toList) hs8 hs24 hs8 hs24
  | net n dir =>
    refine ⟨_, rfl, (follows_ether ha (by decide)).and fun _ => ?_⟩
    exact follows_abs (n := .word) (f := (· &&& n.mask)) ha hs (by omega) (by omega)
  | net6 n dir =>
    have hlen : n.addr.segments.toList.length = 8 := by simp
    have seg : ∀ off, off ≤ 100 →
        Follows (Classic.net6Val pkt n.prefixLen.toNat off 0 n.addr.segments.toList)
          (Ebpf.net6SegsVal pkt n.prefixLen.toNat off 0 n.addr.segments.toList) := fun off h =>
      follows_net6 ha _ 0 (by omega)
    refine ⟨_, rfl, (follows_ether ha (by decide)).and fun _ => ?_⟩
    have hs8 := seg (link.netOffset + 8) (by omega)
    have hs24 := seg (link.netOffset + 24) (by omega)
    exact follows_both (Classic.net6Val pkt n.prefixLen.toNat · 0 n.addr.segments.toList)
      (Ebpf.net6SegsVal pkt n.prefixLen.toNat · 0 n.addr.segments.toList) hs8 hs24 hs8 hs24
  | port port dir proto =>
    obtain ⟨want, hw⟩ := Classic.l4setFor_ok hbody
    obtain ⟨hpre, hpos⟩ := follows_ports ha (hp rfl) hw
    refine ⟨_, rfl, ?_⟩
    rw [show Classic.guardOf (.port port dir proto) = .ports want from Classic.portsGuard_ok hw]
    refine hpre.and fun hv => follows_addr (fun v h => ⟨rfl, ?_⟩) (fun v h => ⟨rfl, ?_⟩)
    · exact (port_load ha (unsigned_half port) (hpos hv) rfl (by decide) h).1
    · exact (port_load ha (unsigned_half port) (hpos hv) rfl (by decide) h).1
  | portRange lo hi dir proto =>
    obtain ⟨want, hw⟩ := Classic.l4setFor_ok hbody
    obtain ⟨hpre, hpos⟩ := follows_ports ha (hp rfl) hw
    refine ⟨_, rfl, ?_⟩
    rw [show Classic.guardOf (.portRange lo hi dir proto) = .ports want from
      Classic.portsGuard_ok hw]
    refine hpre.and fun hv => ?_
    have h0 := @follows_range pkt link ha lo hi link.netOffset 0 (hpos hv) rfl (by decide)
    have h2 := @follows_range pkt link ha lo hi (link.netOffset + 2) 2 (hpos hv) rfl (by decide)
    exact follows_both _ _ h0 h2 h0 h2
  | etherHost addr dir =>
    refine ⟨_, rfl, ?_⟩
    exact follows_both _ _ (follows_mac ha (by decide) hs) (follows_mac ha (by decide) hs)
      (follows_mac ha (by decide) hs) (follows_mac ha (by decide) hs)
  | etherProto et => exact ⟨_, rfl, guard (follows_ether ha (unsigned_half et))⟩
  | etherMulticast =>
    refine ⟨_, rfl, ?_⟩
    have h : ∀ v : UInt32, (v &&& 0x01 != 0) = (v.toUInt64 &&& Ebpf.wide 1 != 0) := fun v =>
      (cmp_unsigned (k := 1) (by decide) .bitAnd v).symm
    show Follows ((Classic.sizedVal pkt .byte (.ofNat 0)).map (· &&& 0x01 != 0)) _
    exact follows_load (n := .byte) ha (by decide) h
  | ip6Multicast =>
    refine ⟨_, rfl, (follows_ether ha (by decide)).and fun _ => ?_⟩
    exact follows_equals (n := .byte) ha (by omega) (by decide)
  | vlan id =>
    cases id with
    | none => exact ⟨_, rfl, guard (follows_ether ha (by decide))⟩
    | some id =>
      have hoff := etherOff_small link 14 (by decide)
      refine ⟨_, rfl, (follows_ether ha (by decide)).and fun _ => ?_⟩
      simp only [Classic.bodyVal, Nat.zero_mul, Nat.add_zero, Option.map_id']
      exact follows_masked (n := .half) ha (by omega) (unsigned_half id) 0x0fff
  | mpls label =>
    cases label with
    | some label => cases hs
    | none =>
      have hoff := etherOff_small link 0 (by decide)
      refine ⟨_, rfl, ?_⟩
      simp only [Classic.bodyVal, Nat.zero_mul, Nat.add_zero, Option.map_id']
      exact follows_mpls ha hoff
  | pppoeDiscovery => exact ⟨_, rfl, guard (follows_ether ha (by decide))⟩
  | pppoeSession id =>
    cases id with
    | none => exact ⟨_, rfl, guard (follows_ether ha (by decide))⟩
    | some id =>
      have hoff := etherOff_small link 12 (by decide)
      refine ⟨_, rfl, (follows_ether ha (by decide)).and fun _ => ?_⟩
      simp only [Classic.bodyVal, Nat.zero_mul, Nat.add_zero, Option.map_id']
      exact follows_equals (n := .half) ha (by omega) (unsigned_half id)
  | ipProtoChain n => exact ⟨_, rfl, guard (follows_ip4 ha n)⟩
  | ip6ProtoChain n => exact ⟨_, rfl, guard (follows_ip6 ha n)⟩
  | len op value =>
    refine ⟨_, rfl, ?_⟩
    rw [length_loaded ha, cmp_unsigned hs]
    exact .some _
  | byteAccess ba => exact follows_access ha hs
  | ipBroadcast | ipMulticast => cases hs
  | inbound | outbound => cases hbody

end Leaves

section Backends

variable {e : Expr} {link : LinkType} {pkt : Packet}

theorem Shared.offsetsWithin (hs : ∀ p ∈ e.leaves, Shared p) : Ebpf.OffsetsWithin 32000 e := by
  intro ba hb
  obtain ⟨-, -, -, h0, hle, -⟩ := hs _ hb
  exact ⟨h0, hle⟩

theorem Shared.shiftsFit (hs : ∀ p ∈ e.leaves, Shared p) : Ebpf.ShiftsFit e := by
  intro ba hb
  obtain ⟨-, -, -, -, -, hshift⟩ := hs _ hb
  exact hshift

end Backends

/-- `src host 10.0.0.1 and not tcp dst port 80`. -/
def fromHost : Expr :=
  .and (.primitive (.host (.v4 0x0a000001) .src)) (.not (.primitive (.port 80 .dst (some .tcp))))

/-- From 10.0.0.1 to TCP port 443. -/
def secure : Packet :=
  List.replicate 12 0 ++ [8, 0, 0x45] ++ List.replicate 8 0 ++ [6, 0, 0, 10, 0, 0, 1] ++
    List.replicate 6 0 ++ [1, 0xbb]

theorem secure_holdsPorts : HoldsPorts secure .ethernet where
  first _ f hf := by
    have h : number secure 20 2 = some 0 := by decide
    obtain rfl : 0 = f := Option.some.inj (h.symm.trans hf)
    rfl
  ip4 _ b hb := by
    have h : number secure 14 1 = some 0x45 := by decide
    obtain rfl : 0x45 = b := Option.some.inj (h.symm.trans hb)
    decide
  ip6 h := by
    have hn : number secure 12 2 = some 0x86dd := h
    exact absurd hn (by decide)

end PktBaffle.Proofs.Parity
