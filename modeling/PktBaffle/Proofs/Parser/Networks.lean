import PktBaffle.Proofs.Parser.Numbers

namespace PktBaffle.Proofs.Parser
open PktBaffle.Lexer Parsing

/-! ### Prefixes -/

/-- The network is the set of all addresses that begin with its first `n` bits, and it has no
other bit set. -/
structure IsPrefix (net : IpNet) (n : Nat) : Prop where
  le : n ≤ 32
  outside : net.addr &&& ~~~net.mask = 0
  low : net.addr.toNat % 2 ^ (32 - n) = 0
  mem : ∀ a : Ipv4Addr, a &&& net.mask = net.addr ↔
    a.toNat / 2 ^ (32 - n) = net.addr.toNat / 2 ^ (32 - n)

/-- The same of an IPv6 network: no bit past its prefix length. -/
structure IsPrefix6 (net : Ipv6Net) (n : Nat) : Prop where
  le : n ≤ 128
  length : net.prefixLen.toNat = n
  outside : ipv6Nat net.addr % 2 ^ (128 - n) = 0

/-- The mask of `n` bits, as a number. -/
theorem toNat_and_mask (a : UInt32) {n : UInt8} (h : n ≤ 32) :
    (a &&& prefixMask n).toNat = a.toNat / 2 ^ (32 - n.toNat) * 2 ^ (32 - n.toNat) := by
  have hle : n.toNat ≤ 32 := UInt8.le_iff_toNat_le.mp h
  have ha := a.toNat_lt
  unfold prefixMask
  split
  · rename_i hz
    rw [hz]
    simp
    omega
  · rename_i hz
    have hpos : 0 < n.toNat := by
      rcases Nat.eq_zero_or_pos n.toNat with h0 | h0
      · exact absurd (UInt8.toNat_inj.mp h0) hz
      · exact h0
    have hk : (32 - n.toUInt32).toNat = 32 - n.toNat := by
      rw [UInt32.toNat_sub_of_le]
      · simp
      · rw [UInt32.le_iff_toNat_le]
        simpa using hle
    rw [UInt32.toNat_and, UInt32.toNat_shiftLeft, hk,
      Nat.mod_eq_of_lt (show 32 - n.toNat < 32 by omega)]
    apply Nat.eq_of_testBit_eq
    intro i
    rw [← Nat.shiftRight_eq_div_pow, ← Nat.shiftLeft_eq]
    have hones : (0xffffffff : UInt32).toNat = 2 ^ 32 - 1 := rfl
    rw [hones, Nat.testBit_and, Nat.testBit_mod_two_pow, Nat.testBit_shiftLeft,
      Nat.testBit_two_pow_sub_one, Nat.testBit_shiftLeft, Nat.testBit_shiftRight]
    by_cases hi : i < 32
    · by_cases hik : 32 - n.toNat ≤ i
      · have hsum : 32 - n.toNat + (i - (32 - n.toNat)) = i := by omega
        simp [hi, hik, hsum]
        omega
      · simp [hik]
    · have hfalse : a.toNat.testBit i = false :=
        Nat.testBit_lt_two_pow (lt_of_lt_of_le ha (Nat.pow_le_pow_right (by decide) (by omega)))
      by_cases hik : 32 - n.toNat ≤ i
      · have hsum : 32 - n.toNat + (i - (32 - n.toNat)) = i := by omega
        simp [hfalse, hik, hsum]
      · simp [hfalse, hik]

theorem and_not_mask (a m : UInt32) : a &&& ~~~m = 0 ↔ a &&& m = a := by
  rw [← UInt32.toBitVec_inj, ← UInt32.toBitVec_inj]
  constructor
  · intro h
    ext i hi
    have hbit := congrArg (fun v : BitVec 32 => v[i]) h
    simp at hbit ⊢
    exact hbit
  · intro h
    ext i hi
    have hbit := congrArg (fun v : BitVec 32 => v[i]) h
    simp at hbit ⊢
    exact hbit

/-- An address has a bit behind the first `n` exactly if it has one outside the mask. -/
theorem outside_mask {addr : Ipv4Addr} {n : UInt8} (h : n ≤ 32) :
    addr &&& ~~~prefixMask n = 0 ↔ addr.toNat % 2 ^ (32 - n.toNat) = 0 := by
  rw [and_not_mask, ← UInt32.toNat_inj, toNat_and_mask addr h]
  have hdiv := Nat.div_add_mod' addr.toNat (2 ^ (32 - n.toNat))
  omega

/-- A network without host bits under the mask of `n` bits is a prefix. -/
theorem isPrefix_mask {addr : Ipv4Addr} {n : UInt8} (h : n ≤ 32)
    (hout : addr &&& ~~~prefixMask n = 0) : IsPrefix ⟨addr, prefixMask n⟩ n.toNat := by
  refine ⟨UInt8.le_iff_toNat_le.mp h, hout, (outside_mask h).mp hout, fun a => ?_⟩
  have haddr := congrArg UInt32.toNat ((and_not_mask _ _).mp hout)
  rw [toNat_and_mask addr h] at haddr
  change a &&& prefixMask n = addr ↔ _
  rw [← UInt32.toNat_inj, toNat_and_mask a h, ← haddr]
  have hpow : 0 < 2 ^ (32 - n.toNat) := Nat.two_pow_pos _
  rw [Nat.mul_div_cancel _ hpow]
  exact ⟨fun he => Nat.eq_of_mul_eq_mul_right hpow he, fun he => by rw [he]⟩

theorem hostBits_zero {a : Nat} {n : UInt8} (h : n ≤ 128) :
    a &&& hostBits n = 0 ↔ a % 2 ^ (128 - n.toNat) = 0 := by
  have hle : n.toNat ≤ 128 := UInt8.le_iff_toNat_le.mp h
  unfold hostBits
  split
  · have hones : (2 ^ 128 - 1) >>> n.toNat = 2 ^ (128 - n.toNat) - 1 := by
      apply Nat.eq_of_testBit_eq
      intro i
      rw [Nat.testBit_shiftRight, Nat.testBit_two_pow_sub_one, Nat.testBit_two_pow_sub_one]
      simp
      omega
    rw [hones, Nat.and_two_pow_sub_one_eq_mod]
  · rename_i hlt
    have heq : n.toNat = 128 := by
      have : ¬ n.toNat < 128 := fun h => hlt (UInt8.lt_iff_toNat_lt.mpr h)
      omega
    simp [heq, Nat.mod_one]

/-! ### Dotted octets -/

theorem ipv4Of_toNat (a b c d : UInt8) : (ipv4Of #v[a, b, c, d]).toNat =
    a.toNat * 2 ^ 24 + b.toNat * 2 ^ 16 + c.toNat * 2 ^ 8 + d.toNat := by
  have ha := a.toNat_lt
  have hb := b.toNat_lt
  have hc := c.toNat_lt
  have hd := d.toNat_lt
  change ((((0 * 256 + a.toUInt32) * 256 + b.toUInt32) * 256 + c.toUInt32) * 256 +
    d.toUInt32).toNat = _
  simp only [UInt32.toNat_add, UInt32.toNat_mul, UInt8.toNat_toUInt32, UInt32.toNat_ofNat]
  omega

/-- The octets that were not written are zero. -/
theorem octets_low {octets : Vector UInt8 4} {parts : UInt8}
    (h : Lexer.Lexed (.ipv4 octets parts)) :
    (ipv4Of octets).toNat % 2 ^ (32 - 8 * parts.toNat) = 0 := by
  obtain ⟨htwo, hfour, hzero⟩ := h
  obtain ⟨⟨l⟩, hl⟩ := octets
  obtain ⟨a, b, c, d, rfl⟩ : ∃ a b c d, l = [a, b, c, d] := List.length_eq_four.mp hl
  change (ipv4Of #v[a, b, c, d]).toNat % _ = 0
  rw [ipv4Of_toNat]
  have h2 : parts.toNat ≤ 2 → c = 0 := fun hp => hzero 2 (by decide) hp
  have h3 : parts.toNat ≤ 3 → d = 0 := fun hp => hzero 3 (by decide) hp
  obtain hp | hp | hp : parts.toNat = 2 ∨ parts.toNat = 3 ∨ parts.toNat = 4 := by omega
  · rw [hp, h2 (by omega), h3 (by omega)]
    simp
    omega
  · rw [hp, h3 (by omega)]
    simp
    omega
  · rw [hp]
    simp [Nat.mod_one]

/-- The mask of the octets written is the one of their bits. -/
theorem octetMask_run {parts : UInt8} (h : 2 ≤ parts.toNat ∧ parts.toNat ≤ 4) (p : Parser) :
    octetMask parts p = .ok (prefixMask (8 * parts), p) ∧ (8 * parts).toNat = 8 * parts.toNat ∧
      8 * parts ≤ 32 := by
  obtain hp | hp | hp : parts = 2 ∨ parts = 3 ∨ parts = 4 := by
    obtain hp | hp | hp : parts.toNat = 2 ∨ parts.toNat = 3 ∨ parts.toNat = 4 := by omega
    · exact .inl (UInt8.toNat_inj.mp hp)
    · exact .inr (.inl (UInt8.toNat_inj.mp hp))
    · exact .inr (.inr (UInt8.toNat_inj.mp hp))
  · subst hp
    exact ⟨rfl, rfl, by decide⟩
  · subst hp
    exact ⟨rfl, rfl, by decide⟩
  · subst hp
    exact ⟨rfl, rfl, by decide⟩

/-- A dotted address with as many bits as octets were written. -/
theorem isPrefix_octets {octets : Vector UInt8 4} {parts : UInt8}
    (h : Lexer.Lexed (.ipv4 octets parts)) :
    IsPrefix ⟨ipv4Of octets, prefixMask (8 * parts)⟩ (8 * parts.toNat) := by
  obtain ⟨-, hn, hle⟩ := octetMask_run ⟨h.1, h.2.1⟩ ⟨[], 0, 0⟩
  rw [← hn]
  refine isPrefix_mask hle ((outside_mask hle).mpr ?_)
  rw [hn]
  exact octets_low h

/-! ### Bare integers -/

/-- `n` shifted left a byte at a time until its top byte is not zero, with a mask that loses
eight bits at each shift. -/
def Shifted (n : Nat) (net : IpNet) : Prop :=
  ∃ s ≤ 3, net.addr.toNat = n * 256 ^ s ∧ (n = 0 ∧ s = 0 ∨ 2 ^ 24 ≤ net.addr.toNat) ∧
    IsPrefix net (32 - 8 * s)

theorem top_byte_zero (a : UInt32) : a &&& 0xff000000 = 0 ↔ a.toNat < 2 ^ 24 := by
  have hmask : a &&& 0xff000000 = a &&& prefixMask 8 := rfl
  rw [hmask, ← UInt32.toNat_inj, toNat_and_mask a (by decide)]
  change a.toNat / 2 ^ 24 * 2 ^ 24 = 0 ↔ _
  omega

theorem shiftNet_run {fuel : Nat} {addr mask : UInt32} (hpos : 0 < addr.toNat)
    (hfuel : 2 ^ 24 ≤ addr.toNat * 256 ^ fuel) (p : Parser) :
    ∃ s a, shiftNet fuel addr mask p = .ok ((a, (fun m : UInt32 => m <<< 8)^[s] mask), p) ∧
      a.toNat = addr.toNat * 256 ^ s ∧ 2 ^ 24 ≤ a.toNat := by
  induction fuel generalizing addr mask with
  | zero =>
    have htop : ¬ (addr ≠ 0 ∧ addr &&& 0xff000000 = 0) := by
      rw [top_byte_zero]
      omega
    refine ⟨0, addr, ?_, by simp, by simpa using hfuel⟩
    unfold shiftNet
    rw [if_neg htop]
    rfl
  | succ fuel ih =>
    unfold shiftNet
    by_cases htop : addr.toNat < 2 ^ 24
    · have hne : addr ≠ 0 := by
        rintro rfl
        simp at hpos
      have hshift : (addr <<< 8).toNat = addr.toNat * 256 := by
        rw [UInt32.toNat_shiftLeft]
        simp [Nat.shiftLeft_eq]
        omega
      obtain ⟨s, a, hrun, ha, hge⟩ := @ih (addr <<< 8) (mask <<< 8) (by omega) (by
        rw [hshift, mul_assoc, ← pow_succ']
        exact hfuel)
      refine ⟨s + 1, a, ?_, ?_, hge⟩
      · rw [if_pos ⟨hne, (top_byte_zero _).mpr htop⟩]
        exact hrun
      · rw [ha, hshift, mul_assoc, ← pow_succ']
    · refine ⟨0, addr, ?_, by simp, by omega⟩
      rw [if_neg (by rw [top_byte_zero]; exact fun h => htop h.2)]
      rfl

/-- The loop ends for every integer, with the network it stands for. -/
theorem shiftNet_shifted (n : UInt32) (p : Parser) :
    ∃ net : IpNet, shiftNet 4 n 0xffffffff p = .ok ((net.addr, net.mask), p) ∧
      Shifted n.toNat net := by
  rcases Nat.eq_zero_or_pos n.toNat with hz | hpos
  · obtain rfl : n = 0 := UInt32.toNat_inj.mp hz
    refine ⟨⟨0, 0xffffffff⟩, rfl, 0, by decide, rfl, .inl ⟨rfl, rfl⟩, ?_⟩
    exact @isPrefix_mask 0 32 (by decide) (by decide)
  · obtain ⟨s, a, hrun, ha, hge⟩ := @shiftNet_run 4 n 0xffffffff hpos (by omega) p
    have hs : s ≤ 3 := by
      by_contra h
      have hpow : 256 ^ 4 ≤ 256 ^ s := Nat.pow_le_pow_right (by decide) (by omega)
      have hbig : 256 ^ 4 ≤ n.toNat * 256 ^ s := hpow.trans (Nat.le_mul_of_pos_left _ hpos)
      have hlt := a.toNat_lt
      omega
    have hmask : ∃ k : UInt8, (fun m : UInt32 => m <<< 8)^[s] 0xffffffff = prefixMask k ∧
        k.toNat = 32 - 8 * s ∧ k ≤ 32 := by
      interval_cases s
      · exact ⟨32, rfl, rfl, by decide⟩
      · exact ⟨24, rfl, rfl, by decide⟩
      · exact ⟨16, rfl, rfl, by decide⟩
      · exact ⟨8, rfl, rfl, by decide⟩
    obtain ⟨k, hk, hkn, hle⟩ := hmask
    refine ⟨⟨a, prefixMask k⟩, hk ▸ hrun, s, hs, ha, .inr hge, ?_⟩
    rw [← hkn]
    refine isPrefix_mask hle ((outside_mask hle).mpr ?_)
    have hexp : 32 - (32 - 8 * s) = 8 * s := by omega
    rw [hkn, ha, hexp, pow_mul]
    exact Nat.mul_mod_left _ _

/-! ### The documented forms -/

/-- A network written from `i` up to `j`, in one of the documented forms. -/
inductive NetRead (tokens : List Spanned) (dir : Dir) (i : Nat) : Nat → Primitive → Prop where
  | cidr {octets : Vector UInt8 4} {parts : UInt8} {n : UInt64} {net : IpNet}
      (ht : tokAt tokens i = some (.ipv4 octets parts)) (hs : tokAt tokens (i + 1) = some .slash)
      (hn : tokAt tokens (i + 2) = some (.num n)) (ha : net.addr = ipv4Of octets)
      (h : IsPrefix net n.toNat) : NetRead tokens dir i (i + 3) (.net net dir)
  | mask {octets m : Vector UInt8 4} {parts k : UInt8} {net : IpNet}
      (ht : tokAt tokens i = some (.ipv4 octets parts)) (hs : tokAt tokens (i + 1) = some .mask)
      (hm : tokAt tokens (i + 2) = some (.ipv4 m k)) (ha : net.addr = ipv4Of octets)
      (hmask : net.mask = ipv4Of m) (h : net.addr &&& ~~~net.mask = 0) :
      NetRead tokens dir i (i + 3) (.net net dir)
  | octets {octets : Vector UInt8 4} {parts : UInt8} {net : IpNet}
      (ht : tokAt tokens i = some (.ipv4 octets parts)) (hs : tokAt tokens (i + 1) ≠ some .slash)
      (hm : tokAt tokens (i + 1) ≠ some .mask) (ha : net.addr = ipv4Of octets)
      (h : IsPrefix net (8 * parts.toNat)) : NetRead tokens dir i (i + 1) (.net net dir)
  | integer {n : UInt64} {net : IpNet} (ht : tokAt tokens i = some (.num n))
      (h : Shifted n.toNat net) : NetRead tokens dir i (i + 1) (.net net dir)
  | cidr6 {addr : Ipv6Addr} {n : UInt64} {net : Ipv6Net}
      (ht : tokAt tokens i = some (.ipv6 addr)) (hs : tokAt tokens (i + 1) = some .slash)
      (hn : tokAt tokens (i + 2) = some (.num n)) (ha : net.addr = addr)
      (h : IsPrefix6 net n.toNat) : NetRead tokens dir i (i + 3) (.net6 net dir)
  | addr6 {addr : Ipv6Addr} {net : Ipv6Net} (ht : tokAt tokens i = some (.ipv6 addr))
      (hs : tokAt tokens (i + 1) ≠ some .slash) (ha : net.addr = addr)
      (h : IsPrefix6 net 128) : NetRead tokens dir i (i + 1) (.net6 net dir)

/-- A network with an address bit outside the prefix or mask that is written with it. -/
inductive Outside (tokens : List Spanned) (i : Nat) : Prop where
  | cidr {octets : Vector UInt8 4} {parts : UInt8} {n : UInt64}
      (ht : tokAt tokens i = some (.ipv4 octets parts)) (hs : tokAt tokens (i + 1) = some .slash)
      (hn : tokAt tokens (i + 2) = some (.num n))
      (h : (ipv4Of octets).toNat % 2 ^ (32 - n.toNat) ≠ 0)
  | mask {octets m : Vector UInt8 4} {parts k : UInt8}
      (ht : tokAt tokens i = some (.ipv4 octets parts)) (hs : tokAt tokens (i + 1) = some .mask)
      (hm : tokAt tokens (i + 2) = some (.ipv4 m k)) (h : ipv4Of octets &&& ~~~ipv4Of m ≠ 0)
  | cidr6 {addr : Ipv6Addr} {n : UInt64} (ht : tokAt tokens i = some (.ipv6 addr))
      (hs : tokAt tokens (i + 1) = some .slash) (hn : tokAt tokens (i + 2) = some (.num n))
      (h : ipv6Nat addr % 2 ^ (128 - n.toNat) ≠ 0)

section
variable {tokens : List Spanned} {dir : Dir} {i : Nat}

theorem Outside.refused {j : Nat} {x : Primitive} (ho : Outside tokens i)
    (hr : NetRead tokens dir i j x) : False := by
  cases ho with
  | cidr ht hs hn h =>
    cases hr with
    | cidr ht' _ hn' ha hp =>
      rw [ht] at ht'
      rw [hn] at hn'
      cases ht'
      cases hn'
      exact h (ha ▸ hp.low)
    | mask _ hs' => rw [hs] at hs'; cases hs'
    | octets _ hs' => exact hs' hs
    | integer ht' => rw [ht] at ht'; cases ht'
    | cidr6 ht' => rw [ht] at ht'; cases ht'
    | addr6 ht' => rw [ht] at ht'; cases ht'
  | mask ht hs hm h =>
    cases hr with
    | mask ht' _ hm' ha hmask hp =>
      rw [ht] at ht'
      rw [hm] at hm'
      cases ht'
      cases hm'
      rw [ha, hmask] at hp
      exact h hp
    | cidr _ hs' => rw [hs] at hs'; cases hs'
    | octets _ _ hs' => exact hs' hs
    | integer ht' => rw [ht] at ht'; cases ht'
    | cidr6 ht' => rw [ht] at ht'; cases ht'
    | addr6 ht' => rw [ht] at ht'; cases ht'
  | cidr6 ht hs hn h =>
    cases hr with
    | cidr6 ht' _ hn' ha hp =>
      rw [ht] at ht'
      rw [hn] at hn'
      cases ht'
      cases hn'
      exact h (ha ▸ hp.outside)
    | addr6 _ hs' => exact hs' hs
    | cidr ht' => rw [ht] at ht'; cases ht'
    | mask ht' => rw [ht] at ht'; cases ht'
    | octets ht' => rw [ht] at ht'; cases ht'
    | integer ht' => rw [ht] at ht'; cases ht'

/-- What `host` makes of a short dotted address, and of every other one. -/
inductive HostRead (tokens : List Spanned) (dir : Dir) (i : Nat) : Nat → Primitive → Prop where
  | net {octets : Vector UInt8 4} {parts : UInt8} {net : IpNet}
      (ht : tokAt tokens i = some (.ipv4 octets parts)) (hparts : parts.toNat < 4)
      (ha : net.addr = ipv4Of octets) (h : IsPrefix net (8 * parts.toNat)) :
      HostRead tokens dir i (i + 1) (.net net dir)
  | addr {a : Ipv4Addr} (ht : (∃ octets, tokAt tokens i = some (.ipv4 octets 4) ∧
      a = ipv4Of octets) ∨ ∃ n, tokAt tokens i = some (.num n) ∧ n.toNat = a.toNat) :
      HostRead tokens dir i (i + 1) (.host (.v4 a) dir)
  | addr6 {a : Ipv6Addr} (ht : tokAt tokens i = some (.ipv6 a))
      (hs : tokAt tokens (i + 1) ≠ some .slash) :
      HostRead tokens dir i (i + 1) (.host (.v6 a) dir)
  | cidr6 {a : Ipv6Addr} (ht : tokAt tokens i = some (.ipv6 a))
      (hs : tokAt tokens (i + 1) = some .slash) (hn : tokAt tokens (i + 2) = some (.num 128)) :
      HostRead tokens dir i (i + 3) (.host (.v6 a) dir)

/-- The number of a prefix length. -/
theorem yields_length {family : String} {max : UInt64} (hmax : max.toNat ≤ 0xff) :
    Yields tokens (parsePrefixLen family max) i fun n j => j = i + 1 ∧
      ∃ v, tokAt tokens i = some (.num v) ∧ v.toNat = n.toNat ∧ n.toNat ≤ max.toNat :=
  (yields_parsePrefixLen hmax).mono fun _ _ ⟨hj, ⟨v, hv, he⟩, hle⟩ => ⟨hj, v, hv, he, hle⟩

theorem yields_octets {parts : UInt8} (h : 2 ≤ parts.toNat ∧ parts.toNat ≤ 4) :
    Yields tokens (octetMask parts) i fun mask j => j = i ∧ mask = prefixMask (8 * parts) := by
  intro mask q hq
  rw [(octetMask_run h _).1] at hq
  cases hq
  exact ⟨i, rfl, rfl, rfl⟩

theorem yields_net4 {octets : Vector UInt8 4} {parts : UInt8}
    (ht : tokAt tokens i = some (.ipv4 octets parts)) (hl : Lexer.Lexed (.ipv4 octets parts)) :
    Yields tokens (parseNet4 (ipv4Of octets) parts dir) (i + 1) fun x j =>
      NetRead tokens dir i j x := by
  refine Yields.bind (Yields.eat (fun _ => Yields.err) fun _ => ?_)
  refine Yields.bind (Yields.eat (fun hs => ?_) fun hs => ?_)
  · refine Yields.bind ((yields_length (by decide)).mono ?_)
    rintro n j ⟨rfl, v, hv, he, hle⟩
    refine Yields.ite (fun _ => Yields.err) fun hout => Yields.pure (.cidr ht hs hv rfl ?_)
    rw [he]
    exact isPrefix_mask (UInt8.le_iff_toNat_le.mpr hle) (not_not.mp hout)
  refine Yields.bind (Yields.eat (fun hmask => ?_) fun hmask => ?_)
  · refine Yields.bind (Yields.advance (fun _ => Yields.err) fun t hm => ?_)
    split
    · rename_i m k hmk
      cases hmk
      exact Yields.ite (fun _ => Yields.err) fun hout =>
        Yields.pure (.mask ht hmask hm rfl rfl (not_not.mp hout))
    · exact Yields.err
  · refine Yields.bind ((yields_octets ⟨hl.1, hl.2.1⟩).mono ?_)
    rintro mask j ⟨rfl, rfl⟩
    exact Yields.pure (.octets ht hs hmask rfl (isPrefix_octets hl))

theorem yields_net6 {addr : Ipv6Addr} (ht : tokAt tokens i = some (.ipv6 addr)) :
    Yields tokens (parseNet6 addr dir) (i + 1) fun x j => NetRead tokens dir i j x := by
  refine Yields.bind (Yields.eat (fun hs => ?_) fun hs => ?_)
  · refine Yields.bind ((yields_length (by decide)).mono ?_)
    rintro n j ⟨rfl, v, hv, he, hle⟩
    refine Yields.ite (fun _ => Yields.err) fun hout => Yields.pure (.cidr6 ht hs hv rfl ?_)
    rw [he]
    exact ⟨hle, rfl, (hostBits_zero (UInt8.le_iff_toNat_le.mpr hle)).mp (not_not.mp hout)⟩
  · change Yields tokens (if ipv6Nat addr &&& hostBits 128 ≠ 0 then _ else _) (i + 1) _
    exact Yields.ite (fun _ => Yields.err) fun _ =>
      Yields.pure (.addr6 ht hs rfl ⟨by decide, rfl, by simp [Nat.mod_one]⟩)

theorem lexed_at (h : ∀ t ∈ tokens, Lexer.Lexed t.token) {t : Token}
    (ht : tokAt tokens i = some t) : Lexer.Lexed t := by
  obtain ⟨s, hs, rfl⟩ := Option.map_eq_some_iff.mp ht
  exact h s (List.mem_of_getElem? hs)

theorem yields_net (h : ∀ t ∈ tokens, Lexer.Lexed t.token) :
    Yields tokens (parseNet dir) i fun x j => NetRead tokens dir i j x := by
  refine Yields.looks (Yields.bind (Yields.advance (fun _ => Yields.err) fun t ht => ?_))
  split
  · rename_i octets parts heq
    cases heq
    exact yields_net4 ht (lexed_at h ht)
  · rename_i n heq
    cases heq
    refine Yields.ite (fun hle => Yields.bind ?_) fun _ => Yields.err
    have hn : n.toNat ≤ 0xffffffff := UInt64.le_iff_toNat_le.mp hle
    intro r q hq
    obtain ⟨net, hrun, hs⟩ := shiftNet_shifted n.toUInt32 ⟨tokens, i + 1, 0⟩
    rw [hrun] at hq
    cases hq
    refine ⟨i + 1, rfl, Yields.pure (.integer ht ?_)⟩
    rw [toUInt32_exact hn]
    exact hs
  · rename_i addr heq
    cases heq
    exact yields_net6 ht
  · exact Yields.err

theorem yields_hostAddr (hshort : ∀ octets parts, tokAt tokens i = some (.ipv4 octets parts) →
      parts = 4) :
    Yields tokens (parseHostAddr dir) i fun x j => HostRead tokens dir i j x := by
  refine Yields.bind (Yields.looks (Yields.bind (Yields.advance (fun _ => Yields.err)
    fun t ht => ?_)))
  split
  · rename_i octets parts heq
    cases heq
    obtain rfl := hshort octets parts ht
    exact Yields.pure (Yields.pure (.addr (.inl ⟨octets, ht, rfl⟩)))
  · rename_i addr heq
    cases heq
    refine Yields.pure (Yields.bind (Yields.eat (fun hs => ?_) fun hs =>
      Yields.pure (.addr6 ht hs)))
    refine Yields.bind ((yields_length (by decide)).mono ?_)
    rintro n j ⟨rfl, v, hv, he, -⟩
    refine Yields.ite (fun _ => Yields.err) fun hn => Yields.pure (.cidr6 ht hs ?_)
    rw [not_not.mp hn] at he
    obtain rfl : v = 128 := UInt64.toNat_inj.mp he
    exact hv
  · rename_i n heq
    cases heq
    refine Yields.ite (fun hle => ?_) fun _ => Yields.err
    exact Yields.pure (Yields.pure (.addr (.inr ⟨n, ht,
      toUInt32_exact (UInt64.le_iff_toNat_le.mp hle)⟩)))
  · exact Yields.err

theorem yields_host (h : ∀ t ∈ tokens, Lexer.Lexed t.token) :
    Yields tokens (parseHost dir) i fun x j => HostRead tokens dir i j x := by
  refine Yields.looks ?_
  split
  · rename_i octets parts ht
    obtain ⟨htwo, hfour, hzero⟩ := lexed_at h ht
    refine Yields.ite (fun hparts => Yields.skip ht (Yields.bind ?_)) fun hparts =>
      yields_hostAddr fun octets' parts' ht' => ?_
    · refine (yields_octets ⟨htwo, hfour⟩).mono ?_
      rintro mask j ⟨rfl, rfl⟩
      refine Yields.pure (.net ht ?_ rfl (isPrefix_octets ⟨htwo, hfour, hzero⟩))
      exact Nat.lt_succ_of_le (UInt8.le_iff_toNat_le.mp hparts.2)
    · rw [ht] at ht'
      cases ht'
      have hthree : ¬ parts ≤ 3 := fun hle => hparts ⟨UInt8.le_iff_toNat_le.mpr htwo, hle⟩
      rw [UInt8.le_iff_toNat_le] at hthree
      exact UInt8.toNat_inj.mp (le_antisymm hfour (Nat.lt_of_not_le hthree))
  · rename_i hno
    exact yields_hostAddr fun octets parts ht => absurd ht (hno octets parts)

end

theorem dotted_of_lexed {tokens : List Spanned} (h : ∀ t ∈ tokens, Lexer.Lexed t.token) :
    Dotted tokens := by
  intro t ht octets parts he
  have hl := h t ht
  rw [he] at hl
  exact ⟨UInt8.le_iff_toNat_le.mpr hl.1, UInt8.le_iff_toNat_le.mpr hl.2.1⟩

/-- `net` and `host` read the documented forms, each as the set of addresses it stands for and
without a bit outside its mask; a network written with such a bit is an error; and the loop that
shifts a bare integer ends for every one. The tokens are ones the lexer makes. -/
theorem networks_normal (tokens : List Spanned) (h : ∀ t ∈ tokens, Lexer.Lexed t.token)
    (dir : Dir) (i : Nat) :
    (∀ x q, parseNet dir ⟨tokens, i, 0⟩ = .ok (x, q) → NetRead tokens dir i q.pos x) ∧
    (∀ x q, parseHost dir ⟨tokens, i, 0⟩ = .ok (x, q) → HostRead tokens dir i q.pos x) ∧
    (Outside tokens i → ∃ e, parseNet dir ⟨tokens, i, 0⟩ = .error e ∧ ¬ isPanic e) ∧
    ∀ n p, ∃ net : IpNet, shiftNet 4 n 0xffffffff p = .ok ((net.addr, net.mask), p) ∧
      Shifted n.toNat net := by
  have hnet : ∀ x q, parseNet dir ⟨tokens, i, 0⟩ = .ok (x, q) →
      NetRead tokens dir i q.pos x := by
    intro x q hq
    obtain ⟨j, rfl, hr⟩ := yields_net h x q hq
    exact hr
  refine ⟨hnet, fun x q hq => ?_, fun ho => ?_, shiftNet_shifted⟩
  · obtain ⟨j, rfl, hr⟩ := yields_host h x q hq
    exact hr
  · have hi : i ≤ tokens.length := by
      cases ho with
      | cidr ht => exact (tokAt_lt ht).le
      | mask ht => exact (tokAt_lt ht).le
      | cidr6 ht => exact (tokAt_lt ht).le
    have hends := @safe_parseNet dir ⟨tokens, i, 0⟩ hi (Nat.zero_le _)
    cases hrun : parseNet dir ⟨tokens, i, 0⟩ with
    | ok r => exact (ho.refused (hnet r.1 r.2 hrun)).elim
    | error e =>
      rw [hrun] at hends
      exact ⟨e, rfl, hends (dotted_of_lexed h)⟩

/-- `10.1` is the network of its sixteen bits. -/
theorem networks_normal_short : NetRead [⟨.ipv4 #v[10, 1, 0, 0] 2, 0⟩] .src 0 1
    (.net ⟨0x0a010000, 0xffff0000⟩ .src) :=
  (networks_normal [⟨.ipv4 #v[10, 1, 0, 0] 2, 0⟩] (by
    intro t ht
    rw [List.mem_singleton.mp ht]
    exact ⟨by decide, by decide, by decide⟩) .src 0).1 _ ⟨_, 1, 0⟩ rfl

end PktBaffle.Proofs.Parser
