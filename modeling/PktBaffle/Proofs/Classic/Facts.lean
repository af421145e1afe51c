import PktBaffle.Proofs.Classic.Trace

namespace PktBaffle.Proofs.Classic
open Bpf Forward PktBaffle.Classic PktBaffle.Optimizer PktBaffle.Proofs.Optimizer

/-- Where the ethertype is at a VLAN depth. -/
def etherAt (link : LinkType) (d : Nat) : Option Nat := link.etherProtoOffset.map (· + d * 4)

/-- Where the network header is at a VLAN depth. -/
def netAt (link : LinkType) (d : Nat) : Nat := link.netOffset + d * 4

def ldhCode : UInt16 := bpfLd ||| bpfH ||| bpfAbs
def ldbCode : UInt16 := bpfLd ||| bpfB ||| bpfAbs
def jeqCode : UInt16 := bpfJmp ||| bpfJeq ||| bpfK
def jsetCode : UInt16 := bpfJmp ||| bpfJset ||| bpfK

/-- A loaded value compared with a constant. -/
def equals (v : Option UInt32) (k : UInt32) : Tri := v.map (· == k)

/-- A protocol number is in the set. -/
def admits (want : L4Set) (v : UInt32) : Bool :=
  match want with
  | .one n => v == n.toUInt32
  | .tcpOrUdp => v == 6 || v == 17

section Fields

variable (pkt : Vm.Packet) (link : LinkType) (d : Nat)

/-- The ethertype test at depth `d`; RawIp has no field to test. -/
def etherVal (et : UInt32) : Tri :=
  match etherAt link d with
  | some off => equals (Vm.half pkt (.ofNat off)) et
  | none => some true

def ip4Val (n : UInt8) : Tri := equals (Vm.byte pkt (.ofNat (netAt link d + 9))) n.toUInt32

def ip6Val (n : UInt8) : Tri := equals (Vm.byte pkt (.ofNat (netAt link d + 6))) n.toUInt32

def l4Val (off : Nat) (want : L4Set) : Tri := (Vm.byte pkt (.ofNat off)).map (admits want)

/-- Not a later fragment. -/
def fragVal : Tri := (Vm.half pkt (.ofNat (netAt link d + 6))).map (fun v => v &&& 0x1fff == 0)

/-- The IPv4 header length. -/
def ihl : Option UInt32 := (Vm.byte pkt (.ofNat (netAt link d))).map (fun b => 4 * (b &&& 0xf))

def ports4 (want : L4Set) : Tri :=
  (l4Val pkt (netAt link d + 9) want).and ((fragVal pkt link d).and ((ihl pkt link d).map fun _ => true))

def ports6 (want : L4Set) : Tri := l4Val pkt (netAt link d + 6) want

/-- The port prologue at depth `d`. -/
def portsVal (want : L4Set) : Tri :=
  match etherAt link d with
  | none => ports4 pkt link d want
  | some off =>
    match Vm.half pkt (.ofNat off) with
    | none => none
    | some et =>
      if et = 0x86dd then ports6 pkt link d want
      else if et = 0x0800 then ports4 pkt link d want
      else some false

/-- What the prologue leaves in X: the distance of the transport header from the network
header. -/
def portsX : UInt32 :=
  match etherAt link d with
  | none => (ihl pkt link d).getD 0
  | some off =>
    if Vm.half pkt (.ofNat off) = some 0x86dd then 40 else (ihl pkt link d).getD 0

/-- The value of a guard at depth `d`. -/
def guardVal : Guard → Tri
  | .none => some true
  | .ethertype et => etherVal pkt link d et
  | .ip4 n => (etherVal pkt link d 0x0800).and (ip4Val pkt link d n)
  | .ip6 n => (etherVal pkt link d 0x86dd).and (ip6Val pkt link d n)
  | .ports want => portsVal pkt link d want

/-- The run has compared the ethertype at depth `d` with `et`, and found it equal. -/
def etherSeen (et : UInt32) (t : Traced) : Prop :=
  match etherAt link d with
  | some off => ⟨(ldhCode, .ofNat off), jeqCode, et, true⟩ ∈ t.events
  | none => True

def byteSeen (off : Nat) (n : UInt8) (t : Traced) : Prop :=
  ⟨(ldbCode, .ofNat off), jeqCode, n.toUInt32, true⟩ ∈ t.events

def l4Seen (off : Nat) (want : L4Set) (t : Traced) : Prop :=
  ∃ n, want.contains n = true ∧ byteSeen off n t

def fragSeen (t : Traced) : Prop :=
  ⟨(ldhCode, .ofNat (netAt link d + 6)), jsetCode, 0x1fff, false⟩ ∈ t.events

/-- The run has gone through the comparisons of a port prologue at depth `d`: those of the IP
version the packet has. -/
def portsSeen (want : L4Set) (t : Traced) : Prop :=
  (etherVal pkt link d 0x0800 = some true ∧ etherSeen link d 0x0800 t ∧
    l4Seen (netAt link d + 9) want t ∧ fragSeen link d t) ∨
  ((etherAt link d).isSome = true ∧ etherVal pkt link d 0x86dd = some true ∧
    etherSeen link d 0x86dd t ∧ l4Seen (netAt link d + 6) want t)

/-- The comparison of a check at depth `d` is behind the run: it was made, and it holds of
the packet. For the port prologue, X holds the transport offset of that depth. -/
def Seen : Check → Traced → Prop
  | .ethertype et, t => etherSeen link d et t ∧ etherVal pkt link d et = some true
  | .ip4Proto n, t => byteSeen (netAt link d + 9) n t ∧ ip4Val pkt link d n = some true
  | .ip6Nh n, t => byteSeen (netAt link d + 6) n t ∧ ip6Val pkt link d n = some true
  | .ports want, t => portsSeen pkt link d want t ∧ portsVal pkt link d want = some true ∧
      t.regs.x = portsX pkt link d

end Fields

section Sets

variable {pkt : Vm.Packet} {link : LinkType} {d : Nat} {a b want : L4Set} {t : Traced}

theorem subsetOf_refl (a : L4Set) : a.subsetOf a = true := by
  cases a <;> simp [L4Set.subsetOf, L4Set.contains]

theorem contains_subset (h : a.subsetOf b = true) {n : UInt8} (hn : a.contains n = true) :
    b.contains n = true := by
  cases a with
  | one m =>
    have hm : m = n := by simpa [L4Set.contains] using hn
    exact hm ▸ h
  | tcpOrUdp =>
    cases b with
    | one m => cases h
    | tcpOrUdp => exact hn

theorem admits_toUInt32 (want : L4Set) (n : UInt8) : admits want n.toUInt32 = want.contains n := by
  have hinj : ∀ m : UInt8, (n.toUInt32 == m.toUInt32) = (n == m) := by
    intro m
    rw [Bool.eq_iff_iff]
    simp [UInt8.toUInt32_inj]
  cases want with
  | one m =>
    show (n.toUInt32 == m.toUInt32) = (m == n)
    rw [hinj, Bool.beq_comm]
  | tcpOrUdp =>
    show (n.toUInt32 == (6 : UInt8).toUInt32 || n.toUInt32 == (17 : UInt8).toUInt32) = _
    rw [hinj, hinj]
    rfl

theorem admits_iff {v : UInt32} :
    admits a v = true ↔ ∃ n : UInt8, a.contains n = true ∧ v = n.toUInt32 := by
  constructor
  · intro h
    cases a with
    | one m => exact ⟨m, by simp [L4Set.contains], by simpa [admits] using h⟩
    | tcpOrUdp =>
      simp only [admits, Bool.or_eq_true, beq_iff_eq] at h
      rcases h with rfl | rfl
      · exact ⟨6, by decide, rfl⟩
      · exact ⟨17, by decide, rfl⟩
  · rintro ⟨n, hn, rfl⟩
    rw [admits_toUInt32]
    exact hn

theorem join_subset {c : L4Set} (h : L4Set.join a b = some c) :
    a.subsetOf c = true ∧ b.subsetOf c = true := by
  unfold L4Set.join at h
  split at h
  · rename_i he
    cases h
    exact ⟨subsetOf_refl _, he ▸ subsetOf_refl _⟩
  · split at h
    · rename_i hs
      cases h
      simpa using hs
    · cases h

theorem l4Val_subset (h : a.subsetOf b = true) {off : Nat} (hv : l4Val pkt off a = some true) :
    l4Val pkt off b = some true := by
  unfold l4Val at hv ⊢
  cases hb : Vm.byte pkt (.ofNat off) with
  | none =>
    rw [hb] at hv
    cases hv
  | some v =>
    rw [hb] at hv
    obtain ⟨n, hn, rfl⟩ := admits_iff.mp (Option.some.inj hv)
    exact congrArg some (admits_iff.mpr ⟨n, contains_subset h hn, rfl⟩)

/-- One number of the set is the value of the byte. -/
theorem l4Val_one {n : UInt8} (h : want.contains n = true) {off : Nat}
    (hv : equals (Vm.byte pkt (.ofNat off)) n.toUInt32 = some true) :
    l4Val pkt off want = some true :=
  l4Val_subset (a := .one n) h hv

theorem l4Seen_subset (h : a.subsetOf b = true) {off : Nat} (hs : l4Seen off a t) :
    l4Seen off b t := by
  obtain ⟨n, hn, hs⟩ := hs
  exact ⟨n, contains_subset h hn, hs⟩

theorem ports4_subset (h : a.subsetOf b = true) (hv : ports4 pkt link d a = some true) :
    ports4 pkt link d b = some true := by
  obtain ⟨h₁, h₂⟩ := Tri.and_eq_true.mp hv
  exact Tri.and_eq_true.mpr ⟨l4Val_subset h h₁, h₂⟩

theorem portsVal_subset (h : a.subsetOf b = true) (hv : portsVal pkt link d a = some true) :
    portsVal pkt link d b = some true := by
  unfold portsVal at hv ⊢
  cases ho : etherAt link d with
  | none =>
    simp only [ho] at hv
    exact ports4_subset h hv
  | some off =>
    simp only [ho] at hv
    dsimp only
    cases he : Vm.half pkt (.ofNat off) with
    | none =>
      rw [he] at hv
      cases hv
    | some et =>
      simp only [he] at hv ⊢
      split at hv
      · rename_i h6
        rw [if_pos h6]
        exact l4Val_subset h hv
      · rename_i h6
        rw [if_neg h6]
        split at hv
        · rename_i h4
          rw [if_pos h4]
          exact ports4_subset h hv
        · cases hv

theorem portsSeen_subset (h : a.subsetOf b = true) (hs : portsSeen pkt link d a t) :
    portsSeen pkt link d b t := by
  rcases hs with ⟨hv, h₁, h₂, h₃⟩ | ⟨ho, hv, h₁, h₂⟩
  · exact .inl ⟨hv, h₁, l4Seen_subset h h₂, h₃⟩
  · exact .inr ⟨ho, hv, h₁, l4Seen_subset h h₂⟩

/-- A wider port set has been seen as well. -/
theorem Seen.ports_subset (h : a.subsetOf b = true) (hs : Seen pkt link d (.ports a) t) :
    Seen pkt link d (.ports b) t :=
  ⟨portsSeen_subset h hs.1, portsVal_subset h hs.2.1, hs.2.2⟩

/-- The prologue on an IPv4 packet. -/
theorem portsVal_ip4 (h : etherVal pkt link d 0x0800 = some true) (want : L4Set) :
    portsVal pkt link d want = ports4 pkt link d want ∧
      portsX pkt link d = (ihl pkt link d).getD 0 := by
  unfold portsVal portsX
  unfold etherVal at h
  cases ho : etherAt link d with
  | none => exact ⟨rfl, rfl⟩
  | some off =>
    simp only [ho] at h
    dsimp only
    cases hv : Vm.half pkt (.ofNat off) with
    | none =>
      rw [hv] at h
      cases h
    | some et =>
      rw [hv] at h
      have het : et = 0x0800 := by simpa [equals] using h
      subst het
      exact ⟨rfl, rfl⟩

theorem portsVal_ip6 (ho : (etherAt link d).isSome = true)
    (h : etherVal pkt link d 0x86dd = some true) (want : L4Set) :
    portsVal pkt link d want = ports6 pkt link d want ∧ portsX pkt link d = 40 := by
  unfold portsVal portsX
  unfold etherVal at h
  obtain ⟨off, ho⟩ := Option.isSome_iff_exists.mp ho
  simp only [ho] at h ⊢
  cases hv : Vm.half pkt (.ofNat off) with
  | none =>
    rw [hv] at h
    cases h
  | some et =>
    rw [hv] at h
    have het : et = 0x86dd := by simpa [equals] using h
    subst het
    exact ⟨rfl, rfl⟩

/-- A packet has one ethertype. -/
theorem etherVal_unique (ho : (etherAt link d).isSome = true) {et et' : UInt32}
    (h : etherVal pkt link d et = some true) (h' : etherVal pkt link d et' = some true) :
    et = et' := by
  unfold etherVal at h h'
  obtain ⟨off, ho⟩ := Option.isSome_iff_exists.mp ho
  simp only [ho] at h h'
  cases hv : Vm.half pkt (.ofNat off) with
  | none =>
    rw [hv] at h
    cases h
  | some v =>
    rw [hv] at h h'
    have h₁ : v = et := by simpa [equals] using h
    have h₂ : v = et' := by simpa [equals] using h'
    exact h₁.symm.trans h₂

end Sets

/-- What the facts say, as a check that need not be made again. -/
def known (f : Facts) : Check → Prop
  | .ethertype et => f.ethertype = some et
  | .ip4Proto n => f.ip4Proto = some n
  | .ip6Nh n => f.ip6Nh = some n
  | .ports want => f.portsReady = some want

/-- The depth at which each fact was recorded. -/
structure Tags where
  ether : Nat
  ip4 : Nat
  ip6 : Nat
  ports : Nat

def Tags.start : Tags := ⟨0, 0, 0, 0⟩

def tagOf (tags : Tags) : Check → Nat
  | .ethertype _ => tags.ether
  | .ip4Proto _ => tags.ip4
  | .ip6Nh _ => tags.ip6
  | .ports _ => tags.ports

/-- A fact that has changed was recorded just now. -/
def retag (d : Nat) (old new : Facts) (tags : Tags) : Tags where
  ether := if old.ethertype = new.ethertype then tags.ether else d
  ip4 := if old.ip4Proto = new.ip4Proto then tags.ip4 else d
  ip6 := if old.ip6Nh = new.ip6Nh then tags.ip6 else d
  ports := if old.portsReady = new.portsReady then tags.ports else d

/-- Every fact is behind the run, at the depth at which it was recorded. -/
def Sat (pkt : Vm.Packet) (link : LinkType) (f : Facts) (tags : Tags) (t : Traced) : Prop :=
  ∀ check, known f check → Seen pkt link (tagOf tags check) check t

/-- Every check left out rests on a fact that was recorded at the depth of the check. -/
def Fresh (skips : List Skipped) (tags : Tags) : Prop := ∀ sk ∈ skips, tagOf tags sk.check = sk.depth

section Seen

variable {pkt : Vm.Packet} {link : LinkType} {d : Nat} {t t' : Traced}

theorem etherSeen.mono {et : UInt32} (h : etherSeen link d et t) (he : t.events ⊆ t'.events) :
    etherSeen link d et t' := by
  unfold etherSeen at h ⊢
  split
  · rename_i off ho
    rw [ho] at h
    exact he h
  · trivial

theorem l4Seen.mono {off : Nat} {want : L4Set} (h : l4Seen off want t) (he : t.events ⊆ t'.events) :
    l4Seen off want t' := by
  obtain ⟨n, hn, h⟩ := h
  exact ⟨n, hn, he h⟩

theorem portsSeen.mono {want : L4Set} (h : portsSeen pkt link d want t)
    (he : t.events ⊆ t'.events) : portsSeen pkt link d want t' := by
  rcases h with ⟨hv, h₁, h₂, h₃⟩ | ⟨ho, hv, h₁, h₂⟩
  · exact .inl ⟨hv, h₁.mono he, h₂.mono he, he h₃⟩
  · exact .inr ⟨ho, hv, h₁.mono he, h₂.mono he⟩

theorem Seen.mono {check : Check} (h : Seen pkt link d check t) (he : t.events ⊆ t'.events)
    (hx : (∃ want, check = .ports want) → t'.regs.x = t.regs.x) : Seen pkt link d check t' := by
  cases check with
  | ethertype et => exact ⟨h.1.mono he, h.2⟩
  | ip4Proto n => exact ⟨he h.1, h.2⟩
  | ip6Nh n => exact ⟨he h.1, h.2⟩
  | ports want => exact ⟨h.1.mono he, h.2.1, (hx ⟨want, rfl⟩).trans h.2.2⟩

theorem tagOf_retag {old new : Facts} {tags : Tags} {check : Check} (hn : known new check) :
    (known old check ∧ tagOf (retag d old new tags) check = tagOf tags check) ∨
      tagOf (retag d old new tags) check = d := by
  cases check with
  | ethertype et =>
    by_cases h : old.ethertype = new.ethertype
    · exact .inl ⟨h.trans hn, by simp [tagOf, retag, h]⟩
    · exact .inr (by simp [tagOf, retag, h])
  | ip4Proto n =>
    by_cases h : old.ip4Proto = new.ip4Proto
    · exact .inl ⟨h.trans hn, by simp [tagOf, retag, h]⟩
    · exact .inr (by simp [tagOf, retag, h])
  | ip6Nh n =>
    by_cases h : old.ip6Nh = new.ip6Nh
    · exact .inl ⟨h.trans hn, by simp [tagOf, retag, h]⟩
    · exact .inr (by simp [tagOf, retag, h])
  | ports want =>
    by_cases h : old.portsReady = new.portsReady
    · exact .inl ⟨h.trans hn, by simp [tagOf, retag, h]⟩
    · exact .inr (by simp [tagOf, retag, h])

theorem tagOf_retag_new {old new : Facts} {tags : Tags} {check : Check} (hn : known new check)
    (ho : ¬ known old check) : tagOf (retag d old new tags) check = d :=
  (tagOf_retag hn).resolve_left (fun h => ho h.1)

/-- Old facts stay behind the run, new ones have just been seen. -/
theorem Sat.retag {old new : Facts} {tags : Tags} (h : Sat pkt link old tags t)
    (he : t.events ⊆ t'.events)
    (hx : ∀ want, known old (.ports want) → known new (.ports want) → t'.regs.x = t.regs.x)
    (hnew : ∀ check, known new check → ¬ known old check → Seen pkt link d check t') :
    Sat pkt link new (Classic.retag d old new tags) t' := by
  intro check hk
  by_cases ho : known old check
  · have htag : tagOf (Classic.retag d old new tags) check = tagOf tags check := by
      cases check with
      | ethertype et => simp [tagOf, Classic.retag, show old.ethertype = new.ethertype from ho.trans hk.symm]
      | ip4Proto n => simp [tagOf, Classic.retag, show old.ip4Proto = new.ip4Proto from ho.trans hk.symm]
      | ip6Nh n => simp [tagOf, Classic.retag, show old.ip6Nh = new.ip6Nh from ho.trans hk.symm]
      | ports want =>
        simp [tagOf, Classic.retag, show old.portsReady = new.portsReady from ho.trans hk.symm]
    rw [htag]
    refine (h check ho).mono he ?_
    rintro ⟨want, rfl⟩
    exact hx want ho hk
  · rw [tagOf_retag_new hk ho]
    exact hnew check hk ho

theorem retag_self (f : Facts) (tags : Tags) : Classic.retag d f f tags = tags := by
  simp [Classic.retag]

/-- Only new facts have to be looked at when X has not changed. -/
theorem Sat.record {old new : Facts} {tags : Tags} (h : Sat pkt link old tags t)
    (he : t.events ⊆ t'.events) (hx : t'.regs.x = t.regs.x)
    (hnew : ∀ check, known new check → known old check ∨ Seen pkt link d check t') :
    Sat pkt link new (Classic.retag d old new tags) t' :=
  h.retag he (fun _ _ _ => hx) (fun check hk ho => (hnew check hk).resolve_left ho)

theorem Sat.mono {f : Facts} {tags : Tags} (h : Sat pkt link f tags t) (he : t.events ⊆ t'.events)
    (hx : f.portsReady ≠ none → t'.regs.x = t.regs.x) : Sat pkt link f tags t' := by
  intro check hk
  refine (h check hk).mono he ?_
  rintro ⟨want, rfl⟩
  refine hx ?_
  rw [show f.portsReady = some want from hk]
  simp

/-- Fewer facts. -/
theorem Sat.subset {f g : Facts} {tags : Tags} (h : Sat pkt link f tags t)
    (hs : ∀ check, known g check → known f check) : Sat pkt link g tags t :=
  fun check hk => h check (hs check hk)

end Seen

end PktBaffle.Proofs.Classic
