import PktBaffle.Proofs.Ebpf.Values

namespace PktBaffle.Proofs.Ebpf
open PktBaffle.Ebpf Forward Interp PktBaffle.Extended
open Vm (Packet fromBe2 fromBe4)
open PktBaffle.Classic (LinkType)

section Outcomes

variable {pkt : Packet} {host : Endian} {a b : Option UInt64} {link : LinkType}

/-- The code runs from states of `P` to outcome `t`, and on success into `S`. -/
abbrev Runs (pkt : Packet) (host : Endian) (c : Code) (P : Regs → Prop) (t : Tri)
    (S : Regs → Prop) : Prop :=
  Drops (machine pkt host) Shifts c P t S (Holds pkt none none)

theorem Runs.and {c d : Code} {P Q S : Regs → Prop} {x y : Bool}
    (h₁ : Runs pkt host c P (some x) Q) (h₂ : x = true → Runs pkt host d Q (some y) S) :
    Runs pkt host (c ++ d) P (some (x && y)) S := by
  have h := h₁.append_drops (t := some y) fun ht => h₂ (Option.some.inj ht)
  rwa [Tri.and_some] at h

/-- Code that always goes on, and what follows. -/
theorem Runs.before {c d : Code} {P Q S : Regs → Prop} {t : Tri}
    (h₁ : Runs pkt host c P (some true) Q) (h₂ : Runs pkt host d Q t S) :
    Runs pkt host (c ++ d) P t S :=
  h₁.append_drops fun _ => h₂

/-- Code followed by code that always goes on. -/
theorem Runs.then_op {c d : Code} {P Q S : Regs → Prop} {x : Bool}
    (h₁ : Runs pkt host c P (some x) Q) (h₂ : x = true → Runs pkt host d Q (some true) S) :
    Runs pkt host (c ++ d) P (some x) S := by
  have h := h₁.and h₂
  rwa [Bool.and_true] at h

theorem Runs.pre {c : Code} {P Q S : Regs → Prop} {t : Tri} (h : Runs pkt host c P t S)
    (hp : ∀ s, Q s → P s) : Runs pkt host c Q t S :=
  h.weaken hp (fun _ hs => hs) (fun _ hs => hs)

theorem Runs.post {c : Code} {P S T : Regs → Prop} {t : Tri} (h : Runs pkt host c P t S)
    (hs : ∀ s, S s → T s) : Runs pkt host c P t T :=
  h.weaken (fun _ hp => hp) hs (fun _ hf => hf)

theorem jne_runs (k : Int32) (v : UInt64) :
    Runs pkt host [failing (.jneImm r4 k 0)] (Holds pkt (some v) b) (some (v == wide k))
      (Holds pkt (some v) b) := by
  have h := @failing_drops pkt host b _ v _ (fun s hs => act_jne_imm k 0 hs)
  simpa [bne, wide] using h

theorem load_runs (size : AccessSize) {off : Nat} (h : off ≤ 32767) :
    Runs pkt host (loadCode size off) (Holds pkt a b) (some (inside pkt size off))
      (Holds pkt (some (loaded pkt size off)) b) :=
  load_drops size h

theorem check_runs (size : AccessSize) {off : Nat} (k : UInt32) (h : off ≤ 32767) :
    Runs pkt host (checkCode size off k) (Holds pkt a b) (some (checkVal pkt size off k))
      (Holds pkt none none) :=
  ((load_runs size h).and fun _ => jne_runs _ _).post fun _ hs => hs.forget

theorem nil_runs : Runs pkt host [] (Holds pkt a b) (some true) (Holds pkt none none) :=
  Drops.nil fun _ hs => hs.forget

/-- What is known of an ethertype guard that compiles. -/
theorem ether_runs {et : UInt32} {c : Code} (hc : etherCode link et = .ok c) :
    Runs pkt host c (Holds pkt a b) (some (etherVal pkt link et)) (Holds pkt none none) := by
  unfold etherCode at hc
  unfold etherVal
  cases ho : link.etherProtoOffset with
  | some off =>
    have hle := etherProtoOffset_le ho
    simp only [ho, Except.ok.injEq] at hc ⊢
    subst hc
    exact check_runs _ _ (by omega)
  | none =>
    simp only [ho] at hc ⊢
    split at hc
    · cases hc
      exact nil_runs
    · cases hc

/-- A guard and the code behind it. -/
theorem guarded_runs {et : UInt32} {c d : Code} {x : Bool} {S : Regs → Prop}
    (hc : (etherCode link et).map (· ++ d) = .ok c)
    (hd : Runs pkt host d (Holds pkt none none) (some x) S) :
    Runs pkt host c (Holds pkt none none) (some (etherVal pkt link et && x)) S := by
  cases hg : etherCode link et with
  | error e =>
    rw [hg] at hc
    cases hc
  | ok g =>
    rw [hg] at hc
    cases hc
    exact (ether_runs hg).and fun _ => hd

/-- A guard and code that may also jump to success. -/
theorem guarded_meets {et : UInt32} {c d : Code} {x : Bool} {S : Regs → Prop}
    (hc : (etherCode link et).map (· ++ d) = .ok c)
    (hd : Meets (machine pkt host) Shifts d (Holds pkt none none) (some x) S (Holds pkt none none)) :
    Meets (machine pkt host) Shifts c (Holds pkt none none) (some (etherVal pkt link et && x)) S
      (Holds pkt none none) := by
  cases hg : etherCode link et with
  | error e =>
    rw [hg] at hc
    cases hc
  | ok g =>
    rw [hg] at hc
    cases hc
    have h := (@ether_runs pkt host none none _ _ _ hg).append
      fun _ => hd
    rwa [Tri.and_some] at h

theorem ip4_runs {n : UInt8} {c : Code} (hc : ip4Code link n = .ok c) :
    Runs pkt host c (Holds pkt none none) (some (ip4Val pkt link n)) (Holds pkt none none) := by
  have := netOffset_le link
  exact guarded_runs hc (check_runs _ _ (by omega))

theorem ip6_runs {n : UInt8} {c : Code} (hc : ip6Code link n = .ok c) :
    Runs pkt host c (Holds pkt none none) (some (ip6Val pkt link n)) (Holds pkt none none) := by
  have := netOffset_le link
  exact guarded_runs hc (check_runs _ _ (by omega))

theorem jumps_ja : Jumps (machine pkt host) (.ja 0) () :=
  ⟨fun s => show act pkt host 0 (.ja 0) s = _ from act_ja 0⟩

/-- The ethertype decides which of the two pieces runs. -/
theorem dual_runs {etherOff : Nat} (he : etherOff ≤ 32767) {c6 c4 : Code} {v6 v4 : Bool}
    {S : Bool → Regs → Prop}
    (h6 : (loaded pkt .half etherOff == wide 0x0800) = false →
      Runs pkt host c6 (Holds pkt none none) (some v6) (S false))
    (h4 : (loaded pkt .half etherOff == wide 0x0800) = true →
      Runs pkt host c4 (Holds pkt none none) (some v4) (S true)) :
    Runs pkt host (dualCode etherOff c6 c4) (Holds pkt none none)
      (some (dualVal pkt etherOff v6 v4)) (S (loaded pkt .half etherOff == wide 0x0800)) := by
  refine (load_runs .half he).and fun _ => ?_
  have ht : Tests (machine pkt host) (.jeqImm r4 0x0800 0) ()
      (Holds pkt (some (loaded pkt .half etherOff)) none)
      (loaded pkt .half etherOff == wide 0x0800) :=
    tests_four fun s hs => act_jeq_imm _ 0 hs
  cases hv : loaded pkt .half etherOff == wide 0x0800 with
  | true =>
    rw [hv] at ht
    have hd := (h4 hv).pre (Q := Holds pkt (some (loaded pkt .half etherOff)) none)
      fun _ hs => hs.forget
    exact ht.branch jumps_ja (t := none) (fun h => absurd h (by decide)) fun _ => hd
  | false =>
    rw [hv] at ht
    have hc : Runs pkt host ([failing (.jneImm r4 0x86dd 0)] ++ c6)
        (Holds pkt (some (loaded pkt .half etherOff)) none)
        (some (loaded pkt .half etherOff == wide 0x86dd && v6)) (S false) :=
      (jne_runs _ _).and fun _ => (h6 hv).pre fun _ hs => hs.forget
    exact ht.branch jumps_ja (u := none) (fun _ => hc) fun h => absurd h (by decide)

theorem dualL4_runs {n : UInt8} {c : Code} (hc : dualL4Code link n = .ok c) :
    Runs pkt host c (Holds pkt none none) (some (dualL4Val pkt link n)) (Holds pkt none none) := by
  have hnet := netOffset_le link
  unfold dualL4Code at hc
  unfold dualL4Val
  cases ho : link.etherProtoOffset with
  | none =>
    simp only [ho] at hc ⊢
    exact ip4_runs hc
  | some off =>
    have hle := etherProtoOffset_le ho
    simp only [ho, Except.ok.injEq] at hc ⊢
    subst hc
    exact dual_runs (by omega) (fun _ => check_runs _ _ (by omega))
      (fun _ => check_runs _ _ (by omega)) (S := fun _ => Holds pkt none none)

theorem proto_runs {p : Proto} {c : Code} (hc : protoCode link p = .ok c) :
    Runs pkt host c (Holds pkt none none) (some (protoVal pkt link p)) (Holds pkt none none) := by
  cases p with
  | ip => exact ether_runs hc
  | ip6 => exact ether_runs hc
  | arp => exact ether_runs hc
  | rarp => exact ether_runs hc
  | tcp => exact dualL4_runs hc
  | udp => exact dualL4_runs hc
  | sctp => exact dualL4_runs hc
  | icmp => exact ip4_runs hc
  | igmp => exact ip4_runs hc
  | icmp6 => exact ip6_runs hc
  | num n => exact ip4_runs hc
  | ip6Proto n => exact ip6_runs hc

/-- What a piece of code leaves as failing or succeeding, if it may also jump to success. -/
abbrev Ends (pkt : Packet) (host : Endian) (c : Code) (P : Regs → Prop) (x : Bool) : Prop :=
  Meets (machine pkt host) Shifts c P (some x) (Holds pkt none none) (Holds pkt none none)

theorem Runs.ends {c : Code} {P : Regs → Prop} {x : Bool}
    (h : Runs pkt host c P (some x) (Holds pkt none none)) : Ends pkt host c P x := h.meets

/-- An address test over a load that leaves its value in R4. -/
theorem addr_ends {code : Nat → Code} {fit : Nat → Bool} {val : Nat → UInt64} {so dst : Nat}
    (k : Int32) (dir : Dir)
    (h : ∀ off, off = so ∨ off = dst → ∀ a, Runs pkt host (code off) (Holds pkt a b) (some (fit off))
      (Holds pkt (some (val off)) b)) :
    Ends pkt host (addrCode code k so dst dir) (Holds pkt none b) (addrVal fit val k so dst dir) := by
  have test : ∀ off, off = so ∨ off = dst → ∀ a,
      Runs pkt host (code off ++ [failing (.jneImm r4 k 0)]) (Holds pkt a b)
        (some (fit off && val off == wide k)) (Holds pkt (some (val off)) b) :=
    fun off ho a => (h off ho a).and fun _ => jne_runs _ _
  have last : ∀ off, off = so ∨ off = dst → ∀ a,
      Runs pkt host (code off ++ [failing (.jneImm r4 k 0)]) (Holds pkt a b)
        (some (fit off && val off == wide k)) (Holds pkt none none) :=
    fun off ho a => (test off ho a).post fun _ hs => hs.forget
  cases dir with
  | src => exact (last so (.inl rfl) none).ends
  | dst => exact (last dst (.inr rfl) none).ends
  | srcAndDst =>
    exact ((test so (.inl rfl) none).and fun _ => last dst (.inr rfl) _).ends
  | srcOrDst =>
    have ht : Tests (machine pkt host) (.jeqImm r4 k 0) () (Holds pkt (some (val so)) b)
        (val so == wide k) := tests_four fun s hs => act_jeq_imm _ 0 hs
    have hrest := ht.success (E := Shifts) (S := Holds pkt none none) (F := Holds pkt none none)
      (fun _ hs => hs.forget) fun _ => (last dst (.inr rfl) _).ends
    rw [Tri.or_some] at hrest
    have hall := (h so (.inl rfl) none).append fun _ => hrest
    rw [Tri.and_some] at hall
    simpa only [addrCode, addrVal, leaving, List.append_assoc, List.singleton_append] using hall

/-- A test in both directions. -/
theorem both_ends {code : Nat → Code} {test : Nat → Bool} {src dst first second : Nat} (dir : Dir)
    (hb : ∀ s, Holds pkt none none s → Holds pkt none b s)
    (h : ∀ off, off = src ∨ off = dst ∨ off = first ∨ off = second →
      Runs pkt host (code off) (Holds pkt none b) (some (test off)) (Holds pkt none none)) :
    Ends pkt host (bothCode code src dst first second dir) (Holds pkt none b)
      (bothVal test src dst first second dir) := by
  cases dir with
  | src => exact (h src (by simp)).ends
  | dst => exact (h dst (by simp)).ends
  | srcAndDst =>
    exact ((h first (by simp)).and fun _ => (h second (by simp)).pre hb).ends
  | srcOrDst =>
    have halt := Meets.alt (fun _ _ _ => by simp [machine]) (@jumps_ja pkt host)
      (h first (by simp)).ends fun _ => ((h second (by simp)).pre hb).ends
    rwa [Tri.or_some] at halt

theorem segs_runs {off : Nat} (segs : List UInt16) (i : Nat)
    (h : off + (i + segs.length) * 2 ≤ 32767) :
    Runs pkt host (segsCode off i segs) (Holds pkt a b) (some (segsVal pkt off i segs))
      (Holds pkt none none) := by
  induction segs generalizing i a b with
  | nil => exact nil_runs
  | cons seg segs ih =>
    simp only [List.length_cons] at h
    exact (check_runs .half _ (by omega)).and fun _ => ih (i + 1) (by omega)

/-- `R4 &= mask`. -/
theorem and_runs (m x : UInt32) :
    Runs pkt host (ops [.and32Imm r4 m.toInt32]) (Holds pkt (some x.toUInt64) b) (some true)
      (Holds pkt (some (x &&& m).toUInt64) b) :=
  drops_next (f := fun s => s.set 4 (x &&& m).toUInt64)
    (fun _ hs => @act_arith _ _ _ _ .and _ m _ rfl (hs.four _ rfl)) (fun _ hs => hs.set_four)

/-- A load compared under a mask. -/
theorem masked_runs (m x : UInt32) (k : Int32) :
    Runs pkt host (ops [.and32Imm r4 m.toInt32] ++ [failing (.jneImm r4 k 0)])
      (Holds pkt (some x.toUInt64) b) (some ((x &&& m).toUInt64 == wide k))
      (Holds pkt (some (x &&& m).toUInt64) b) :=
  (and_runs m x).before (jne_runs k _)

theorem net6Segs_runs {prefixLen off : Nat} (segs : List UInt16) (i : Nat)
    (h : off + (i + segs.length) * 2 ≤ 32767) :
    Runs pkt host (net6SegsCode prefixLen off i segs) (Holds pkt a b)
      (some (net6SegsVal pkt prefixLen off i segs)) (Holds pkt none none) := by
  induction segs generalizing i a b with
  | nil => exact nil_runs
  | cons seg segs ih =>
    simp only [List.length_cons] at h
    simp only [net6SegsCode, net6SegsVal]
    by_cases hp : i * 16 ≥ prefixLen
    · simp only [hp, if_true]
      exact nil_runs
    · simp only [hp, if_false]
      have hload := @load_runs pkt host a b .half (off + i * 2) (by omega)
      by_cases he : i * 16 + 16 ≤ prefixLen
      · simp only [he, if_true]
        exact (hload.and fun _ => jne_runs _ _).and fun _ => ih (i + 1) (by omega)
      · simp only [he, if_false]
        refine Runs.and (hload.and fun _ => masked_runs _ _ _) fun _ => ih (i + 1) (by omega)

/-- R6 to the transport header of an IPv4 packet. -/
theorem transport_runs {netOff : Nat} (h : netOff ≤ 32767) :
    Runs pkt host (transportCode netOff) (Holds pkt a b) (some (inside pkt .byte netOff))
      (Holds pkt none (some (addr (ihlOff pkt netOff)))) := by
  have hand : Runs pkt host (ops [.and32Imm r4 0x0f])
      (Holds pkt (some (loaded pkt .byte netOff)) b) (some true)
      (Holds pkt (some (field pkt .byte netOff &&& 0x0f).toUInt64) b) :=
    and_runs 0x0f _
  have hshl : Runs pkt host (ops [.lsh32Imm r4 2])
      (Holds pkt (some (field pkt .byte netOff &&& 0x0f).toUInt64) b) (some true)
      (Holds pkt (some ((field pkt .byte netOff &&& 0x0f) <<< 2).toUInt64) b) :=
    drops_next (fun _ hs => @act_arith _ _ _ _ .shl _ 2 _ rfl (hs.four _ rfl))
      (fun _ hs => hs.set_four)
  have hmov : Runs pkt host (ops [.mov64Reg r6 r2])
      (Holds pkt (some ((field pkt .byte netOff &&& 0x0f) <<< 2).toUInt64) b) (some true)
      (Holds pkt (some ((field pkt .byte netOff &&& 0x0f) <<< 2).toUInt64) (some pktBase)) :=
    drops_next (fun _ hs => act_mov64_reg (by decide) (by decide) hs.two)
      (fun _ hs => hs.set_six)
  have hadd : Runs pkt host (ops [.add64Imm r6 (.ofNat netOff)])
      (Holds pkt (some ((field pkt .byte netOff &&& 0x0f) <<< 2).toUInt64) (some pktBase))
      (some true)
      (Holds pkt (some ((field pkt .byte netOff &&& 0x0f) <<< 2).toUInt64) (some (addr netOff))) := by
    refine drops_next (fun _ hs => act_add64_imm _ (by decide) (by decide) (hs.six _ rfl))
      (fun _ hs => ?_)
    rw [sext_imm (by omega)]
    exact hs.set_six
  have hreg : Runs pkt host (ops [.add64Reg r6 r4])
      (Holds pkt (some ((field pkt .byte netOff &&& 0x0f) <<< 2).toUInt64) (some (addr netOff)))
      (some true) (Holds pkt none (some (addr (ihlOff pkt netOff)))) := by
    refine drops_next (fun _ hs => act_add64_reg (hs.four _ rfl) (hs.six _ rfl)) (fun _ hs => ?_)
    have he : addr netOff + ((field pkt .byte netOff &&& 0x0f) <<< 2).toUInt64 =
        addr (ihlOff pkt netOff) := by
      rw [addr, addr, ihlOff, UInt64.ofNat_add, UInt64.ofNat_uInt32ToNat, UInt64.add_assoc]
    rw [he]
    exact hs.forget_four.set_six
  exact (load_runs .byte h).then_op fun _ => hand.before (hshl.before (hmov.before
    (hadd.before hreg)))

/-- The bounds check behind R6. -/
theorem r6_runs {n size : Nat} (hn : n < 2 ^ 16) (hs : size < 2 ^ 31) :
    Runs pkt host (r6Code (.ofNat size)) (Holds pkt a (some (addr n))) (some (fits pkt n size))
      (Holds pkt a (some (addr n))) :=
  check_drops (by decide) hn hs fun _ h => h.six _ rfl

theorem ihlOff_le (pkt : Packet) (netOff : Nat) : ihlOff pkt netOff ≤ netOff + 60 := by
  have h : (field pkt .byte netOff &&& 0x0f).toNat ≤ 15 := by
    rw [UInt32.toNat_and]
    exact Nat.and_le_right
  have hshl : ((field pkt .byte netOff &&& 0x0f) <<< 2).toNat ≤ 60 := by
    rw [UInt32.toNat_shiftLeft]
    generalize (field pkt .byte netOff &&& 0x0f).toNat = x at h
    have h2 : (2 : UInt32).toNat % 32 = 2 := rfl
    rw [h2, Nat.shiftLeft_eq]
    omega
  unfold ihlOff
  omega

/-- Two comparisons of R4 of which one has to hold. -/
theorem either_runs (k k' : Int32) (v : UInt64) :
    Runs pkt host (Frag.skipping (.jeqImm r4 k 0) () [failing (.jneImm r4 k' 0)])
      (Holds pkt (some v) b) (some (v == wide k || v == wide k')) (Holds pkt none none) := by
  have ht : Tests (machine pkt host) (.jeqImm r4 k 0) () (Holds pkt (some v) b) (v == wide k) :=
    tests_four fun s hs => act_jeq_imm _ 0 hs
  have h := ht.skipping (E := Shifts) (fun _ hs => hs.forget)
    fun _ => (jne_runs k' v).post fun _ hs => hs.forget
  rwa [Tri.or_some] at h

theorem l4Proto_runs {proto : Option Proto} {off : Nat} {c : Code} (h : off ≤ 32767)
    (hc : l4ProtoCode off proto = .ok c) :
    Runs pkt host c (Holds pkt a b) (some (l4ProtoVal pkt off proto)) (Holds pkt none none) := by
  rcases proto with _ | p
  · cases hc
    exact (load_runs .byte h).and fun _ => either_runs 6 17 _
  · cases p with
    | tcp => cases hc; exact check_runs _ _ h
    | udp => cases hc; exact check_runs _ _ h
    | sctp => cases hc; exact check_runs _ _ h
    | _ => cases hc

theorem port4_runs {link : LinkType} {proto : Option Proto} {c : Code}
    (hc : l4ProtoCode (link.netOffset + 9) proto = .ok c) :
    Runs pkt host (c ++ transportCode link.netOffset ++ r6Code 4) (Holds pkt a b)
      (some (port4Val pkt link.netOffset proto))
      (Holds pkt none (some (addr (ihlOff pkt link.netOffset)))) := by
  have hnet := netOffset_le link
  have hihl := ihlOff_le pkt link.netOffset
  exact ((l4Proto_runs (by omega) hc).and fun _ => transport_runs (by omega)).and
    fun _ => r6_runs (by omega) (by decide)

theorem port6_runs {link : LinkType} {proto : Option Proto} {c : Code}
    (hc : l4ProtoCode (link.netOffset + 6) proto = .ok c) :
    Runs pkt host
      (c ++ ops [.mov64Reg r6 r2, .add64Imm r6 (.ofNat (link.netOffset + 40))] ++ r6Code 4)
      (Holds pkt a b) (some (port6Val pkt link.netOffset proto))
      (Holds pkt none (some (addr (link.netOffset + 40)))) := by
  have hnet := netOffset_le link
  have hmov : Runs pkt host (ops [.mov64Reg r6 r2]) (Holds pkt none none) (some true)
      (Holds pkt none (some pktBase)) :=
    drops_next (fun _ hs => act_mov64_reg (by decide) (by decide) hs.two)
      (fun _ hs => hs.set_six)
  have hadd : Runs pkt host (ops [.add64Imm r6 (.ofNat (link.netOffset + 40))])
      (Holds pkt none (some pktBase)) (some true)
      (Holds pkt none (some (addr (link.netOffset + 40)))) := by
    refine drops_next (fun _ hs => act_add64_imm _ (by decide) (by decide) (hs.six _ rfl))
      (fun _ hs => ?_)
    rw [sext_imm (by omega)]
    exact hs.set_six
  exact ((l4Proto_runs (by omega) hc).then_op fun _ => hmov.before hadd).and
    fun _ => r6_runs (by omega) (by decide)

theorem portPrereqs_runs {proto : Option Proto} {c : Code}
    (hc : portPrereqsCode link proto = .ok c) :
    Runs pkt host c (Holds pkt none none) (some (portPrereqsVal pkt link proto))
      (Holds pkt none (some (addr (transOff pkt link)))) := by
  unfold portPrereqsCode at hc
  unfold portPrereqsVal transOff
  cases ho : link.etherProtoOffset with
  | none =>
    simp only [ho] at hc ⊢
    have he : etherCode link 0x0800 = .ok [] := by
      simp [etherCode, ho]
    rw [he] at hc
    cases hl : l4ProtoCode (link.netOffset + 9) proto with
    | error e =>
      rw [hl] at hc
      cases hc
    | ok l =>
      rw [hl] at hc
      cases hc
      exact port4_runs hl
  | some off =>
    have hle := etherProtoOffset_le ho
    simp only [ho] at hc ⊢
    cases h6 : l4ProtoCode (link.netOffset + 6) proto with
    | error e =>
      rw [h6] at hc
      cases hc
    | ok l6 =>
      cases h4 : l4ProtoCode (link.netOffset + 9) proto with
      | error e =>
        rw [h6, h4] at hc
        cases hc
      | ok l4 =>
        rw [h6, h4] at hc
        cases hc
        have h := @dual_runs pkt host off (by omega) _ _ _ _ (fun t => Holds pkt none
            (some (addr (bif t then ihlOff pkt link.netOffset else link.netOffset + 40))))
            (fun _ => port6_runs h6) (fun _ => port4_runs h4)
        exact h

/-- Behind the prerequisites the two ports are in the packet. -/
theorem portPrereqs_fits {proto : Option Proto} (h : portPrereqsVal pkt link proto = true) :
    transOff pkt link + 4 ≤ pkt.length := by
  apply length_of_fits
  unfold portPrereqsVal at h
  unfold transOff
  cases ho : link.etherProtoOffset with
  | none =>
    simp only [ho, port4Val, Bool.and_eq_true] at h
    exact h.2
  | some off =>
    simp only [ho, dualVal, Bool.and_eq_true] at h ⊢
    cases hv : loaded pkt .half off == wide 0x0800 with
    | true =>
      simp only [hv, cond_true, port4Val, Bool.and_eq_true] at h
      exact h.2.2
    | false =>
      simp only [hv, cond_false, port6Val, Bool.and_eq_true] at h
      exact h.2.2.2

theorem transOff_lt (pkt : Packet) (link : LinkType) : transOff pkt link < 2 ^ 16 := by
  have hnet := netOffset_le link
  have hihl := ihlOff_le pkt link.netOffset
  unfold transOff
  cases link.etherProtoOffset with
  | none => simp only; omega
  | some off =>
    simp only
    cases loaded pkt .half off == wide 0x0800 with
    | true => simp only [cond_true]; omega
    | false => simp only [cond_false]; omega

/-- A port is loaded without a bounds check of its own. -/
theorem portLoad_runs {n off : Nat} (hn : n < 2 ^ 16) (ho : off ≤ 2) (h : n + 4 ≤ pkt.length) :
    Runs pkt host (portLoad off) (Holds pkt a (some (addr n))) (some true)
      (Holds pkt (some (loaded pkt .half (n + off))) (some (addr n))) := by
  have hlen : n + off + AccessSize.bytes .half ≤ pkt.length := by
    simp only [AccessSize.bytes]
    omega
  exact ldxBe_drops .half (by decide) (by omega) hn (fun _ hs => hs.six _ rfl) hlen

theorem port_ends {n : Nat} (hn : n < 2 ^ 16) (h : n + 4 ≤ pkt.length) (k : Int32) (dir : Dir) :
    Ends pkt host (addrCode portLoad k 0 2 dir) (Holds pkt none (some (addr n)))
      (addrVal (fun _ => true) (fun off => loaded pkt .half (n + off)) k 0 2 dir) := by
  refine addr_ends k dir fun off ho a => portLoad_runs hn ?_ h
  omega

/-- A range test keeps R6 also where it fails. -/
theorem range_drops {lo hi : UInt16} {n off : Nat} (hn : n < 2 ^ 16) (ho : off ≤ 2)
    (h : n + 4 ≤ pkt.length) :
    Drops (machine pkt host) Shifts (rangeCode lo hi off) (Holds pkt none (some (addr n)))
      (some (rangeVal pkt lo hi n off)) (Holds pkt none (some (addr n)))
      (Holds pkt none (some (addr n))) := by
  have hlt : Tests (machine pkt host) (.jltImm r4 lo.toUInt32.toInt32 0) ()
      (Holds pkt (some (loaded pkt .half (n + off))) (some (addr n)))
      (decide (loaded pkt .half (n + off) < wide lo.toUInt32.toInt32)) :=
    tests_four fun s hs => act_jlt_imm _ 0 hs
  have hgt : Tests (machine pkt host) (.jgtImm r4 hi.toUInt32.toInt32 0) ()
      (Holds pkt (some (loaded pkt .half (n + off))) (some (addr n)))
      (decide (wide hi.toUInt32.toInt32 < loaded pkt .half (n + off))) :=
    tests_four fun s hs => act_jgt_imm _ 0 hs
  have hload := @portLoad_runs _ host none _ _ hn ho h
  have hload' : Drops (machine pkt host) Shifts (portLoad off) (Holds pkt none (some (addr n)))
      (some true) (Holds pkt (some (loaded pkt .half (n + off))) (some (addr n)))
      (Holds pkt none (some (addr n))) := fun s hs => hload s hs
  have hrange := (hload'.append_drops fun _ =>
    hlt.failure (E := Shifts) (fun _ hs => hs) (fun _ hs => hs.forget_four)).append_drops
    fun _ => hgt.failure (E := Shifts) (fun _ hs => hs.forget_four) (fun _ hs => hs.forget_four)
  rwa [Tri.and_true, Tri.and_some] at hrange

theorem portRange_ends {lo hi : UInt16} {n : Nat} (hn : n < 2 ^ 16) (h : n + 4 ≤ pkt.length)
    (dir : Dir) :
    Ends pkt host (bothCode (rangeCode lo hi) 0 2 0 2 dir) (Holds pkt none (some (addr n)))
      (bothVal (rangeVal pkt lo hi n) 0 2 0 2 dir) := by
  have hr := fun off (ho : off ≤ 2) =>
    @range_drops _ host lo hi _ _ hn ho h
  have last := fun off (ho : off ≤ 2) =>
    (hr off ho).weaken (fun _ hs => hs) (fun _ hs => hs.forget) (fun _ hs => hs.forget)
  cases dir with
  | src => exact (last 0 (by decide)).meets
  | dst => exact (last 2 (by decide)).meets
  | srcAndDst =>
    have hall := ((hr 0 (by decide)).weaken (fun _ hs => hs) (fun _ hs => hs)
      (fun _ hs => hs.forget)).append_drops fun _ => last 2 (by decide)
    rw [Tri.and_some] at hall
    exact hall.meets
  | srcOrDst =>
    have hall := Meets.alt (fun _ _ _ => by simp [machine]) jumps_ja
      ((hr 0 (by decide)).weaken (fun _ hs => hs) (fun _ hs => hs.forget) (fun _ hs => hs)).meets
      fun _ => (last 2 (by decide)).meets
    rwa [Tri.or_some] at hall

theorem mac_runs (addr : MacAddr) {off : Nat} (h : off ≤ 6) :
    Runs pkt host (macCode addr off) (Holds pkt a b) (some (macVal pkt addr off))
      (Holds pkt none none) :=
  (check_runs .word _ (by omega)).and fun _ => check_runs .half _ (by omega)

/-- A jump that is taken on `b` to accept, and a jump to failure behind it. -/
theorem jset_runs (k : Int32) (v : UInt64) :
    Runs pkt host (Frag.skipping (.jsetImm r4 k 0) () [failing (.ja 0)]) (Holds pkt (some v) b)
      (some (v &&& wide k != 0)) (Holds pkt none none) := by
  have ht : Tests (machine pkt host) (.jsetImm r4 k 0) () (Holds pkt (some v) b)
      (v &&& wide k != 0) := tests_four fun s hs => act_jset_imm _ 0 hs
  have hja : Tests (machine pkt host) (.ja 0) () (Holds pkt (some v) b) true :=
    fun s _ => (@jumps_ja pkt host).act s
  have h := ht.skipping (E := Shifts) (S := Holds pkt none none) (fun _ hs => hs.forget)
    fun _ => hja.failure (fun _ hs => hs.forget) (fun _ hs => hs.forget)
  rwa [Bool.not_true, Tri.or_some, Bool.or_false] at h

theorem cmp_runs (op : CmpOp) (k : UInt32) (v : UInt64) :
    Runs pkt host (cmpCode op k) (Holds pkt (some v) b) (some (cmpVal op v k))
      (Holds pkt none none) := by
  have fails : ∀ {i : Insn} {t : Bool}, (∀ s, s.get 4 = some v →
      act pkt host 0 i s = .ok (if t then .jump () s else .next s)) →
      Runs pkt host [failing i] (Holds pkt (some v) b) (some !t) (Holds pkt none none) :=
    fun h => Runs.post (failing_drops h) fun _ hs => hs.forget
  have hnot : ∀ x y : UInt64, (!decide (x < y)) = decide (y ≤ x) := by
    intro x y
    rw [← decide_not]
    exact decide_eq_decide.mpr UInt64.not_lt
  have hnot' : ∀ x y : UInt64, (!decide (x ≤ y)) = decide (y < x) := by
    intro x y
    rw [← decide_not]
    exact decide_eq_decide.mpr UInt64.not_le
  cases op with
  | eq => exact (jne_runs _ _).post fun _ hs => hs.forget
  | ne => exact fails fun s hs => act_jeq_imm _ 0 hs
  | gt =>
    have h := fails fun s hs => act_jle_imm k.toInt32 0 hs
    rwa [hnot'] at h
  | ge =>
    have h := fails fun s hs => act_jlt_imm k.toInt32 0 hs
    rwa [hnot] at h
  | lt =>
    have h := fails fun s hs => act_jge_imm k.toInt32 0 hs
    rwa [hnot'] at h
  | le =>
    have h := fails fun s hs => act_jgt_imm k.toInt32 0 hs
    rwa [hnot] at h
  | bitAnd => exact jset_runs _ _

theorem len_runs (op : CmpOp) (k : UInt32) :
    Runs pkt host (ops [.mov64Reg r4 r3, .sub64Reg r4 r2] ++ cmpCode op k) (Holds pkt none none)
      (some (cmpVal op (dataEnd pkt - pktBase) k)) (Holds pkt none none) := by
  have hmov : Runs pkt host (ops [.mov64Reg r4 r3]) (Holds pkt none none) (some true)
      (Holds pkt (some (dataEnd pkt)) none) :=
    drops_next (fun _ hs => act_mov64_reg (by decide) (by decide) hs.three)
      (fun _ hs => hs.set_four)
  have hsub : Runs pkt host (ops [.sub64Reg r4 r2]) (Holds pkt (some (dataEnd pkt)) none)
      (some true) (Holds pkt (some (dataEnd pkt - pktBase)) none) :=
    drops_next (fun _ hs => act_sub64_reg hs.two (hs.four _ rfl)) (fun _ hs => hs.set_four)
  exact (hmov.before hsub).before (cmp_runs op k _)

/-- Arithmetic on a loaded value and the comparison behind it. -/
theorem alu_runs {is : List Insn} (steps : List (ArithOp × UInt32)) (hc : aluCode steps = .ok is)
    (op : CmpOp) (k x : UInt32) :
    Runs pkt host (ops is ++ cmpCode op k) (Holds pkt (some x.toUInt64) b)
      ((aluVal steps x).map (fun y => cmpVal op y.toUInt64 k)) (Holds pkt none none) := by
  induction steps generalizing is x with
  | nil =>
    cases hc
    exact cmp_runs op k _
  | cons step steps ih =>
    obtain ⟨aop, operand⟩ := step
    cases hi : ebpfAlu32 aop r4 operand.toInt32 with
    | error e => simp [aluCode, hi] at hc
    | ok i =>
      cases hr : aluCode steps with
      | error e => simp [aluCode, hi, hr] at hc
      | ok rest =>
        simp only [aluCode, hi, hr, Except.ok.injEq] at hc
        subst hc
        cases ha : arith aop x operand with
        | none =>
          simp only [aluVal, ha, Option.bind_none, Option.map_none]
          intro s hs
          refine ⟨.badShift 0, rfl, ?_⟩
          have hact := @act_arith pkt host 0 _ _ _ _ _ hi (hs.four _ rfl)
          rw [ha] at hact
          exact Machine.run_stop (M := (machine pkt host).cells) hact
        | some y =>
          simp only [aluVal, ha, Option.bind_some]
          have hop : Runs pkt host (ops [i]) (Holds pkt (some x.toUInt64) b) (some true)
              (Holds pkt (some y.toUInt64) b) := by
            refine drops_next (fun _ hs => ?_) (fun _ hs => hs.set_four)
            have hact := @act_arith pkt host 0 _ _ _ _ _ hi (hs.four _ rfl)
            rwa [ha] at hact
          exact hop.before (ih hr y)

/-- An offset that is not negative, as the generator narrows it. -/
theorem offset_narrow {off : Int32} {n : Nat} (hn : off.toInt = n) :
    off.toUInt32.toNat = n ∧ off.toInt16 = .ofNat n ∧ off = .ofNat n := by
  have hlt := off.toInt_lt
  have he : off = .ofNat n := by
    apply Int32.toInt_inj.mp
    rw [hn, Int32.toInt_ofNat_of_lt (by omega)]
  rw [he] at hlt hn ⊢
  refine ⟨?_, ?_, rfl⟩
  · simp
    omega
  · simp

/-- Access to the transport header. -/
theorem trans_runs {size : AccessSize} {n : Nat} {is : List Insn}
    {steps : List (ArithOp × UInt32)} (hn : n ≤ 32767) (ha : aluCode steps = .ok is) (op : CmpOp)
    (k : UInt32) :
    Runs pkt host (transportCode link.netOffset ++ r6Code (.ofNat (n + AccessSize.bytes size)) ++
        ops (ldxBe size r4 r6 (.ofNat n)) ++ ops is ++ cmpCode op k) (Holds pkt none none)
      (Tri.and (some (inside pkt .byte link.netOffset &&
          inside pkt size (ihlOff pkt link.netOffset + n)))
        ((aluVal steps (field pkt size (ihlOff pkt link.netOffset + n))).map
          (fun y => cmpVal op y.toUInt64 k))) (Holds pkt none none) := by
  have hnet := netOffset_le link
  have hihl := ihlOff_le pkt link.netOffset
  have hsize : AccessSize.bytes size ≤ 4 := by cases size <;> decide
  have hcheck : Runs pkt host (transportCode link.netOffset ++
      r6Code (.ofNat (n + AccessSize.bytes size))) (Holds pkt none none)
      (some (inside pkt .byte link.netOffset &&
        fits pkt (ihlOff pkt link.netOffset) (n + AccessSize.bytes size)))
      (Holds pkt none (some (addr (ihlOff pkt link.netOffset)))) :=
    (transport_runs (by omega)).and fun _ => r6_runs (by omega) (by omega)
  have hfit : fits pkt (ihlOff pkt link.netOffset) (n + AccessSize.bytes size) =
      inside pkt size (ihlOff pkt link.netOffset + n) := by
    simp only [inside, fits, Nat.add_assoc]
  rw [hfit] at hcheck
  have hall := hcheck.append_drops fun hin => by
    have hlen := length_of_fits pkt (Bool.and_eq_true_iff.mp (Option.some.inj hin)).2
    have hload := @ldxBe_drops _ host none _ size r6 6 (by decide) (ihlOff pkt link.netOffset) _ hn
      (by omega) (fun _ hs => hs.six _ rfl) hlen
    exact Runs.before hload (alu_runs steps ha op k _)
  simpa only [List.append_assoc] using hall

/-- The two shapes of a byte access that compiles. -/
theorem byteAccessCode_ok {ba : ByteAccess} {c : Code} (hc : byteAccessCode link ba = .ok c) :
    ∃ value is, ba.rhs = .const value ∧ aluCode ba.aluOps = .ok is ∧
      ((ba.layer = .trans ∧ ba.offset.toInt + AccessSize.bytes ba.size < 2 ^ 31 ∧
          c = transportCode link.netOffset ++
            r6Code (ba.offset + .ofNat (AccessSize.bytes ba.size)) ++
            ops (ldxBe ba.size r4 r6 ba.offset.toInt16) ++ ops is ++ cmpCode ba.op value) ∨
        (ba.layer ≠ .trans ∧
          layerBase link ba + ba.offset.toUInt32.toNat + AccessSize.bytes ba.size < 2 ^ 32 ∧
          c = loadCode ba.size (layerBase link ba + ba.offset.toUInt32.toNat) ++ ops is ++
            cmpCode ba.op value)) := by
  unfold byteAccessCode at hc
  cases hrhs : ba.rhs with
  | load l =>
    rw [hrhs] at hc
    cases hc
  | const value =>
    rw [hrhs] at hc
    cases ha : aluCode ba.aluOps with
    | error e =>
      simp only [ha] at hc
      by_cases ht : ba.layer = .trans
      · rw [if_pos ht] at hc
        split at hc
        · cases hc
        · cases hc
      · rw [if_neg ht] at hc
        change (if layerBase link ba + _ + _ < 2 ^ 32 then _ else _) = _ at hc
        split at hc
        · cases hc
        · cases hc
    | ok is =>
      simp only [ha] at hc
      refine ⟨value, is, rfl, rfl, ?_⟩
      by_cases ht : ba.layer = .trans
      · rw [if_pos ht] at hc
        split at hc
        · rename_i hlt
          cases hc
          exact .inl ⟨ht, hlt, rfl⟩
        · cases hc
      · rw [if_neg ht] at hc
        change (if layerBase link ba + _ + _ < 2 ^ 32 then _ else _) = _ at hc
        split at hc
        · rename_i hlt
          cases hc
          exact .inr ⟨ht, hlt, rfl⟩
        · cases hc

/-- A byte access whose displacement fits runs as its value says. -/
theorem byteAccess_runs {ba : ByteAccess} {c : Code} (hc : byteAccessCode link ba = .ok c)
    (hr : Reaches link ba) :
    Runs pkt host c (Holds pkt none none) (byteAccessVal pkt link ba) (Holds pkt none none) := by
  obtain ⟨h0, hle⟩ := hr
  obtain ⟨n, hn⟩ := Int.eq_ofNat_of_zero_le h0
  obtain ⟨hu, hoff, heq⟩ := offset_narrow hn
  obtain ⟨value, is, hrhs, ha, ⟨ht, -, rfl⟩ | ⟨ht, -, rfl⟩⟩ := byteAccessCode_ok hc
  · simp only [byteAccessVal, hrhs, ht, if_true]
    rw [hu, hoff, heq, ← Int32.ofNat_add]
    exact trans_runs (by omega) ha _ _
  · simp only [byteAccessVal, hrhs, ht, if_false]
    rw [hu]
    have h := (@load_runs pkt host none none ba.size (layerBase link ba + n) (by omega)).append_drops
      fun _ => alu_runs _ ha ba.op value _
    rwa [← List.append_assoc] at h

theorem getD_le {d : Nat} (h : d ≤ 14) : link.etherProtoOffset.getD d ≤ 14 := by
  cases ho : link.etherProtoOffset with
  | none => exact h
  | some off => exact etherProtoOffset_le ho

/-- The prerequisites of a port test and the test behind them. -/
theorem ports_meets {proto : Option Proto} {c d : Code} {x : Bool}
    (hc : (portPrereqsCode link proto).map (· ++ d) = .ok c)
    (hd : transOff pkt link + 4 ≤ pkt.length →
      Ends pkt host d (Holds pkt none (some (addr (transOff pkt link)))) x) :
    Ends pkt host c (Holds pkt none none) (portPrereqsVal pkt link proto && x) := by
  cases hg : portPrereqsCode link proto with
  | error e =>
    rw [hg] at hc
    cases hc
  | ok g =>
    rw [hg] at hc
    cases hc
    have h := (@portPrereqs_runs pkt host _ _ _ hg).append
      fun ht => hd (portPrereqs_fits (Option.some.inj ht))
    rwa [Tri.and_some] at h

theorem noRawIp_ok {message : String} {c d : Code} (h : noRawIp link message d = .ok c) :
    d = c := by
  unfold noRawIp at h
  split at h
  · cases h
  · exact Except.ok.inj h

/-- What the code of a primitive does, on every packet. -/
theorem leaf_ends {p : Primitive} {c : Code} (hc : leafCode link p = .ok c)
    (hr : ∀ ba, p = .byteAccess ba → Reaches link ba) :
    Meets (machine pkt host) Shifts c (Holds pkt none none) (leafVal pkt link p)
      (Holds pkt none none) (Holds pkt none none) := by
  have hnet := netOffset_le link
  cases p with
  | proto p => exact (proto_runs hc).meets
  | host a dir =>
    cases a with
    | v4 a => exact guarded_meets hc (addr_ends _ dir fun off ho _ => load_runs .word (by omega))
    | v6 a =>
      refine guarded_meets hc (both_ends dir (fun _ hs => hs) fun off ho => segs_runs _ 0 ?_)
      simp
      omega
  | net net dir =>
    exact guarded_meets hc (addr_ends _ dir fun off ho _ =>
      (load_runs .word (by omega)).then_op fun _ => and_runs _ _)
  | net6 net dir =>
    refine guarded_meets hc (both_ends dir (fun _ hs => hs) fun off ho => net6Segs_runs _ 0 ?_)
    simp
    omega
  | port port dir proto =>
    exact ports_meets hc fun h => port_ends (transOff_lt pkt link) h _ dir
  | portRange lo hi dir proto =>
    exact ports_meets hc fun h => portRange_ends (transOff_lt pkt link) h dir
  | etherHost addr dir =>
    have hc' := noRawIp_ok hc
    subst hc'
    exact both_ends dir (fun _ hs => hs) fun off ho => mac_runs addr (by omega)
  | etherProto et => exact (ether_runs hc).meets
  | etherMulticast =>
    have hc' := noRawIp_ok hc
    subst hc'
    exact ((load_runs .byte (by omega)).and fun _ => jset_runs 1 _).meets
  | ipBroadcast => exact guarded_meets hc (check_runs _ _ (by omega)).meets
  | ipMulticast =>
    exact guarded_meets hc (((load_runs .word (by omega)).and fun _ => masked_runs _ _ _).post
      fun _ hs => hs.forget).meets
  | ip6Multicast => exact guarded_meets hc (check_runs _ _ (by omega)).meets
  | vlan id =>
    have hoff := @getD_le link 14 (by decide)
    rcases id with _ | vid
    · exact (ether_runs hc).meets
    · exact guarded_meets hc (((load_runs .half (by omega)).and fun _ =>
        masked_runs 0x0fff _ _).post fun _ hs => hs.forget).meets
  | mpls label =>
    cases ho : link.etherProtoOffset with
    | none => simp [leafCode, ho] at hc
    | some off =>
      have hle := etherProtoOffset_le ho
      have hguard : Runs pkt host (mplsGuardCode off) (Holds pkt none none)
          (some (mplsGuardVal pkt off)) (Holds pkt none none) :=
        (load_runs .half (by omega)).and fun _ => either_runs _ _ _
      rcases label with _ | lbl
      · simp only [leafCode, ho, Except.ok.injEq] at hc
        subst hc
        simp only [leafVal, ho]
        exact hguard.meets
      · simp only [leafCode, ho, Except.ok.injEq] at hc
        subst hc
        simp only [leafVal, ho]
        have hshr : Runs pkt host (ops [.rsh32Imm r4 12])
            (Holds pkt (some (loaded pkt .word (off + 2))) none) (some true)
            (Holds pkt (some (field pkt .word (off + 2) >>> 12).toUInt64) none) :=
          drops_next (fun _ hs => @act_arith _ _ _ _ .shr _ 12 _ rfl (hs.four _ rfl))
            (fun _ hs => hs.set_four)
        exact (hguard.and fun _ => (((load_runs .word (by omega)).then_op fun _ => hshr).and
          fun _ => jne_runs lbl.toInt32 _).post fun _ hs => hs.forget).meets
  | pppoeDiscovery => exact (ether_runs hc).meets
  | pppoeSession id =>
    have hoff := @getD_le link 12 (by decide)
    rcases id with _ | id
    · exact (ether_runs hc).meets
    · exact guarded_meets hc (((load_runs .half (by omega)).and fun _ =>
        jne_runs _ _).post fun _ hs => hs.forget).meets
  | ipProtoChain n => exact (ip4_runs hc).meets
  | ip6ProtoChain n => exact (ip6_runs hc).meets
  | len op value =>
    cases hc
    exact (len_runs op value).meets
  | inbound => cases hc
  | outbound => cases hc
  | byteAccess ba => exact (byteAccess_runs hc (hr ba rfl)).meets

end Outcomes

end PktBaffle.Proofs.Ebpf
