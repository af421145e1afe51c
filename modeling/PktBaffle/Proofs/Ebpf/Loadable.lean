import PktBaffle.Forward.Reach
import PktBaffle.Proofs.Ebpf.Compile
import PktBaffle.Proofs.Ebpf.Flow
import PktBaffle.Proofs.Ebpf.Verdict

namespace PktBaffle.Proofs.Ebpf
open PktBaffle.Ebpf Forward PktBaffle.Extended
open PktBaffle.Classic (LinkType)

def passes (code : UInt8) : Bool :=
  !(code &&& 0x07 == bpfJmp && (code &&& 0xf0 == bpfJa || code &&& 0xf0 == bpfExit))

/-- The next instruction is one that may come next. -/
def goesOn (i : Insn) : Bool := passes i.code

abbrev Live (c : Code) : Prop := Frag.Live goesOn c

abbrev Open (c : Code) : Prop := Frag.Open goesOn c

section Pieces

variable {c d : Code} {link : LinkType} {et : UInt32} {off : Nat}

theorem goesOn_new {code dst src : UInt8} {o : Int16} {imm : Int32} (h : passes code = true) :
    goesOn (.new code dst src o imm) = true := h

theorem goesOn_test {i : Insn} (h : IsTest i) : goesOn i = true := by
  cases h <;> exact goesOn_new (by decide)

theorem goesOn_mov64Reg {dst src : UInt8} : goesOn (.mov64Reg dst src) = true := goesOn_new (by decide)

theorem goesOn_add64Imm {dst : UInt8} {k : Int32} : goesOn (.add64Imm dst k) = true :=
  goesOn_new (by decide)

theorem goesOn_mov64Imm {dst : UInt8} {k : Int32} : goesOn (.mov64Imm dst k) = true :=
  goesOn_new (by decide)

theorem goesOn_jgtReg {dst src : UInt8} {o : Int16} : goesOn (.jgtReg dst src o) = true :=
  goesOn_new (by decide)

theorem live_ops {is : List Insn} (h : ∀ i ∈ is, goesOn i = true) : Live (ops is) := by
  apply Frag.live_straight
  intro a ha
  obtain ⟨i, hi, rfl⟩ := List.mem_map.mp ha
  exact h i hi

theorem goesOn_ldxBe (size : AccessSize) (dst src : UInt8) (off : Int16) :
    ∀ i ∈ ldxBe size dst src off, goesOn i = true := by
  cases size with
  | byte =>
    intro i hi
    rcases List.mem_singleton.mp hi with rfl
    exact goesOn_new (by decide)
  | half =>
    simp only [ldxBe, ldxHBe, List.forall_mem_cons]
    exact ⟨goesOn_new (by decide), goesOn_new (by decide), by simp⟩
  | word =>
    simp only [ldxBe, ldxWBe, List.forall_mem_cons]
    exact ⟨goesOn_new (by decide), goesOn_new (by decide), by simp⟩

theorem open_failing {i : Insn} (h : goesOn i = true) : Open [failing i] := Frag.open_hole h

theorem open_test {i : Insn} (h : IsTest i) : Open [failing i] := open_failing (goesOn_test h)

theorem live_pair {i j : Insn} (hi : goesOn i = true) (hj : goesOn j = true) : Live (ops [i, j]) := by
  apply live_ops
  simp only [List.forall_mem_cons]
  exact ⟨hi, hj, by simp⟩

theorem open_load (size : AccessSize) (off : Nat) : Open (loadCode size off) := by
  have hfront : Live (ops [.mov64Reg r5 r2, .add64Imm r5 (.ofNat (off + AccessSize.bytes size))]) :=
    live_pair goesOn_mov64Reg goesOn_add64Imm
  have hcheck : Open [failing (.jgtReg r5 r3 0)] := open_failing goesOn_jgtReg
  exact (hfront.append_open hcheck).append (live_ops (goesOn_ldxBe _ _ _ _))

theorem open_check (size : AccessSize) (off : Nat) (k : UInt32) : Open (checkCode size off k) :=
  (open_load size off).append (open_test (.jne _)).live

theorem open_bound (k : Int32) : Open (r6Code k) := by
  have hfront : Live (ops [.mov64Reg r5 r6, .add64Imm r5 k]) :=
    live_pair goesOn_mov64Reg goesOn_add64Imm
  exact hfront.append_open (open_failing goesOn_jgtReg)

theorem live_mask (k : Int32) : Live (ops [.and32Imm r4 k]) :=
  Frag.live_single (goesOn_new (by decide))

theorem live_pointer (n : Nat) : Live (ops (transportPointer n)) := by
  apply live_ops
  simp only [transportPointer, List.forall_mem_cons]
  exact ⟨goesOn_new (by decide), goesOn_new (by decide), goesOn_mov64Reg, goesOn_add64Imm,
    goesOn_new (by decide), by simp⟩

/-- A jump over one test or one jump, both of which can fail. -/
theorem open_either {i j : Insn} (hi : IsTest i) : Open (Frag.skipping i () [failing j]) :=
  ⟨Frag.live_skipping (goesOn_test hi) _, failing j, by simp [Frag.skipping], (), rfl⟩

theorem open_ether (ho : link.etherProtoOffset = some off) (hc : etherCode link et = .ok c) :
    Open c := by
  unfold etherCode at hc
  rw [ho] at hc
  cases hc
  exact open_check _ _ _

/-- Code that is put in front of other code, if it compiles. -/
theorem front_ok {x : Except Error Code} (hc : x.map (· ++ d) = .ok c) :
    ∃ g, x = .ok g ∧ c = g ++ d := by
  cases x with
  | error e => cases hc
  | ok g =>
    cases hc
    exact ⟨g, rfl, rfl⟩

theorem open_guarded (ho : link.etherProtoOffset = some off)
    (hc : (etherCode link et).map (· ++ d) = .ok c) (hd : Live d) : Open c := by
  obtain ⟨g, hg, rfl⟩ := front_ok hc
  exact (open_ether ho hg).append hd

theorem open_dual {c6 c4 : Code} (h6 : Live c6) (h4 : Live c4) : Open (dualCode off c6 c4) :=
  (open_load _ _).append
    (Frag.Live.branch (goesOn_test (.jeq _)) ((open_test (.jne _)).live.append h6) h4)

theorem open_dualL4 {n : UInt8} (ho : link.etherProtoOffset = some off)
    (hc : dualL4Code link n = .ok c) : Open c := by
  unfold dualL4Code at hc
  rw [ho] at hc
  cases hc
  exact open_dual (open_check _ _ _).live (open_check _ _ _).live

theorem open_proto {p : Proto} (ho : link.etherProtoOffset = some off)
    (hc : protoCode link p = .ok c) : Open c := by
  have l4 : ∀ {et : UInt32} (off : Nat) (k : UInt32),
      (etherCode link et).map (· ++ checkCode .byte off k) = .ok c → Open c :=
    fun _ _ hc => open_guarded ho hc (open_check _ _ _).live
  cases p with
  | ip => exact open_ether ho hc
  | ip6 => exact open_ether ho hc
  | arp => exact open_ether ho hc
  | rarp => exact open_ether ho hc
  | tcp => exact open_dualL4 ho hc
  | udp => exact open_dualL4 ho hc
  | sctp => exact open_dualL4 ho hc
  | icmp => exact l4 _ _ hc
  | igmp => exact l4 _ _ hc
  | icmp6 => exact l4 _ _ hc
  | num n => exact l4 _ _ hc
  | ip6Proto n => exact l4 _ _ hc

theorem live_addr {code : Nat → Code} (h : ∀ off, Live (code off)) (k : Int32) (so dst : Nat)
    (dir : Dir) : Live (addrCode code k so dst dir) := by
  have test : ∀ off, Live (code off ++ [failing (.jneImm r4 k 0)]) :=
    fun off => (h off).append (open_test (.jne _)).live
  have leave : Live [leaving (.jeqImm r4 k 0)] := Frag.live_single (goesOn_test (.jeq _))
  cases dir with
  | src => exact test so
  | dst => exact test dst
  | srcAndDst => exact (test so).append (test dst)
  | srcOrDst => exact ((h so).append leave).append (test dst)

/-- Both directions of a check that can fail. -/
theorem open_both {code : Nat → Code} (h : ∀ off, Open (code off)) (src dst first second : Nat)
    (dir : Dir) : Open (bothCode code src dst first second dir) := by
  cases dir with
  | src => exact h src
  | dst => exact h dst
  | srcAndDst => exact (h first).append (h second).live
  | srcOrDst => exact (h first).alt (h second) _

theorem segments_ne_nil (a : Ipv6Addr) : a.segments.toList ≠ [] := by
  intro h
  have hlen := congrArg List.length h
  rw [Vector.length_toList] at hlen
  cases hlen

theorem live_segs (off i : Nat) (segs : List UInt16) : Live (segsCode off i segs) := by
  induction segs generalizing i with
  | nil => exact Frag.live_nil
  | cons seg segs ih => exact (open_check _ _ _).live.append (ih _)

theorem open_segs {segs : List UInt16} (h : segs ≠ []) (off i : Nat) : Open (segsCode off i segs) := by
  cases segs with
  | nil => exact absurd rfl h
  | cons seg segs => exact (open_check _ _ _).append (live_segs _ _ _)

/-- A segment that the prefix reaches makes for a test that can fail. -/
theorem open_net6Seg {len off i : Nat} {seg : UInt16} {segs : List UInt16} (h : i * 16 < len)
    (hs : Live (net6SegsCode len off (i + 1) segs)) :
    Open (net6SegsCode len off i (seg :: segs)) := by
  unfold net6SegsCode
  rw [if_neg (by omega)]
  refine ((open_load _ _).append ?_).append hs
  split
  · exact (open_test (.jne _)).live
  · exact (live_mask _).append (open_test (.jne _)).live

theorem live_net6Segs (len off i : Nat) (segs : List UInt16) :
    Live (net6SegsCode len off i segs) := by
  induction segs generalizing i with
  | nil => exact Frag.live_nil
  | cons seg segs ih =>
    rcases Nat.lt_or_ge (i * 16) len with hin | hout
    · exact (open_net6Seg hin (ih (i + 1))).live
    · unfold net6SegsCode
      rw [if_pos hout]
      exact Frag.live_nil

theorem open_net6Segs {len : Nat} (h : 0 < len) {segs : List UInt16} (hs : segs ≠ []) (off : Nat) :
    Open (net6SegsCode len off 0 segs) := by
  cases segs with
  | nil => exact absurd rfl hs
  | cons seg segs => exact open_net6Seg (by omega) (live_net6Segs _ _ _ _)

theorem open_l4Proto {proto : Option Proto} (hc : l4ProtoCode off proto = .ok c) : Open c := by
  rcases proto with _ | p
  · cases hc
    exact (open_load _ _).append (open_either (.jeq _)).live
  · cases p with
    | tcp => cases hc; exact open_check _ _ _
    | udp => cases hc; exact open_check _ _ _
    | sctp => cases hc; exact open_check _ _ _
    | _ => cases hc

theorem live_transport (n : Nat) : Live (transportCode n) :=
  (open_load _ _).live.append (live_pointer n)

theorem open_portPrereqs {proto : Option Proto} (ho : link.etherProtoOffset = some off)
    (hc : portPrereqsCode link proto = .ok c) : Open c := by
  have fixed : ∀ n : Int32, Live (ops [.mov64Reg r6 r2, .add64Imm r6 n]) :=
    fun n => live_pair goesOn_mov64Reg goesOn_add64Imm
  unfold portPrereqsCode at hc
  rw [ho] at hc
  cases h6 : l4ProtoCode (link.netOffset + 6) proto with
  | error e =>
    rw [h6] at hc
    cases hc
  | ok l6 =>
    cases h4 : l4ProtoCode (link.netOffset + 9) proto with
    | error e =>
      rw [h6, h4] at hc
      cases hc
    | ok l4 =>
      rw [h6, h4] at hc
      cases hc
      refine open_dual ?_ ?_
      · exact ((open_l4Proto h6).live.append (fixed _)).append (open_bound 4).live
      · exact ((open_l4Proto h4).live.append (live_transport _)).append (open_bound 4).live

theorem open_ports {proto : Option Proto} (ho : link.etherProtoOffset = some off)
    (hc : (portPrereqsCode link proto).map (· ++ d) = .ok c) (hd : Live d) : Open c := by
  obtain ⟨g, hg, rfl⟩ := front_ok hc
  exact (open_portPrereqs ho hg).append hd

theorem live_portLoad (off : Nat) : Live (portLoad off) := live_ops (goesOn_ldxBe .half _ _ _)

theorem open_range (lo hi : UInt16) (off : Nat) : Open (rangeCode lo hi off) :=
  ((live_portLoad off).append_open (open_test (.jlt _))).append (open_test (.jgt _)).live

theorem open_mac (addr : MacAddr) (off : Nat) : Open (macCode addr off) :=
  (open_check _ _ _).append (open_check _ _ _).live

theorem open_cmp (op : CmpOp) (k : UInt32) : Open (cmpCode op k) := by
  cases op with
  | eq => exact open_test (.jne _)
  | ne => exact open_test (.jeq _)
  | gt => exact open_test (.jle _)
  | ge => exact open_test (.jlt _)
  | lt => exact open_test (.jge _)
  | le => exact open_test (.jgt _)
  | bitAnd => exact open_either (.jset _)

theorem goesOn_alu {op : ArithOp} {k : Int32} {i : Insn} (h : ebpfAlu32 op r4 k = .ok i) :
    goesOn i = true := by
  cases op with
  | div =>
    simp only [ebpfAlu32] at h
    split at h
    · cases h
    · cases h
      exact goesOn_new (by decide)
  | mod => cases h
  | _ =>
    cases h
    exact goesOn_new (by decide)

theorem open_byteAccess {ba : ByteAccess} (hc : byteAccessCode link ba = .ok c) : Open c := by
  obtain ⟨value, is, -, ha, hshape⟩ := byteAccessCode_ok hc
  have halu : Live (ops is) := live_ops fun i hi => by
    obtain ⟨s, -, hs⟩ := aluCode_mem ha hi
    exact goesOn_alu hs
  obtain ⟨-, -, rfl⟩ | ⟨-, -, rfl⟩ := hshape
  · have hload := live_ops (goesOn_ldxBe ba.size r4 r6 ba.offset.toInt16)
    exact ((((live_transport _).append (open_bound _).live).append hload).append halu).append_open
      (open_cmp _ _)
  · exact ((open_load _ _).append halu).append (open_cmp _ _).live

/-- A network that is no network: all addresses have the prefix, in either direction. -/
def Vacuous (p : Primitive) : Prop := ∃ net, p = .net6 net .srcOrDst ∧ net.prefixLen.toNat = 0

/-- Behind a link-layer header the code of every other primitive has no dead instruction. -/
theorem open_leaf {p : Primitive} (ho : link.etherProtoOffset = some off)
    (hc : leafCode link p = .ok c) (hv : ¬Vacuous p) : Open c := by
  have masked : ∀ (size : AccessSize) (off : Nat) (k j : Int32),
      Open (loadCode size off ++ ops [.and32Imm r4 k] ++ [failing (.jneImm r4 j 0)]) :=
    fun size off k j => ((open_load size off).append (live_mask k)).append (open_test (.jne j)).live
  have mpls : ∀ off, Open (mplsGuardCode off) :=
    fun off => (open_load _ _).append (open_either (.jeq _)).live
  cases p with
  | proto p => exact open_proto ho hc
  | host a dir =>
    cases a with
    | v4 a => exact open_guarded ho hc (live_addr (fun off => (open_load _ _).live) _ _ _ dir)
    | v6 a =>
      have hsegs := segments_ne_nil a
      exact open_guarded ho hc (open_both (fun off => open_segs hsegs off 0) _ _ _ _ dir).live
  | net net dir =>
    refine open_guarded ho hc (live_addr (fun off => ?_) _ _ _ dir)
    exact (open_load _ _).live.append (live_mask _)
  | net6 net dir =>
    refine open_guarded ho hc ?_
    have hlive : ∀ off, Live (net6SegsCode net.prefixLen.toNat off 0 net.addr.segments.toList) :=
      fun off => live_net6Segs _ _ _ _
    have hsegs := segments_ne_nil net.addr
    cases dir with
    | src => exact hlive _
    | dst => exact hlive _
    | srcAndDst => exact (hlive _).append (hlive _)
    | srcOrDst =>
      have hpos : 0 < net.prefixLen.toNat := Nat.pos_of_ne_zero fun h0 => hv ⟨net, rfl, h0⟩
      exact (open_both (fun off => open_net6Segs hpos hsegs off) _ _ _ _ .srcOrDst).live
  | port port dir proto => exact open_ports ho hc (live_addr live_portLoad _ _ _ dir)
  | portRange lo hi dir proto =>
    exact open_ports ho hc (open_both (open_range lo hi) _ _ _ _ dir).live
  | etherHost addr dir =>
    rw [← noRawIp_ok hc]
    exact open_both (open_mac addr) _ _ _ _ dir
  | etherProto et => exact open_ether ho hc
  | etherMulticast =>
    rw [← noRawIp_ok hc]
    exact (open_load _ _).append (open_either (.jset _)).live
  | ipBroadcast => exact open_guarded ho hc (open_check _ _ _).live
  | ipMulticast => exact open_guarded ho hc (masked _ _ _ _).live
  | ip6Multicast => exact open_guarded ho hc (open_check _ _ _).live
  | vlan id =>
    rcases id with _ | vid
    · exact open_ether ho hc
    · exact open_guarded ho hc (masked _ _ _ _).live
  | mpls label =>
    rcases label with _ | lbl
    · simp only [leafCode, ho, Except.ok.injEq] at hc
      rw [← hc]
      exact mpls off
    · simp only [leafCode, ho, Except.ok.injEq] at hc
      rw [← hc]
      have hshift : Live (ops [.rsh32Imm r4 12]) := Frag.live_single (goesOn_new (by decide))
      exact (mpls off).append (((open_load _ _).live.append hshift).append (open_test (.jne _)).live)
  | pppoeDiscovery => exact open_ether ho hc
  | pppoeSession id =>
    rcases id with _ | id
    · exact open_ether ho hc
    · exact open_guarded ho hc ((open_load _ _).live.append (open_test (.jne _)).live)
  | ipProtoChain n => exact open_guarded ho hc (open_check _ _ _).live
  | ip6ProtoChain n => exact open_guarded ho hc (open_check _ _ _).live
  | len op value =>
    cases hc
    have hlen : Live (ops [.mov64Reg r4 r3, .sub64Reg r4 r2]) :=
      live_pair goesOn_mov64Reg (goesOn_new (by decide))
    exact hlen.append_open (open_cmp op value)
  | inbound => cases hc
  | outbound => cases hc
  | byteAccess ba => exact open_byteAccess hc

theorem open_expr {e : Expr} (ho : link.etherProtoOffset = some off) (hc : exprCode link e = .ok c)
    (hv : ∀ p ∈ e.leaves, ¬Vacuous p) : Open c := by
  induction e generalizing c with
  | primitive p => exact open_leaf ho hc (hv p List.mem_cons_self)
  | and l r ihl ihr =>
    obtain ⟨h₁, h₂⟩ := List.forall_mem_append.mp hv
    obtain ⟨a, b, ha, hb, rfl⟩ := exprCode_and hc
    exact (ihl ha h₁).seq (ihr hb h₂)
  | or l r ihl ihr =>
    obtain ⟨h₁, h₂⟩ := List.forall_mem_append.mp hv
    obtain ⟨a, b, ha, hb, rfl⟩ := exprCode_or hc
    exact (ihl ha h₁).alt (ihr hb h₂) _
  | not l ih =>
    obtain ⟨a, ha, rfl⟩ := exprCode_not hc
    exact (ih ha hv).neg ⟨(), rfl⟩

end Pieces

section Anchored

def leaps (code : UInt8) : Bool := code &&& 0x07 == bpfJmp && code &&& 0xf0 != bpfExit

/-- Jumps whose target is known stay in the code, and nothing but a jump has a target. -/
structure Anchored (c : Code) : Prop where
  closed : Frag.Closed c
  leaps : ∀ a ∈ c, a.slot ≠ none → leaps a.insn.code = true

namespace Anchored

variable {c d : Code} {i : Insn} {link : LinkType}

theorem nil : Anchored [] := ⟨trivial, fun _ ha => absurd ha List.not_mem_nil⟩

theorem append (hc : Anchored c) (hd : Anchored d) : Anchored (c ++ d) :=
  ⟨hc.closed.append hd.closed, List.forall_mem_append.mpr ⟨hc.leaps, hd.leaps⟩⟩

theorem cons {t : Target} (ht : ∀ n, t = .skip n → n ≤ c.length)
    (hi : Ebpf.leaps i.code = true) (hc : Anchored c) : Anchored (⟨i, some ((), t)⟩ :: c) := by
  refine ⟨⟨fun k n hs => ht n ?_, hc.closed⟩, List.forall_mem_cons.mpr ⟨fun _ => hi, hc.leaps⟩⟩
  simp only [Option.some.injEq, Prod.mk.injEq] at hs
  exact hs.2

theorem ops (is : List Insn) : Anchored (ops is) := by
  induction is with
  | nil => exact nil
  | cons i is ih =>
    refine append (c := [.op i]) ⟨?_, ?_⟩ ih
    · exact Frag.closed_single (by simp)
    · intro a ha hs
      rcases List.mem_singleton.mp ha with rfl
      exact absurd rfl hs

theorem leaps_new {code dst src : UInt8} {o : Int16} {imm : Int32} (h : Ebpf.leaps code = true) :
    Ebpf.leaps (Insn.new code dst src o imm).code = true := h

theorem test (h : IsTest i) : Ebpf.leaps i.code = true := by
  cases h <;> exact leaps_new (by decide)

theorem ja : Ebpf.leaps (Insn.ja 0).code = true := leaps_new (by decide)

theorem hole (x : Exit) (hi : Ebpf.leaps i.code = true) : Anchored [.hole i () x] :=
  cons (by simp) hi nil

theorem filled {k : Nat} (hi : Ebpf.leaps i.code = true) (hk : k ≤ c.length) (hc : Anchored c) :
    Anchored (⟨i, some ((), .skip k)⟩ :: c) := by
  refine cons (fun n hn => ?_) hi hc
  cases hn
  exact hk

theorem blind : Blind (fun a : Cell Insn Unit => a.slot ≠ none → Ebpf.leaps a.insn.code = true) where
  fill a x n h hs := by
    rw [Cell.fill_insn]
    exact h fun hn => hs (Cell.fill_none.mpr hn)
  fold a h hs := by
    rw [Cell.fold_insn]
    exact h fun hn => hs (Cell.fold_none.mpr hn)

theorem alt (hc : Anchored c) (hd : Anchored d) :
    Anchored (Frag.alt (Cell.hole (.ja 0) ()) c d) :=
  ⟨hc.closed.alt (by simp) hd.closed, blind.alt (fun _ _ => ja) hc.leaps hd.leaps⟩

theorem load (size : AccessSize) (off : Nat) : Anchored (loadCode size off) :=
  ((ops _).append (hole .failure (leaps_new (by decide)))).append (ops _)

theorem bound (k : Int32) : Anchored (r6Code k) :=
  (ops _).append (hole .failure (leaps_new (by decide)))

theorem atoms : Atoms fun _ c _ => Anchored c where
  nil _ := nil
  append := append
  load _ size off _ := load size off
  failing _ _ h := hole .failure (test h)
  leaving _ _ h := hole .success (test h)
  either _ i j hi hj := by
    refine filled (test hi) (by simp) (hole .failure ?_)
    rcases hj with hj | rfl
    · exact test hj
    · exact ja
  branch hc hd _ _ := by
    refine filled (test (.jeq _)) ?_ (hc.append (filled ja (Nat.le_refl _) hd))
    simp only [List.length_append, List.length_cons]
    omega
  alt hc hd _ := hc.alt hd
  mask _ _ := ops _
  shift _ := ops _
  pointer _ _ _ := ops _
  fixed _ _ _ := ops _
  bound _ k := bound k
  port _ := ops _
  length _ := ops _

theorem byteAccess {ba : ByteAccess} (hc : byteAccessCode link ba = .ok c) :
    Whole (fun _ c _ => Anchored c) c := by
  obtain ⟨value, is, -, -, hshape⟩ := byteAccessCode_ok hc
  obtain ⟨-, -, rfl⟩ | ⟨-, -, rfl⟩ := hshape
  · exact atoms.access value (fun _ => ⟨none, (((load ..).append (ops _)).append
      (bound _)).append (ops _)⟩) fun _ => ops is
  · exact atoms.access value (fun _ => ⟨none, load ..⟩) fun _ => ops is

theorem leaf {p : Primitive} (hc : leafCode link p = .ok c) : Anchored c := by
  obtain ⟨-, h⟩ := atoms.leaf hc (fun ba hp => byteAccess (by rw [hp] at hc; exact hc)) none
  exact h

theorem expr {e : Expr} (hc : exprCode link e = .ok c) : Anchored c := by
  induction e generalizing c with
  | primitive p => exact leaf hc
  | and l r ihl ihr =>
    obtain ⟨a, b, ha, hb, rfl⟩ := exprCode_and hc
    exact ⟨(ihl ha).closed.seq (ihr hb).closed, blind.seq (ihl ha).leaps (ihr hb).leaps⟩
  | or l r ihl ihr =>
    obtain ⟨a, b, ha, hb, rfl⟩ := exprCode_or hc
    exact (ihl ha).alt (ihr hb)
  | not l ih =>
    obtain ⟨a, ha, rfl⟩ := exprCode_not hc
    exact ⟨(ih ha).closed.neg (by simp), blind.neg (fun _ _ => ja) (ih ha).leaps⟩

end Anchored

end Anchored

section Flow

variable {n d : Nat} {i : Insn}

theorem mem_succs {t : Int} (h : t ∈ succs n i) :
    t = n + 1 ∨ (i.code &&& 0x07 ≠ bpfLdx ∧ t = n + 1 + i.off.toInt) := by
  have jump : i.code &&& 0x07 = bpfJmp ∨ i.code &&& 0x07 = bpfJmp32 → i.code &&& 0x07 ≠ bpfLdx := by
    rintro (hc | hc) <;> rw [hc] <;> decide
  unfold succs at h
  dsimp only at h
  split at h
  · cases h
  · split at h
    · rename_i hja
      exact .inr ⟨jump (.inl hja.1), List.mem_singleton.mp h⟩
    · split at h
      · rename_i hcond
        rcases List.mem_cons.mp h with h | h
        · exact .inl h
        · exact .inr ⟨jump hcond, List.mem_singleton.mp h⟩
      · exact .inl (List.mem_singleton.mp h)

theorem next_succs (h : goesOn i = true) : ((n + 1 : Nat) : Int) ∈ succs n i := by
  simp only [goesOn, passes, Bool.not_eq_true', Bool.and_eq_false_iff, Bool.or_eq_false_iff,
    beq_eq_false_iff_ne, ne_eq] at h
  unfold succs
  dsimp only
  rw [if_neg fun hx => h.elim (fun hc => hc hx.1) fun ho => ho.2 hx.2,
    if_neg fun hx => h.elim (fun hc => hc hx.1) fun ho => ho.1 hx.2]
  split
  · exact List.mem_cons_self
  · exact List.mem_cons_self

theorem jump_succs (h : leaps i.code = true) : n + 1 + i.off.toInt ∈ succs n i := by
  simp only [leaps, Bool.and_eq_true, beq_iff_eq, bne_iff_ne, ne_eq] at h
  unfold succs
  dsimp only
  rw [if_neg fun hx => h.2 hx.2]
  split
  · exact List.mem_cons_self
  · rw [if_pos (.inl h.1)]
    exact List.mem_cons_of_mem _ List.mem_cons_self

theorem exit_succs (n : Nat) : succs n .exit = [] := rfl

variable {p : Code} {a : Cell Insn Unit}

theorem raw_filled (h : Finished p) (ha : a ∈ p) {k : Unit} (hs : a.slot = some (k, .skip d)) :
    (a.raw Insn.put).off.toInt = d ∧ (a.raw Insn.put).code = a.insn.code := by
  have hle := h.tidy.within a ha k d hs
  have hraw : a.raw Insn.put = a.insn.put k d := by
    simp only [Cell.raw, hs]
  rw [hraw]
  exact ⟨put_off hle k, rfl⟩

theorem raw_goesOn (a : Cell Insn Unit) : goesOn (a.raw Insn.put) = goesOn a.insn := by
  obtain ⟨i, _ | ⟨k, t | x⟩⟩ := a <;> rfl

/-- A finished instruction leads on to the next one, or to where its cell leads. -/
theorem raw_succs (h : Finished p) (ha : a ∈ p) {t : Int} (ht : t ∈ succs n (a.raw Insn.put)) :
    t = n + 1 ∨ ∃ d, a.slot = some ((), .skip d) ∧ t = n + 1 + d := by
  rcases mem_succs ht with hn | ⟨hldx, hoff⟩
  · exact .inl hn
  · cases hs : a.slot with
    | none =>
      have hraw : a.raw Insn.put = a.insn := by
        simp only [Cell.raw, hs]
      rw [hraw] at hldx hoff
      have hzero := (h.tidy.straight a ha hs).resolve_left hldx
      rw [hzero] at hoff
      left
      simpa using hoff
    | some q =>
      obtain ⟨⟨⟩, d | x⟩ := q
      · rw [(raw_filled h ha hs).1] at hoff
        exact .inr ⟨d, rfl, hoff⟩
      · exact absurd hs (h.filled a ha () x)

theorem reached_raw (h : Finished p) (hp : Anchored p) (hn : Frag.Reaches goesOn p n) :
    Reached (p.map (Cell.raw Insn.put)) n := by
  have get : ∀ {n : Nat} {a : Cell Insn Unit}, p[n]? = some a →
      (p.map (Cell.raw Insn.put))[n]? = some (a.raw Insn.put) := by
    intro n a ha
    rw [List.getElem?_map, ha]
    rfl
  induction hn with
  | entry => exact .entry
  | @next n a _ ha ho ih => exact ih.step (get ha) (next_succs ((raw_goesOn a).trans ho))
  | @jump n d k a _ ha hs ih =>
    have hmem := List.mem_of_getElem? ha
    obtain ⟨hoff, hcode⟩ := raw_filled h hmem hs
    have hleap : leaps (a.raw Insn.put).code = true := by
      rw [hcode]
      exact hp.leaps a hmem (by simp [hs])
    have hjump := @jump_succs n _ hleap
    rw [hoff] at hjump
    exact ih.step (get ha) hjump

end Flow

section Program

variable {c : Code} {e : Expr} {link : LinkType} {prog : List Insn}

/-- The program up to its last `exit`. -/
def front (c : Code) : Code :=
  ops prologue ++ (Frag.resolve .failure 2 (Frag.resolve .success 0 c) ++
    ops [.mov64Imm r0 xdpPass, .exit, .mov64Imm r0 xdpDrop])

theorem program_front (c : Code) : program c = front c ++ [.op .exit] := by
  simp only [program, front, List.append_assoc]
  rfl

theorem front_anchored (hc : Anchored c) : Anchored (front c) := by
  have hsuccess : Frag.Closed (Frag.resolve .success 0 c) := by
    have hnil : Frag.Closed ([] : Code) := trivial
    have h := hc.closed.resolve_append hnil .success (Nat.zero_le _)
    rwa [List.append_nil] at h
  have hleaps := Anchored.blind.resolve (Anchored.blind.resolve hc.leaps .success 0) .failure 2
  have hback := Anchored.ops [.mov64Imm r0 xdpPass, .exit, .mov64Imm r0 xdpDrop]
  refine (Anchored.ops prologue).append ⟨?_, List.forall_mem_append.mpr ⟨hleaps, hback.leaps⟩⟩
  exact hsuccess.resolve_append hback.closed .failure (by simp [ops])

theorem program_anchored (hc : Anchored c) : Anchored (program c) := by
  rw [program_front]
  exact (front_anchored hc).append (Anchored.ops [.exit])

theorem program_forward (hc : Anchored c) (hf : Finished (program c)) :
    Onward ((program c).map (Cell.raw Insn.put)) := by
  intro n i hi t ht
  rw [List.getElem?_map] at hi
  obtain ⟨a, ha, rfl⟩ := Option.map_eq_some_iff.mp hi
  have hlen : ((program c).map (Cell.raw Insn.put)).length = (front c).length + 1 := by
    rw [List.length_map, program_front, List.length_append, List.length_singleton]
  have hmem := List.mem_of_getElem? ha
  rw [hlen]
  rw [program_front] at ha
  rcases Nat.lt_or_ge n (front c).length with hlt | hge
  · rw [List.getElem?_append_left hlt] at ha
    rcases raw_succs hf hmem ht with rfl | ⟨d, hs, rfl⟩
    · omega
    · have hin := (front_anchored hc).closed.get ha hs
      omega
  · rw [List.getElem?_append_right hge] at ha
    obtain rfl := List.mem_singleton.mp (List.mem_of_getElem? ha)
    have hexit : (Cell.op (κ := Unit) Insn.exit).raw Insn.put = .exit := rfl
    rw [hexit, exit_succs] at ht
    cases ht

theorem program_live (hc : Open c) {n : Nat} (hn : n < (program c).length) :
    Frag.Reaches goesOn (program c) n := by
  have hprologue : Live (ops prologue) := live_pair (goesOn_new (by decide)) (goesOn_new (by decide))
  have hopen := hc.succeed 0
  set p := Frag.resolve .failure 2 (Frag.resolve .success 0 c) with hp
  have hplive : Live p := hopen.live.resolve _ _
  have hlen : p.length = c.length := by simp [hp]
  have hfail : Frag.Reaches goesOn p (p.length + 2) := by
    have h := hopen.live.failure hopen.fails 2
    rwa [Frag.resolve_length, ← hlen] at h
  have hpass : goesOn (.mov64Imm r0 xdpPass) = true := goesOn_mov64Imm
  have hdrop : goesOn (.mov64Imm r0 xdpDrop) = true := goesOn_mov64Imm
  have hbody : ∀ m, m < (p ++ ops epilogue).length → Frag.Reaches goesOn (p ++ ops epilogue) m := by
    have get : ∀ m, (p ++ ops epilogue)[p.length + m]? = (ops epilogue)[m]? := by
      intro m
      rw [List.getElem?_append_right (Nat.le_add_right ..), Nat.add_sub_cancel_left]
    have hend := (hplive p.length (Nat.le_refl _)).append_left (ops epilogue)
    have htwo := hfail.append_left (ops epilogue)
    intro m hm
    rcases Nat.lt_or_ge m p.length with hlt | hge
    · exact (hplive m (Nat.le_of_lt hlt)).append_left _
    · obtain ⟨j, rfl⟩ := Nat.exists_eq_add_of_le hge
      rw [List.length_append] at hm
      have hj : j < 4 := by
        have hfour : (ops epilogue).length = 4 := rfl
        omega
      match j, hj with
      | 0, _ => exact hend
      | 1, _ => exact hend.next (get 0) hpass
      | 2, _ => exact htwo
      | 3, _ => exact htwo.next (get 2) hdrop
  have hprogram : program c = ops prologue ++ (p ++ ops epilogue) := rfl
  rw [hprogram] at hn ⊢
  rcases Nat.lt_or_ge n (ops prologue).length with hlt | hge
  · exact (hprologue n (Nat.le_of_lt hlt)).append_left _
  · obtain ⟨j, rfl⟩ := Nat.exists_eq_add_of_le hge
    rw [List.length_append] at hn
    exact (hbody j (by omega)).append_right ((hprologue _ (Nat.le_refl _)).append_left _)

/-- The control flow of an extended program is what a loader asks for: it goes forward and ends at
an `exit`, so no run loses its place, and behind a link-layer header no instruction is dead. -/
theorem compile_loadable (e : Expr) (link : LinkType) (prog : List Insn)
    (hc : compile e link = .ok prog) : Onward prog ∧
      (∀ pkt host limit s, prog.length ≤ limit → Own (execFrom pkt host prog limit 0 s)) ∧
      (link ≠ .rawIp → (∀ p ∈ e.leaves, ¬Vacuous p) → ∀ n < prog.length, Reached prog n) := by
  obtain ⟨c, hcode, hf, rfl⟩ := compile_ok hc
  have hanchored := Anchored.expr hcode
  have hforward := program_forward hanchored hf
  refine ⟨hforward, fun pkt host limit s hl => ?_, fun hl hv n hn => ?_⟩
  · refine hforward.exec_own limit s ?_ hl
    rw [List.length_map, program_front, List.length_append]
    exact Nat.succ_pos _
  · obtain ⟨off, ho⟩ : ∃ off, link.etherProtoOffset = some off := by
      cases link with
      | rawIp => exact absurd rfl hl
      | _ => exact ⟨_, rfl⟩
    rw [List.length_map] at hn
    exact reached_raw hf (program_anchored hanchored) (program_live (open_expr ho hcode hv) hn)

theorem compile_loadable_tcp : ∃ prog, compile tcpNotHttp .ethernet = .ok prog ∧ Onward prog ∧
    ∀ n < prog.length, Reached prog n := by
  have hok : (compile tcpNotHttp .ethernet).isOk = true := by decide +kernel
  cases hp : compile tcpNotHttp .ethernet with
  | error err =>
    rw [hp] at hok
    cases hok
  | ok prog =>
    obtain ⟨honward, -, hreached⟩ := compile_loadable tcpNotHttp .ethernet prog hp
    refine ⟨prog, rfl, honward, hreached (by decide) fun p hm => ?_⟩
    rintro ⟨net, rfl, -⟩
    simp [tcpNotHttp, Expr.leaves] at hm

end Program

end PktBaffle.Proofs.Ebpf
