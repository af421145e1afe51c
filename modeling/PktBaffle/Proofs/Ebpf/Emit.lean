import PktBaffle.Proofs.Ebpf.Code

namespace PktBaffle.Proofs.Ebpf
open PktBaffle.Ebpf Forward PktBaffle.Extended
open PktBaffle.Classic (LinkType concat debugProto hex4)

section Slots

variable (n : Nat)

@[simp] theorem slots_append_code (x : Exit) (c d : Code) :
    Frag.slots x n (c ++ d) = Frag.slots x n c ++ Frag.slots x (n + c.length) d :=
  Frag.slots_append x n c d

@[simp] theorem slots_loadCode (size : AccessSize) (off : Nat) :
    Frag.slots .failure n (loadCode size off) = [((), n + 2)] := by
  simp [loadCode]

@[simp] theorem slots_loadCode_success (size : AccessSize) (off : Nat) :
    Frag.slots .success n (loadCode size off) = [] := by
  simp [loadCode]

@[simp] theorem slots_checkCode_success (size : AccessSize) (off : Nat) (k : UInt32) :
    Frag.slots .success n (checkCode size off k) = [] := by
  simp [checkCode]

@[simp] theorem slots_r6Code (size : Int32) :
    Frag.slots .failure n (r6Code size) = [((), n + 2)] := by
  simp [r6Code]

@[simp] theorem slots_r6Code_success (size : Int32) :
    Frag.slots .success n (r6Code size) = [] := by
  simp [r6Code]

theorem loadCode_length (size : AccessSize) (off : Nat) : (loadCode size off).length ≤ 5 := by
  cases size <;> simp [loadCode, ldxBe, ldxHBe, ldxWBe]

theorem checkCode_length (size : AccessSize) (off : Nat) (k : UInt32) :
    (checkCode size off k).length ≤ 6 := by
  have := loadCode_length size off
  simp only [checkCode, List.length_append, List.length_singleton]
  omega

end Slots

/-- `m` puts the code `c` behind what is there and returns its open slots. -/
def Emits (m : Gen Patches) (cg : Codegen) (c : Code) : Prop :=
  m cg = .ok (patchesAt cg.insns.length c, placed cg c)

/-- As `Emits`, for code that can only fail. -/
def Fails (m : Gen (List Patch)) (cg : Codegen) (c : Code) : Prop :=
  m cg = .ok (Frag.slots .failure cg.insns.length c, placed cg c) ∧
    ∀ n, Frag.slots .success n c = []

section Loads

variable (cg : Codegen)

theorem emitLoad_run (size : AccessSize) {off : Nat}
    (h : off + AccessSize.bytes size < 2 ^ 32) :
    emitLoad (AccessSize.bytes size) (ldxBe size r4 r2) off cg =
      .ok (((), cg.insns.length + 2), placed cg (loadCode size off)) := by
  unfold emitLoad
  rw [bind_run (push_op cg _), bind_run (addU32_run h), bind_run (push_op _ _),
    bind_run (push_failing _ _), bind_run (pushAll_run _ _)]
  simp [loadCode, ops]

theorem emitLoad_error (size : AccessSize) {off : Nat}
    (h : ¬off + AccessSize.bytes size < 2 ^ 32) :
    emitLoad (AccessSize.bytes size) (ldxBe size r4 r2) off cg = .error overflow := by
  unfold emitLoad
  rw [bind_run (push_op cg _), bind_error (addU32_error h)]
  rfl

theorem emitLoadByte_run {off : Nat} (h : off + 1 < 2 ^ 32) :
    emitLoadByte off cg = .ok (((), cg.insns.length + 2), placed cg (loadCode .byte off)) :=
  emitLoad_run cg .byte h

theorem emitLoadHalf_run {off : Nat} (h : off + 2 < 2 ^ 32) :
    emitLoadHalf off cg = .ok (((), cg.insns.length + 2), placed cg (loadCode .half off)) :=
  emitLoad_run cg .half h

theorem emitLoadWord_run {off : Nat} (h : off + 4 < 2 ^ 32) :
    emitLoadWord off cg = .ok (((), cg.insns.length + 2), placed cg (loadCode .word off)) :=
  emitLoad_run cg .word h

theorem checkLoad_emits {load : Gen Patch} {size : AccessSize} {off : Nat} (k : UInt32)
    (h : load cg = .ok (((), cg.insns.length + 2), placed cg (loadCode size off))) :
    Emits (checkLoad load k) cg (checkCode size off k) := by
  unfold Emits checkLoad
  rw [bind_run h, bind_run (push_failing _ _)]
  simp [checkCode, patchesAt]

theorem checkHalf_emits {off : Nat} (k : UInt32) (h : off + 2 < 2 ^ 32) :
    Emits (checkHalf off k) cg (checkCode .half off k) :=
  checkLoad_emits cg k (emitLoadHalf_run cg h)

theorem checkByte_emits {off : Nat} (k : UInt32) (h : off + 1 < 2 ^ 32) :
    Emits (checkByte off k) cg (checkCode .byte off k) :=
  checkLoad_emits cg k (emitLoadByte_run cg h)

theorem checkWord_emits {off : Nat} (k : UInt32) (h : off + 4 < 2 ^ 32) :
    Emits (checkWord off k) cg (checkCode .word off k) :=
  checkLoad_emits cg k (emitLoadWord_run cg h)

end Loads

/-- `m` puts the code behind what is there, or fails as it says. -/
def EmitsAs (m : Gen Patches) (cg : Codegen) : Except Error Code → Prop
  | .error e => m cg = .error e
  | .ok c => Emits m cg c

theorem EmitsAs.congr {m m' : Gen Patches} {cg : Codegen} {r : Except Error Code}
    (h : EmitsAs m' cg r) (he : m cg = m' cg) : EmitsAs m cg r := by
  cases r with
  | error e => exact he.trans h
  | ok c => exact he.trans h

/-- A guard and then the code that it protects. -/
theorem EmitsAs.guard {m : Gen Patches} {k : Patches → Gen Patches} {cg : Codegen}
    {r : Except Error Code} {d : Code} (h : EmitsAs m cg r)
    (hk : ∀ c, k (patchesAt cg.insns.length c) (placed cg c) =
      .ok (patchesAt cg.insns.length (c ++ d), placed cg (c ++ d))) :
    EmitsAs (m >>= k) cg (r.map (· ++ d)) := by
  cases r with
  | error e => exact bind_error h
  | ok c => exact (bind_run h).trans (hk c)

section Guards

variable (cg : Codegen)

theorem netOffset_le (link : LinkType) : link.netOffset ≤ 16 := by
  cases link <;> decide

theorem etherProtoOffset_le {link : LinkType} {off : Nat} (h : link.etherProtoOffset = some off) :
    off ≤ 14 := by
  cases link <;> simp only [LinkType.etherProtoOffset, Option.some.injEq, reduceCtorEq] at h <;>
    omega

theorem emitEthertype_emits (et : UInt32) :
    EmitsAs (emitEthertype et) cg (etherCode cg.link et) := by
  unfold emitEthertype etherCode
  cases ho : cg.link.etherProtoOffset with
  | some off =>
    have hle := etherProtoOffset_le ho
    show (get >>= _ : Gen Patches) cg = _
    rw [get_bind, ho]
    exact checkHalf_emits cg et (by omega)
  | none =>
    by_cases he : et = 0x0800
    · simp only [he, if_true]
      show (get >>= _ : Gen Patches) cg = _
      rw [get_bind, ho]
      simp [patchesAt, Patches.default]
    · simp only [he, if_false]
      show (get >>= _ : Gen Patches) cg = _
      rw [get_bind, ho]
      rfl

theorem emitIp4L4_emits (n : UInt8) : EmitsAs (emitIp4L4 n) cg (ip4Code cg.link n) := by
  have := netOffset_le cg.link
  unfold emitIp4L4 ip4Code ip4Guard
  refine (emitEthertype_emits cg _).guard (fun c => ?_)
  rw [get_bind, bind_run (checkByte_emits _ _ (by simp only [placed_link]; omega))]
  simp [patchesAt]

theorem emitIp6L4_emits (n : UInt8) : EmitsAs (emitIp6L4 n) cg (ip6Code cg.link n) := by
  have := netOffset_le cg.link
  unfold emitIp6L4 ip6Code
  refine (emitEthertype_emits cg _).guard (fun c => ?_)
  rw [get_bind, bind_run (checkByte_emits _ _ (by simp only [placed_link]; omega))]
  simp [patchesAt]

end Guards

section Dual

variable (cg : Codegen) (c₀ : Code) (i j ja : Insn) (c d : Code)

/-- The first jump of a branch, resolved where its second piece will start. -/
theorem resolve_branch_first (hc : c.length ≤ 32766) {q t : Nat}
    (hq : q = cg.insns.length + c₀.length)
    (ht : t = cg.insns.length + (c₀.length + (c.length + 2))) :
    resolve ((), q) t (placed cg (c₀ ++ ([.op i] ++ (c ++ [.op ja])))) =
      .ok ((), placed cg (c₀ ++ Frag.skipping i () (c ++ [.op ja]))) := by
  refine resolve_skipping cg c₀ i (c ++ [.op ja]) ?_ hq ?_
  · simp only [List.length_append, List.length_singleton]
    omega
  · simp only [ht, List.length_append, List.length_singleton]
    omega

/-- The jump between the pieces, resolved behind the second one. -/
theorem resolve_branch_second (hd : d.length ≤ 32767) {q t : Nat}
    (hq : q = cg.insns.length + (c₀.length + (c.length + 1)))
    (ht : t = cg.insns.length + (c₀.length + (c.length + d.length + 2))) :
    resolve ((), q) t (placed cg (c₀ ++ Frag.skipping i () (c ++ [.op ja]) ++ d)) =
      .ok ((), placed cg (c₀ ++ Frag.branch i ja () c d)) := by
  have hc : c₀ ++ Frag.skipping i () (c ++ [.op ja]) ++ d =
      (c₀ ++ ⟨i, some ((), .skip (c.length + 1))⟩ :: c) ++ ([.op ja] ++ d) := by
    simp [Frag.skipping]
  rw [hc, resolve_skipping cg _ ja d hd]
  · simp [Frag.branch, Frag.skipping]
  · simp only [hq, List.length_append, List.length_cons]
  · simp only [ht, List.length_append, List.length_cons]
    omega

end Dual

@[simp] theorem slots_branch_code (x : Exit) (n : Nat) (i ja : Insn) (c d : Code) :
    Frag.slots x n (Frag.branch i ja () c d) =
      Frag.slots x (n + 1) c ++ Frag.slots x (n + 1 + c.length + 1) d :=
  Frag.slots_branch x n i ja () c d

@[simp] theorem slots_skipping_code (x : Exit) (n : Nat) (i : Insn) (c : Code) :
    Frag.slots x n (Frag.skipping i () c) = Frag.slots x (n + 1) c := rfl

theorem emitDualL4_emits (cg : Codegen) (n : UInt8) :
    EmitsAs (emitDualL4 n) cg (dualL4Code cg.link n) := by
  have hnet := netOffset_le cg.link
  cases ho : cg.link.etherProtoOffset with
  | none =>
    have hrun : emitDualL4 n cg = emitIp4L4 n cg := by
      show (get >>= _ : Gen Patches) cg = _
      rw [get_bind, ho]
    simp only [dualL4Code, ho]
    exact (emitIp4L4_emits cg n).congr hrun
  | some off =>
    simp only [dualL4Code, ho]
    show (get >>= _ : Gen Patches) cg = _
    rw [get_bind, ho]
    have hle := etherProtoOffset_le ho
    have h6 := checkCode_length .byte (cg.link.netOffset + 6) n.toUInt32
    have h4 := checkCode_length .byte (cg.link.netOffset + 9) n.toUInt32
    simp only
    rw [bind_run (emitLoadHalf_run cg (by omega)), bind_run (push_op _ _),
      bind_run (push_failing _ _), bind_run (checkByte_emits _ _ (by omega)),
      bind_run (push_op _ _), insnsLen_bind]
    simp only [placed_placed, List.append_assoc]
    rw [← List.append_assoc [failing _],
      bind_run (resolve_branch_first cg _ _ _ _ (by simp; omega) (by simp) (by simp)),
      bind_run (checkByte_emits _ _ (by omega)), insnsLen_bind]
    simp only [placed_placed]
    rw [bind_run (resolve_branch_second cg _ _ _ _ _ (by omega) (by simp)
      (by simp; omega))]
    simp only [dualCode, patchesAt, pure_run]
    simp [Nat.add_assoc]
    congr 1

theorem emitProto_emits (cg : Codegen) (p : Proto) :
    EmitsAs (emitProto p) cg (protoCode cg.link p) := by
  cases p with
  | ip => exact emitEthertype_emits cg _
  | ip6 => exact emitEthertype_emits cg _
  | arp => exact emitEthertype_emits cg _
  | rarp => exact emitEthertype_emits cg _
  | tcp => exact emitDualL4_emits cg _
  | udp => exact emitDualL4_emits cg _
  | sctp => exact emitDualL4_emits cg _
  | icmp => exact emitIp4L4_emits cg _
  | igmp => exact emitIp4L4_emits cg _
  | icmp6 => exact emitIp6L4_emits cg _
  | num n => exact emitIp4L4_emits cg _
  | ip6Proto n => exact emitIp6L4_emits cg _

section Directions

variable (cg : Codegen)

/-- An address test whose load is a piece of code that can only fail. -/
theorem checkAddr_emits {load : Nat → Gen (List Patch)} {code : Nat → Code} (k : Int32)
    (so dst : Nat) (dir : Dir) (hs : ∀ cg, Fails (load so) cg (code so))
    (hd : ∀ cg, Fails (load dst) cg (code dst)) :
    Emits (checkAddr load k so dst dir) cg (addrCode code k so dst dir) := by
  cases dir with
  | src =>
    obtain ⟨hr, hn⟩ := hs cg
    simp only [checkAddr, addrCode, Emits]
    rw [bind_run hr, bind_run (push_failing _ _)]
    simp [patchesAt, hn]
  | dst =>
    obtain ⟨hr, hn⟩ := hd cg
    simp only [checkAddr, addrCode, Emits]
    rw [bind_run hr, bind_run (push_failing _ _)]
    simp [patchesAt, hn]
  | srcAndDst =>
    obtain ⟨hr, hn⟩ := hs cg
    obtain ⟨hr', hn'⟩ := hd (placed (placed cg (code so)) [failing (.jneImm r4 k 0)])
    simp only [checkAddr, addrCode, Emits]
    rw [bind_run hr, bind_run (push_failing _ _), bind_run hr', bind_run (push_failing _ _)]
    simp [patchesAt, hn, hn', Nat.add_assoc, Nat.add_comm 1]
  | srcOrDst =>
    obtain ⟨hr, hn⟩ := hs cg
    obtain ⟨hr', hn'⟩ := hd (placed (placed cg (code so)) [leaving (.jeqImm r4 k 0)])
    simp only [checkAddr, addrCode, Emits]
    rw [bind_run hr, bind_run (push_leaving _ _), bind_run hr', bind_run (push_failing _ _)]
    simp [patchesAt, hn, hn', Nat.add_assoc, Nat.add_comm 1]

@[simp] theorem slots_alt_success (n : Nat) (ja : Insn) (c d : Code) :
    Frag.slots .success n (Frag.alt (Cell.hole ja ()) c d) =
      Frag.slots .success n c ++ ((), n + c.length) :: Frag.slots .success (n + c.length + 1) d := by
  rw [Frag.alt, Frag.slots_append, Frag.slots_resolve_other (by decide), Frag.resolve_length]
  rfl

@[simp] theorem slots_alt_failure (n : Nat) (ja : Insn) (c d : Code) :
    Frag.slots .failure n (Frag.alt (Cell.hole ja ()) c d) =
      Frag.slots .failure (n + c.length + 1) d := by
  rw [Frag.alt, Frag.slots_append, Frag.slots_resolve_self, Frag.resolve_length]
  rfl

theorem checkBoth_emits {check : Nat → Gen (List Patch)} {code : Nat → Code}
    {src dst first second : Nat} (dir : Dir)
    (hb : src ≤ 100 ∧ dst ≤ 100 ∧ first ≤ 100 ∧ second ≤ 100)
    (h : ∀ off ≤ 100, ∀ cg, Fails (check off) cg (code off)) (hl : (code first).length ≤ 32767) :
    Emits (checkBoth check src dst first second dir) cg (bothCode code src dst first second dir) := by
  cases dir with
  | src =>
    obtain ⟨hr, hn⟩ := h src hb.1 cg
    simp only [checkBoth, bothCode, Emits]
    rw [bind_run hr]
    simp [patchesAt, hn]
  | dst =>
    obtain ⟨hr, hn⟩ := h dst hb.2.1 cg
    simp only [checkBoth, bothCode, Emits]
    rw [bind_run hr]
    simp [patchesAt, hn]
  | srcAndDst =>
    obtain ⟨hr, hn⟩ := h first hb.2.2.1 cg
    obtain ⟨hr', hn'⟩ := h second hb.2.2.2 (placed cg (code first))
    simp only [checkBoth, bothCode, Emits]
    rw [bind_run hr, bind_run hr']
    simp [patchesAt, hn, hn']
  | srcOrDst =>
    obtain ⟨hr, hn⟩ := h first hb.2.2.1 cg
    obtain ⟨hr', hn'⟩ := h second hb.2.2.2
      (placed cg (Frag.resolve .failure 1 (code first) ++ [leaving (.ja 0)]))
    simp only [checkBoth, bothCode, Emits]
    rw [bind_run hr, bind_run (push_op _ _), insnsLen_bind]
    simp only [placed_placed]
    rw [bind_run (resolveAll_alt cg _ _ hl (by simp)), bind_run hr']
    have hd : Frag.resolve .failure 1 (code first) ++ [leaving (.ja 0)] ++ code second =
        Frag.alt (Cell.hole (.ja 0) ()) (code first) (code second) := by
      simp [Frag.alt, leaving]
    simp only [placed_placed, hd, pure_run]
    simp [patchesAt, hn, hn', Nat.add_assoc]

end Directions

/-- A guard and a test in one of the directions. -/
theorem EmitsAs.extend {m : Gen Patches} {cg : Codegen} {r : Except Error Code} {d : Code}
    {q : Codegen → Gen Patches} {k : Patches → Gen Patches} (h : EmitsAs m cg r)
    (hq : ∀ cg', cg'.link = cg.link → Emits (q cg') cg' d)
    (hk : ∀ p cg', k p cg' = (q cg' >>= fun q => pure (p.extend q)) cg') :
    EmitsAs (m >>= k) cg (r.map (· ++ d)) := by
  refine h.guard (fun c => ?_)
  rw [hk, bind_run (hq (placed cg c) rfl)]
  simp [patchesAt, Patches.extend]

section Addresses

variable (cg : Codegen)

theorem loadWord_fails {off : Nat} (h : off + 4 < 2 ^ 32) :
    Fails (do return [← emitLoadWord off]) cg (loadCode .word off) := by
  refine ⟨?_, fun n => by simp⟩
  show (emitLoadWord off >>= _) cg = _
  rw [bind_run (emitLoadWord_run cg h)]
  simp

theorem emitHost4_emits (a : Ipv4Addr) (dir : Dir) :
    EmitsAs (emitHost4 a dir) cg (leafCode cg.link (.host (.v4 a) dir)) := by
  have hnet := netOffset_le cg.link
  refine (emitEthertype_emits cg 0x0800).extend
    (q := fun cg' => checkAddr4 a.toInt32 (cg'.link.netOffset + 12) (cg'.link.netOffset + 16) dir)
    (fun cg' hl => ?_) (fun p cg' => rfl)
  simp only [hl]
  exact checkAddr_emits cg' _ _ _ dir (fun cg => loadWord_fails cg (by omega))
    (fun cg => loadWord_fails cg (by omega))

theorem checkSegs_fails {off : Nat} (segs : List UInt16) (i : Nat)
    (h : off + (i + segs.length) * 2 < 2 ^ 31) :
    Fails (checkSegs off i segs) cg (segsCode off i segs) := by
  induction segs generalizing cg i with
  | nil => exact ⟨by simp [checkSegs, segsCode], by simp [segsCode]⟩
  | cons seg segs ih =>
    simp only [List.length_cons] at h
    have hhead := @checkHalf_emits cg (off + i * 2) seg.toUInt32 (by omega)
    obtain ⟨hr, hn⟩ := ih (placed cg (checkCode .half (off + i * 2) seg.toUInt32)) (i + 1)
      (by omega)
    refine ⟨?_, fun n => by simp [segsCode, hn]⟩
    rw [checkSegs, bind_run hhead, bind_run hr]
    simp [segsCode, patchesAt]

theorem segsCode_length (off i : Nat) (segs : List UInt16) :
    (segsCode off i segs).length ≤ 6 * segs.length := by
  induction segs generalizing i with
  | nil => simp [segsCode]
  | cons seg segs ih =>
    have := ih (i + 1)
    have := checkCode_length .half (off + i * 2) seg.toUInt32
    simp only [segsCode, List.length_append, List.length_cons]
    omega

theorem emitHost6_emits (a : Ipv6Addr) (dir : Dir) :
    EmitsAs (emitHost6 a dir) cg (leafCode cg.link (.host (.v6 a) dir)) := by
  have hnet := netOffset_le cg.link
  refine (emitEthertype_emits cg 0x86dd).extend
    (q := fun cg' => checkBoth (checkIp6 a) (cg'.link.netOffset + 8) (cg'.link.netOffset + 24)
      (cg'.link.netOffset + 8) (cg'.link.netOffset + 24) dir)
    (fun cg' hl => ?_) (fun p cg' => rfl)
  simp only [hl]
  have hsegs := segsCode_length (cg.link.netOffset + 8) 0 a.segments.toList
  have hlen : a.segments.toList.length = 8 := by simp
  refine checkBoth_emits cg' dir (by omega) (fun off ho cg => ?_) (by omega)
  exact checkSegs_fails cg _ 0 (by omega)

theorem net6Segs_fails {prefixLen off : Nat} (segs : List UInt16) (i : Nat)
    (h : off + (i + segs.length) * 2 < 2 ^ 31) :
    Fails (checkNet6Segs prefixLen off i segs) cg (net6SegsCode prefixLen off i segs) := by
  induction segs generalizing cg i with
  | nil => exact ⟨by simp [checkNet6Segs, net6SegsCode], by simp [net6SegsCode]⟩
  | cons seg segs ih =>
    simp only [List.length_cons] at h
    have ih' := fun cg => ih cg (i + 1) (by omega)
    simp only [checkNet6Segs, net6SegsCode]
    by_cases hp : i * 16 ≥ prefixLen
    · simp only [hp, if_true]
      exact ⟨by simp, by simp⟩
    · simp only [hp, if_false]
      have hload := @emitLoadHalf_run cg (off + i * 2) (by omega)
      by_cases he : i * 16 + 16 ≤ prefixLen
      · simp only [he, if_true]
        refine ⟨?_, fun n => by simp [(ih' cg).2]⟩
        rw [bind_run hload, bind_run (push_failing _ _), bind_run (ih' _).1]
        simp [Nat.add_assoc]
      · simp only [he, if_false]
        refine ⟨?_, fun n => by simp [(ih' cg).2]⟩
        rw [bind_run hload, bind_run (push_op _ _), bind_run (push_failing _ _),
          bind_run (ih' _).1]
        simp [ops, Nat.add_assoc]

theorem net6SegsCode_length (prefixLen off i : Nat) (segs : List UInt16) :
    (net6SegsCode prefixLen off i segs).length ≤ 7 * segs.length := by
  induction segs generalizing i with
  | nil => simp [net6SegsCode]
  | cons seg segs ih =>
    have hrest := ih (i + 1)
    have hload := loadCode_length .half (off + i * 2)
    simp only [net6SegsCode]
    split
    · simp
    · split
      · simp only [List.length_append, List.length_cons, List.length_nil]
        omega
      · simp only [List.length_append, List.length_cons, List.length_nil, ops_length]
        omega

theorem emitNet_emits (net : IpNet) (dir : Dir) :
    EmitsAs (emitNet net dir) cg (leafCode cg.link (.net net dir)) := by
  have hnet := netOffset_le cg.link
  refine (emitEthertype_emits cg 0x0800).extend
    (q := fun cg' => checkAddr (fun off => do
      let bc ← emitLoadWord off
      pushAll [.and32Imm r4 net.mask.toInt32]
      return [bc]) (net.addr &&& net.mask).toInt32 (cg'.link.netOffset + 12)
        (cg'.link.netOffset + 16) dir)
    (fun cg' hl => ?_) (fun p cg' => rfl)
  simp only [hl]
  have hload : ∀ off ≤ 100, ∀ cg, Fails (do
      let bc ← emitLoadWord off
      pushAll [.and32Imm r4 net.mask.toInt32]
      return [bc]) cg (loadCode .word off ++ ops [.and32Imm r4 net.mask.toInt32]) := by
    intro off ho cg
    refine ⟨?_, fun n => by simp⟩
    rw [bind_run (emitLoadWord_run cg (by omega)), bind_run (pushAll_run _ _)]
    simp
  exact checkAddr_emits cg' _ _ _ dir (hload _ (by omega)) (hload _ (by omega))

theorem emitNet6_emits (net : Ipv6Net) (dir : Dir) :
    EmitsAs (emitNet6 net dir) cg (leafCode cg.link (.net6 net dir)) := by
  have hnet := netOffset_le cg.link
  refine (emitEthertype_emits cg 0x86dd).extend
    (q := fun cg' => checkBoth (checkNet6 net) (cg'.link.netOffset + 8) (cg'.link.netOffset + 24)
      (cg'.link.netOffset + 8) (cg'.link.netOffset + 24) dir)
    (fun cg' hl => ?_) (fun p cg' => rfl)
  simp only [hl]
  have hsegs := net6SegsCode_length net.prefixLen.toNat (cg.link.netOffset + 8) 0
    net.addr.segments.toList
  have hlen : net.addr.segments.toList.length = 8 := by simp
  refine checkBoth_emits cg' dir (by omega) (fun off ho cg => ?_) (by omega)
  exact net6Segs_fails cg _ 0 (by omega)

theorem checkMac_fails (addr : MacAddr) {off : Nat} (h : off ≤ 100) :
    Fails (checkMac addr off) cg (macCode addr off) := by
  refine ⟨?_, fun n => by simp [macCode]⟩
  simp only [checkMac]
  rw [bind_run (checkWord_emits cg _ (by omega)), bind_run (checkHalf_emits _ _ (by omega))]
  simp [macCode, patchesAt]

theorem macCode_length (addr : MacAddr) (off : Nat) : (macCode addr off).length ≤ 12 := by
  have h₁ := checkCode_length .word off
    (Vm.fromBe4 addr.octets[0]! addr.octets[1]! addr.octets[2]! addr.octets[3]!)
  have h₂ := checkCode_length .half (off + 4)
    (Vm.fromBe4 0 0 addr.octets[4]! addr.octets[5]!)
  simp only [macCode, List.length_append]
  omega

theorem emitEtherHost_emits (addr : MacAddr) (dir : Dir) :
    EmitsAs (emitEtherHost addr dir) cg (leafCode cg.link (.etherHost addr dir)) := by
  simp only [leafCode, noRawIp]
  by_cases hl : cg.link = .rawIp
  · simp only [hl, if_true]
    show (get >>= _ : Gen Patches) cg = _
    rw [get_bind]
    simp [hl]
  · simp only [hl, if_false]
    have hm := macCode_length addr 0
    have he := @checkBoth_emits cg _ _ 6 0 0 6 dir (by omega)
      (fun off ho cg => checkMac_fails cg addr ho) (by omega)
    show (get >>= _ : Gen Patches) cg = _
    rw [get_bind]
    simpa [hl, Emits] using he

theorem emitEtherMulticast_emits :
    EmitsAs emitEtherMulticast cg (leafCode cg.link .etherMulticast) := by
  simp only [leafCode, noRawIp]
  by_cases hl : cg.link = .rawIp
  · simp only [hl, if_true]
    show (get >>= _ : Gen Patches) cg = _
    rw [get_bind]
    simp [hl]
  · simp only [hl, if_false]
    show (get >>= _ : Gen Patches) cg = _
    rw [get_bind]
    simp only [hl, if_false]
    rw [bind_run (emitLoadByte_run cg (by omega)), bind_run (push_op _ _),
      bind_run (push_failing _ _), insnsLen_bind]
    simp only [placed_placed, List.append_assoc]
    rw [bind_run (resolve_skipping cg _ _ _ (by simp) (by simp) (by simp))]
    simp [patchesAt, Nat.add_assoc]

end Addresses

section Fields

variable (cg : Codegen)

theorem emitIpBroadcast_emits : EmitsAs emitIpBroadcast cg (leafCode cg.link .ipBroadcast) := by
  have hnet := netOffset_le cg.link
  refine (emitEthertype_emits cg 0x0800).guard (fun c => ?_)
  rw [get_bind]
  simp only [placed_link]
  rw [bind_run (checkWord_emits _ _ (by omega))]
  simp [patchesAt]

theorem emitIp6Multicast_emits : EmitsAs emitIp6Multicast cg (leafCode cg.link .ip6Multicast) := by
  have hnet := netOffset_le cg.link
  refine (emitEthertype_emits cg 0x86dd).guard (fun c => ?_)
  rw [get_bind]
  simp only [placed_link]
  rw [bind_run (checkByte_emits _ _ (by omega))]
  simp [patchesAt]

theorem emitIpMulticast_emits : EmitsAs emitIpMulticast cg (leafCode cg.link .ipMulticast) := by
  have hnet := netOffset_le cg.link
  refine (emitEthertype_emits cg 0x0800).guard (fun c => ?_)
  rw [get_bind]
  simp only [placed_link]
  rw [bind_run (emitLoadWord_run _ (by omega)), bind_run (push_op _ _),
    bind_run (push_failing _ _)]
  simp [patchesAt, ops, Nat.add_assoc]

theorem emitVlan_emits (id : Option UInt16) :
    EmitsAs (emitVlan id) cg (leafCode cg.link (.vlan id)) := by
  cases id with
  | none =>
    refine (emitEthertype_emits cg 0x8100).congr ?_
    show (emitEthertype 0x8100 >>= pure) cg = _
    rw [bind_pure]
  | some vid =>
    have hoff : cg.link.etherProtoOffset.getD 14 ≤ 14 := by
      cases ho : cg.link.etherProtoOffset with
      | none => exact Nat.le_refl _
      | some off => exact etherProtoOffset_le ho
    refine (emitEthertype_emits cg 0x8100).guard (fun c => ?_)
    simp only []
    rw [get_bind]
    simp only [placed_link]
    rw [bind_run (emitLoadHalf_run _ (by omega)), bind_run (push_op _ _),
      bind_run (push_failing _ _)]
    simp [patchesAt, ops, Nat.add_assoc]

theorem emitPppoeSession_emits (id : Option UInt16) :
    EmitsAs (emitPppoeSession id) cg (leafCode cg.link (.pppoeSession id)) := by
  cases id with
  | none =>
    refine (emitEthertype_emits cg 0x8864).congr ?_
    show (emitEthertype 0x8864 >>= pure) cg = _
    rw [bind_pure]
  | some sid =>
    have hoff : cg.link.etherProtoOffset.getD 12 ≤ 14 := by
      cases ho : cg.link.etherProtoOffset with
      | none => exact (by decide : (12 : Nat) ≤ 14)
      | some off => exact etherProtoOffset_le ho
    refine (emitEthertype_emits cg 0x8864).guard (fun c => ?_)
    simp only []
    rw [get_bind]
    simp only [placed_link]
    rw [bind_run (emitLoadHalf_run _ (by omega)), bind_run (push_failing _ _)]
    simp [patchesAt, Nat.add_assoc]

theorem emitMpls_emits (label : Option UInt32) :
    EmitsAs (emitMpls label) cg (leafCode cg.link (.mpls label)) := by
  cases ho : cg.link.etherProtoOffset with
  | none =>
    simp only [leafCode, ho]
    show (get >>= _ : Gen Patches) cg = _
    rw [get_bind, ho]
    rfl
  | some off =>
    have hle := etherProtoOffset_le ho
    have hguard : ∀ k : Patch → Nat → Gen Patches, (do
        let bc ← emitLoadHalf off
        let eqUni ← push (.jeqImm r4 0x8847 0)
        let cmpMc ← push (.jneImm r4 0x8848 0)
        let afterEt ← insnsLen
        resolve ((), eqUni) afterEt
        k bc cmpMc) cg =
        k ((), cg.insns.length + 2) (cg.insns.length + (loadCode .half off).length + 1)
          (placed cg (mplsGuardCode off)) := by
      intro k
      rw [bind_run (emitLoadHalf_run cg (by omega)), bind_run (push_op _ _),
        bind_run (push_failing _ _), insnsLen_bind]
      simp only [placed_placed, List.append_assoc]
      rw [bind_run (resolve_skipping cg _ _ _ (by simp) (by simp) (by simp))]
      simp [mplsGuardCode, Nat.add_assoc]
    cases label with
    | none =>
      simp only [leafCode, ho]
      show (get >>= _ : Gen Patches) cg = _
      rw [get_bind, ho]
      refine (hguard _).trans ?_
      simp [patchesAt, mplsGuardCode]
    | some lbl =>
      simp only [leafCode, ho]
      show (get >>= _ : Gen Patches) cg = _
      rw [get_bind, ho]
      refine (hguard _).trans ?_
      simp only []
      rw [bind_run (emitLoadWord_run _ (by omega)), bind_run (push_op _ _),
        bind_run (push_failing _ _)]
      simp [patchesAt, mplsGuardCode, ops, Nat.add_assoc]

theorem emitCmp_emits (op : CmpOp) (value : UInt32) : Emits (emitCmp op value) cg (cmpCode op value) := by
  have hjump : ∀ i : Insn, (push i >>= fun idx => pure ⟨[], [((), idx)]⟩ : Gen Patches) cg =
      .ok (patchesAt cg.insns.length [failing i], placed cg [failing i]) := by
    intro i
    rw [bind_run (push_failing _ _)]
    simp [patchesAt]
  cases op with
  | eq => exact hjump _
  | ne => exact hjump _
  | lt => exact hjump _
  | le => exact hjump _
  | gt => exact hjump _
  | ge => exact hjump _
  | bitAnd =>
    simp only [Emits, emitCmp, cmpCode]
    rw [bind_run (push_op _ _), bind_run (push_failing _ _), insnsLen_bind]
    simp only [placed_placed]
    have hs := resolve_skipping cg [] (.jsetImm r4 value.toInt32 0) [failing (.ja 0)] (by simp)
      (q := cg.insns.length) (t := cg.insns.length + 2) (by simp) (by simp)
    simp only [List.nil_append] at hs
    rw [bind_run (by simpa using hs)]
    simp [patchesAt]

theorem emitLen_emits (op : CmpOp) (value : UInt32) :
    Emits (emitLen op value) cg
      (ops [.mov64Reg r4 r3, .sub64Reg r4 r2] ++ cmpCode op value) := by
  unfold Emits emitLen
  rw [bind_run (pushAll_run _ _), emitCmp_emits]
  simp [patchesAt]

end Fields

section Ports

variable (cg : Codegen)

/-- `m` puts code that can only fail behind what is there, or fails as it says. -/
def FailsAs (m : Gen (List Patch)) (cg : Codegen) : Except Error Code → Prop
  | .error e => m cg = .error e
  | .ok c => Fails m cg c

theorem emitL4ProtoCheck_fails {off : Nat} (proto : Option Proto) (h : off + 1 < 2 ^ 32) :
    FailsAs (emitL4ProtoCheck off proto) cg (l4ProtoCode off proto) := by
  have hcheck : ∀ k : UInt32, Fails (do return (← checkByte off k).failure) cg
      (checkCode .byte off k) := by
    intro k
    refine ⟨?_, fun n => by simp⟩
    rw [bind_run (checkByte_emits cg k h)]
    rfl
  cases proto with
  | none =>
    refine ⟨?_, fun n => by simp⟩
    simp only [emitL4ProtoCheck]
    rw [bind_run (emitLoadByte_run cg h), bind_run (push_op _ _), bind_run (push_failing _ _),
      insnsLen_bind]
    simp only [placed_placed, List.append_assoc]
    rw [bind_run (resolve_skipping cg _ _ _ (by simp) (by simp) (by simp))]
    simp [Nat.add_assoc]
  | some pr =>
    cases pr with
    | tcp => exact hcheck 6
    | udp => exact hcheck 17
    | sctp => exact hcheck 132
    | _ => rfl

theorem l4ProtoCode_length {off : Nat} {proto : Option Proto} {c : Code}
    (h : l4ProtoCode off proto = .ok c) : c.length ≤ 7 := by
  have hcheck : ∀ k : UInt32, (checkCode .byte off k).length ≤ 7 := fun k =>
    (checkCode_length .byte off k).trans (by omega)
  have hload := loadCode_length .byte off
  cases proto with
  | none =>
    cases h
    simp only [List.length_append, Frag.skipping_length, List.length_singleton]
    omega
  | some pr =>
    cases pr with
    | tcp => cases h; exact hcheck 6
    | udp => cases h; exact hcheck 17
    | sctp => cases h; exact hcheck 132
    | _ => cases h

theorem checkR6_run (size : Int32) :
    checkR6 size cg = .ok (((), cg.insns.length + 2), placed cg (r6Code size)) := by
  unfold checkR6
  rw [bind_run (pushAll_run _ _), bind_run (push_failing _ _)]
  simp [r6Code]

theorem emitPortPrereqsIpv4Only_emits (proto : Option Proto)
    (ho : cg.link.etherProtoOffset = none) :
    EmitsAs (emitPortPrereqsIpv4Only proto) cg (portPrereqsCode cg.link proto) := by
  have hnet := netOffset_le cg.link
  have hg : Emits ip4Guard cg [] := by
    have := emitEthertype_emits cg 0x0800
    simpa [etherCode, ho, EmitsAs, ip4Guard] using this
  have hl4 := @emitL4ProtoCheck_fails cg (cg.link.netOffset + 9) proto (by omega)
  simp only [portPrereqsCode, ho, etherCode, if_true]
  cases hc : l4ProtoCode (cg.link.netOffset + 9) proto with
  | error e =>
    rw [hc] at hl4
    show emitPortPrereqsIpv4Only proto cg = _
    rw [emitPortPrereqsIpv4Only, bind_run hg, placed_nil, get_bind, bind_error hl4]
  | ok c =>
    rw [hc] at hl4
    show emitPortPrereqsIpv4Only proto cg = _
    rw [emitPortPrereqsIpv4Only, bind_run hg, placed_nil, get_bind, bind_run hl4.1,
      bind_run (emitLoadByte_run _ (by omega)), bind_run (pushAll_run _ _),
      bind_run (checkR6_run _ _)]
    simp [patchesAt, transportCode, hl4.2, Nat.add_assoc]

theorem emitPortPrereqs_emits (proto : Option Proto) :
    EmitsAs (emitPortPrereqs proto) cg (portPrereqsCode cg.link proto) := by
  have hnet := netOffset_le cg.link
  cases ho : cg.link.etherProtoOffset with
  | none =>
    refine (emitPortPrereqsIpv4Only_emits cg proto ho).congr ?_
    show (get >>= _ : Gen Patches) cg = _
    rw [get_bind, ho]
  | some off =>
    have hle := etherProtoOffset_le ho
    simp only [portPrereqsCode, ho]
    cases h6 : l4ProtoCode (cg.link.netOffset + 6) proto with
    | error e =>
      show (get >>= _ : Gen Patches) cg = _
      rw [get_bind, ho]
      simp only []
      rw [bind_run (emitLoadHalf_run cg (by omega)), bind_run (push_op _ _),
        bind_run (push_failing _ _)]
      have hf := @emitL4ProtoCheck_fails
        (placed (placed (placed cg (loadCode .half off)) [.op (.jeqImm r4 0x0800 0)])
          [failing (.jneImm r4 0x86dd 0)]) (cg.link.netOffset + 6) proto (by omega)
      rw [h6] at hf
      rw [bind_error hf]
    | ok c6 =>
      cases h4 : l4ProtoCode (cg.link.netOffset + 9) proto with
      | error e =>
        exfalso
        rcases proto with _ | _ | _ | _ | _ | _ | _ | _ | _ | _ | _ | _ | _ <;> cases h4 <;> cases h6
      | ok c4 =>
        have l6 := l4ProtoCode_length h6
        have l4 := l4ProtoCode_length h4
        have hl := loadCode_length .byte cg.link.netOffset
        have f6 : ∀ cg, Fails (emitL4ProtoCheck _ proto) cg c6 := fun cg =>
          h6 ▸ emitL4ProtoCheck_fails cg proto (by omega)
        have f4 : ∀ cg, Fails (emitL4ProtoCheck _ proto) cg c4 := fun cg =>
          h4 ▸ emitL4ProtoCheck_fails cg proto (by omega)
        show (get >>= _ : Gen Patches) cg = _
        rw [get_bind, ho]
        simp only []
        rw [bind_run (emitLoadHalf_run cg (by omega)), bind_run (push_op _ _),
          bind_run (push_failing _ _), bind_run (f6 _).1, bind_run (pushAll_run _ _),
          bind_run (checkR6_run _ _), bind_run (push_op _ _), insnsLen_bind]
        have hone : loadCode .half off ++ [.op (.jeqImm r4 0x0800 0)] ++
            [failing (.jneImm r4 0x86dd 0)] ++ c6 ++
            ops [.mov64Reg r6 r2, .add64Imm r6 (.ofNat (cg.link.netOffset + 40))] ++ r6Code 4 ++
            [.op (.ja 0)] = loadCode .half off ++ ([.op (.jeqImm r4 0x0800 0)] ++
              (([failing (.jneImm r4 0x86dd 0)] ++ (c6 ++
                ops [.mov64Reg r6 r2, .add64Imm r6 (.ofNat (cg.link.netOffset + 40))] ++
                r6Code 4)) ++ [.op (.ja 0)])) := by
          simp
        have hr6 : (r6Code 4).length = 3 := rfl
        simp only [placed_placed]
        rw [hone, bind_run (resolve_branch_first cg _ _ _ _ (by simp; omega) (by simp)
          (by simp; omega)), bind_run (f4 _).1, bind_run (emitLoadByte_run _ (by omega)),
          bind_run (pushAll_run _ _), bind_run (checkR6_run _ _), insnsLen_bind]
        have htwo : ∀ x : Code, x ++ c4 ++ loadCode .byte cg.link.netOffset ++
            ops (transportPointer cg.link.netOffset) ++ r6Code 4 =
              x ++ (c4 ++ transportCode cg.link.netOffset ++ r6Code 4) := by
          simp [transportCode]
        simp only [placed_placed, htwo]
        rw [bind_run (resolve_branch_second cg _ _ _ _ _ ?_ ?_ ?_)]
        · simp only [patchesAt, pure_run, dualCode]
          simp [(f6 cg).2, (f4 cg).2, Nat.add_assoc]
          refine ⟨by simp [transportCode], by omega,
            congrArg₂ (· ++ ·) (congrArg (Frag.slots .failure · c4) (by omega)) ?_⟩
          simp only [transportCode, slots_append_code, slots_loadCode, slots_ops,
            List.length_append, ops_length, List.append_nil, List.singleton_append,
            List.cons.injEq, Prod.mk.injEq, true_and, and_true]
          omega
        · simp [transportCode, transportPointer]
          omega
        · simp
        · simp
          omega

theorem portLoad_fails (off : Nat) :
    Fails (do pushAll (ldxHBe r4 r6 (.ofNat off)); return []) cg (portLoad off) := by
  refine ⟨?_, fun n => by simp [portLoad]⟩
  rw [bind_run (pushAll_run _ _)]
  simp [portLoad]

theorem emitPort_emits (port : UInt16) (dir : Dir) (proto : Option Proto) :
    EmitsAs (emitPort port dir proto) cg (leafCode cg.link (.port port dir proto)) :=
  (emitPortPrereqs_emits cg proto).extend
    (fun cg' _ => checkAddr_emits cg' _ _ _ dir (fun cg => portLoad_fails cg 0)
      (fun cg => portLoad_fails cg 2)) (fun _ _ => rfl)

theorem emitPortrange_emits (lo hi : UInt16) (dir : Dir) (proto : Option Proto) :
    EmitsAs (emitPortrange lo hi dir proto) cg (leafCode cg.link (.portRange lo hi dir proto)) := by
  refine (emitPortPrereqs_emits cg proto).extend
    (fun cg' _ => checkBoth_emits cg' dir (by omega) (fun off _ cg => ?_) ?_) (fun _ _ => rfl)
  · refine ⟨?_, fun n => by simp [rangeCode, portLoad]⟩
    rw [bind_run (pushAll_run _ _), bind_run (push_failing _ _), bind_run (push_failing _ _)]
    simp [rangeCode, portLoad, Nat.add_assoc]
  · simp [rangeCode, portLoad, ldxHBe]

end Ports

section ByteAccess

variable (cg : Codegen)

theorem emitAluOps_run {alu : List (ArithOp × UInt32)} {is : List Insn}
    (h : aluCode alu = .ok is) : emitAluOps alu cg = .ok ((), placed cg (ops is)) := by
  induction alu generalizing cg is with
  | nil =>
    cases h
    simp [emitAluOps, ops]
  | cons a alu ih =>
    obtain ⟨aop, operand⟩ := a
    cases hi : ebpfAlu32 aop r4 operand.toInt32 with
    | error e => simp [aluCode, hi] at h
    | ok i =>
      cases hr : aluCode alu with
      | error e => simp [aluCode, hi, hr] at h
      | ok rest =>
        have he : i :: rest = is := by
          simpa [aluCode, hi, hr] using h
        subst he
        show (liftM (ebpfAlu32 aop r4 operand.toInt32) >>= _ : Gen Unit) cg = _
        rw [hi]
        show (push i >>= fun _ => emitAluOps alu) cg = _
        rw [bind_run (push_op _ _), ih _ hr]
        simp [ops]

theorem emitAluOps_error {alu : List (ArithOp × UInt32)} {e : Error}
    (h : aluCode alu = .error e) : emitAluOps alu cg = .error e := by
  induction alu generalizing cg with
  | nil => cases h
  | cons a alu ih =>
    obtain ⟨aop, operand⟩ := a
    show (liftM (ebpfAlu32 aop r4 operand.toInt32) >>= _ : Gen Unit) cg = _
    cases hi : ebpfAlu32 aop r4 operand.toInt32 with
    | error e' =>
      simp [aluCode, hi] at h
      rw [← h]
      rfl
    | ok i =>
      cases hr : aluCode alu with
      | ok rest => simp [aluCode, hi, hr] at h
      | error e' =>
        simp [aluCode, hi, hr] at h
        show (push i >>= fun _ => emitAluOps alu) cg = _
        rw [bind_run (push_op _ _)]
        exact ih _ (by rw [hr, h])

/-- `m` puts the code behind what is there and returns its open slots in some order, or
fails as it says. -/
def Yields (m : Gen Patches) (cg : Codegen) : Except Error Code → Prop
  | .error e => m cg = .error e
  | .ok c => ∃ p, m cg = .ok (p, placed cg c) ∧
      (∀ q, q ∈ p.success ↔ q ∈ Frag.slots .success cg.insns.length c) ∧
      ∀ q, q ∈ p.failure ↔ q ∈ Frag.slots .failure cg.insns.length c

theorem EmitsAs.yields {m : Gen Patches} {cg : Codegen} {r : Except Error Code}
    (h : EmitsAs m cg r) : Yields m cg r := by
  cases r with
  | error e => exact h
  | ok c => exact ⟨_, h, fun _ => Iff.rfl, fun _ => Iff.rfl⟩

theorem addI32_run {a b : Int32} (h : a.toInt + b.toInt < 2 ^ 31) :
    addI32 a b cg = .ok (a + b, cg) := by
  unfold addI32
  rw [if_pos h]
  rfl

theorem bytes_toInt (size : AccessSize) :
    (Int32.ofNat (AccessSize.bytes size)).toInt = AccessSize.bytes size := by
  cases size <;> decide

theorem emitTransByteAccess_yields (ba : ByteAccess) (value : UInt32) (hr : ba.rhs = .const value)
    (hl : ba.layer = .trans) :
    Yields (emitTransByteAccess ba value) cg (byteAccessCode cg.link ba) := by
  have hnet := netOffset_le cg.link
  simp only [byteAccessCode, hr, hl, if_true]
  by_cases ho : ba.offset.toInt + AccessSize.bytes ba.size < 2 ^ 31
  · simp only [ho, if_true]
    have hpre : ∀ k : Patch → Patch → Gen Patches, (do
        let netOff := (← get).link.netOffset
        let bcIhl ← emitLoadByte netOff
        pushAll (transportPointer netOff)
        let endOff ← addI32 ba.offset (.ofNat (AccessSize.bytes ba.size))
        let bcTrans ← checkR6 endOff
        pushAll (ldxBe ba.size r4 r6 ba.offset.toInt16)
        k bcIhl bcTrans : Gen Patches) cg = k ((), cg.insns.length + 2)
          ((), cg.insns.length + (transportCode cg.link.netOffset).length + 2)
          (placed cg (transportCode cg.link.netOffset ++
            r6Code (ba.offset + .ofNat (AccessSize.bytes ba.size)) ++
            ops (ldxBe ba.size r4 r6 ba.offset.toInt16))) := by
      intro k
      rw [get_bind, bind_run (emitLoadByte_run cg (by omega)), bind_run (pushAll_run _ _),
        bind_run (addI32_run _ (by rw [bytes_toInt]; exact ho)), bind_run (checkR6_run _ _),
        bind_run (pushAll_run _ _)]
      simp [transportCode, Nat.add_assoc]
    have hrun := hpre (fun bcIhl bcTrans => do
      emitAluOps ba.aluOps
      let p ← emitCmp ba.op value
      return ⟨p.success, p.failure ++ [bcIhl, bcTrans]⟩)
    cases ha : aluCode ba.aluOps with
    | error e =>
      refine Eq.trans hrun ?_
      rw [bind_error (emitAluOps_error _ ha)]
    | ok alu =>
      rw [bind_run (emitAluOps_run _ ha), bind_run (emitCmp_emits _ _ _), pure_run] at hrun
      simp only [placed_placed] at hrun
      refine ⟨_, hrun, ?_, ?_⟩
      · intro q
        simp [patchesAt, transportCode, Nat.add_assoc]
      · intro q
        simp only [patchesAt, slots_append_code, transportCode, slots_loadCode, slots_ops,
          slots_r6Code, List.mem_append, List.mem_cons, List.not_mem_nil, or_false,
          placed_length, List.append_nil, List.length_append, Nat.add_assoc]
        constructor
        · rintro (h | h | h)
          · exact .inr h
          · exact .inl (.inl h)
          · exact .inl (.inr h)
        · rintro ((h | h) | h)
          · exact .inr (.inl h)
          · exact .inr (.inr h)
          · exact .inl h
  · simp only [ho, if_false]
    show emitTransByteAccess ba value cg = _
    unfold emitTransByteAccess
    rw [get_bind, bind_run (emitLoadByte_run cg (by omega)), bind_run (pushAll_run _ _)]
    refine bind_error ?_
    unfold addI32
    rw [bytes_toInt, if_neg ho]
    rfl

theorem emitLoadSize_run (size : AccessSize) {off : Nat}
    (h : off + AccessSize.bytes size < 2 ^ 32) :
    emitLoadSize size off cg =
      .ok (((), cg.insns.length + 2), placed cg (loadCode size off)) := by
  cases size with
  | byte => exact emitLoad_run cg .byte h
  | half => exact emitLoad_run cg .half h
  | word => exact emitLoad_run cg .word h

theorem emitLoadSize_error (size : AccessSize) {off : Nat}
    (h : ¬off + AccessSize.bytes size < 2 ^ 32) :
    emitLoadSize size off cg = .error overflow := by
  cases size with
  | byte => exact emitLoad_error cg .byte h
  | half => exact emitLoad_error cg .half h
  | word => exact emitLoad_error cg .word h

/-- The part of a byte access behind the layer, for a fixed base. -/
theorem rawAccess_emits (ba : ByteAccess) (value : UInt32) (base : Nat) {m : Gen Patches}
    (hm : m cg = (do
      let off ← addU32 base ba.offset.toUInt32.toNat
      let bc ← emitLoadSize ba.size off
      emitAluOps ba.aluOps
      let p ← emitCmp ba.op value
      return ⟨p.success, bc :: p.failure⟩ : Gen Patches) cg) :
    EmitsAs m cg
      (if base + ba.offset.toUInt32.toNat + AccessSize.bytes ba.size < 2 ^ 32 then do
        let alu ← aluCode ba.aluOps
        return loadCode ba.size (base + ba.offset.toUInt32.toNat) ++ ops alu ++
          cmpCode ba.op value
      else .error overflow) := by
  refine EmitsAs.congr ?_ hm
  by_cases ho : base + ba.offset.toUInt32.toNat + AccessSize.bytes ba.size < 2 ^ 32
  · rw [if_pos ho]
    cases ha : aluCode ba.aluOps with
    | error e =>
      show (addU32 _ _ >>= _ : Gen Patches) cg = _
      rw [bind_run (addU32_run (by omega)), bind_run (emitLoadSize_run cg ba.size ho),
        bind_error (emitAluOps_error _ ha)]
    | ok alu =>
      show (addU32 _ _ >>= _ : Gen Patches) cg = _
      rw [bind_run (addU32_run (by omega)), bind_run (emitLoadSize_run cg ba.size ho),
        bind_run (emitAluOps_run _ ha), bind_run (emitCmp_emits _ _ _)]
      simp only [patchesAt, placed_placed, pure_run, List.append_assoc, slots_append_code,
        slots_loadCode, slots_loadCode_success, slots_ops, List.nil_append, List.singleton_append,
        placed_length, Nat.add_assoc, List.length_append]
  · rw [if_neg ho]
    show (addU32 _ _ >>= _ : Gen Patches) cg = _
    by_cases hb : base + ba.offset.toUInt32.toNat < 2 ^ 32
    · rw [bind_run (addU32_run hb), bind_error (emitLoadSize_error cg ba.size ho)]
    · rw [bind_error (addU32_error hb)]
      rfl

theorem emitByteAccess_yields (ba : ByteAccess) :
    Yields (emitByteAccess ba) cg (byteAccessCode cg.link ba) := by
  cases hr : ba.rhs with
  | load l =>
    simp only [byteAccessCode, hr]
    simp only [Yields, emitByteAccess, hr]
    rfl
  | const value =>
    cases hl : ba.layer with
    | trans =>
      have h := emitTransByteAccess_yields cg ba value hr hl
      have he : emitByteAccess ba = emitTransByteAccess ba value := by
        simp only [emitByteAccess, hr, hl]
      rw [he]
      exact h
    | raw =>
      refine EmitsAs.yields ?_
      have h := rawAccess_emits cg ba value 0 (m := emitByteAccess ba) (by
        simp only [emitByteAccess, hr, hl]
        rfl)
      simpa [byteAccessCode, hr, hl] using h
    | net =>
      refine EmitsAs.yields ?_
      have h := rawAccess_emits cg ba value cg.link.netOffset (m := emitByteAccess ba) (by
        simp only [emitByteAccess, hr, hl]
        rfl)
      simpa [byteAccessCode, hr, hl] using h

end ByteAccess

/-- Every primitive puts its code behind what is there, or fails as `leafCode` says. -/
theorem emitPrimitive_yields (cg : Codegen) (p : Primitive) :
    Yields (emitPrimitive p) cg (leafCode cg.link p) := by
  cases p with
  | proto p => exact (emitProto_emits cg p).yields
  | host addr dir =>
    cases addr with
    | v4 a => exact (emitHost4_emits cg a dir).yields
    | v6 a => exact (emitHost6_emits cg a dir).yields
  | net net dir => exact (emitNet_emits cg net dir).yields
  | net6 net dir => exact (emitNet6_emits cg net dir).yields
  | port port dir proto => exact (emitPort_emits cg port dir proto).yields
  | portRange lo hi dir proto => exact (emitPortrange_emits cg lo hi dir proto).yields
  | etherHost addr dir => exact (emitEtherHost_emits cg addr dir).yields
  | etherProto et => exact (emitEthertype_emits cg _).yields
  | etherMulticast => exact (emitEtherMulticast_emits cg).yields
  | ipBroadcast => exact (emitIpBroadcast_emits cg).yields
  | ipMulticast => exact (emitIpMulticast_emits cg).yields
  | ip6Multicast => exact (emitIp6Multicast_emits cg).yields
  | vlan id => exact (emitVlan_emits cg id).yields
  | mpls label => exact (emitMpls_emits cg label).yields
  | pppoeDiscovery => exact (emitEthertype_emits cg _).yields
  | pppoeSession id => exact (emitPppoeSession_emits cg id).yields
  | ipProtoChain n => exact (emitIp4L4_emits cg n).yields
  | ip6ProtoChain n => exact (emitIp6L4_emits cg n).yields
  | len op value => exact EmitsAs.yields (r := .ok _) (emitLen_emits cg op value)
  | byteAccess ba => exact emitByteAccess_yields cg ba
  | inbound => rfl
  | outbound => rfl

end PktBaffle.Proofs.Ebpf
