import PktBaffle.Proofs.Classic.Semantics
import PktBaffle.Proofs.Optimizer.Preserves

namespace PktBaffle.Proofs.Classic
open Bpf Forward PktBaffle.Classic PktBaffle.Optimizer PktBaffle.Proofs.Optimizer

/-- Left to right evaluation over accept, reject and abort. -/
def shortCircuit (v : Primitive → Tri) : Expr → Tri
  | .primitive p => v p
  | .and l r => (shortCircuit v l).and (shortCircuit v r)
  | .or l r => (shortCircuit v l).or (shortCircuit v r)
  | .not e => (shortCircuit v e).not

section Outcome

variable {mode : HoistMode} {e : Expr} {link : LinkType} {insns : List Insn} {pkt : Vm.Packet}

theorem sat_start (pkt : Vm.Packet) (link : LinkType) (tags : Tags) :
    Sat pkt link (Ctx.start link).facts tags .start := by
  intro check hk
  cases link with
  | rawIp =>
    cases check with
    | ethertype et => exact ⟨trivial, rfl⟩
    | _ => cases hk
  | _ => cases check <;> cases hk

theorem fits_value (hl : Links mode e link)
    (hf : FreshOn pkt mode e (.start link) .start) :
    ((Vm.machine pkt).cells.run (asm mode e (Ctx.start link)).1.code 0 .start).Fits
      (· = .packetLoad) (fun _ => True) (fun _ => True) (value pkt link mode e 0) := by
  have h := asm_fits e hl.1.leaves (start_ok link) (sat_start pkt link .start) hf
  have h' := forget_of_fits h
  rw [forget_run] at h'
  exact h'

/-- A compiled program ends as the value of its expression says, on every packet on whose path
no check is left out because of a fact of another depth. -/
theorem exec_compileWith (h : compileWith mode e link = .ok insns)
    (hj : JaFits (assembled mode e link)) (hf : FreshOn pkt mode e (.start link) .start) :
    Vm.exec insns pkt = ending (value pkt link mode e 0) := by
  obtain ⟨hl, rfl⟩ := compileWith_ok.mp h
  have hexec : Vm.exec (optimize (assembled mode e link)) pkt =
      (Vm.machine pkt).cells.run (program (asm mode e (Ctx.start link)).1.code) 0 .start :=
    (run_optimize (assembled_wellFormed hl) hj (vm_laws pkt) .start).trans
      (run_raw (vm_laws pkt) (assembled_linked hl) 0 .start)
  rw [hexec, run_program (fits_value hl hf)]

theorem inner_of_exec {t : Tri} (h : Vm.exec insns pkt = ending t) : Vm.inner insns pkt = t := by
  rw [Vm.inner, h]
  cases t <;> rfl

theorem inner_value (h : compileWith mode e link = .ok insns)
    (hj : JaFits (assembled mode e link)) (hf : FreshOn pkt mode e (.start link) .start) :
    Vm.inner insns pkt = value pkt link mode e 0 :=
  inner_of_exec (exec_compileWith h hj hf)

end Outcome

section Flat

variable {pkt : Vm.Packet} {link : LinkType} {mode : HoistMode}

theorem retag_zero {old new : Facts} : retag 0 old new .start = .start := by
  simp [retag, Tags.start]

theorem knownPrereqs_skips {want : L4Set} {off : Nat} {ready : Option L4Set}
    {known : Option UInt8} {check : UInt8 → Check} {tail : Code} {depth : Nat} :
    ∀ sk ∈ (knownPrereqs want off ready known check tail depth).1.skips, sk.depth = depth := by
  intro sk hsk
  unfold knownPrereqs at hsk
  split at hsk
  · simp only [List.mem_singleton] at hsk
    rw [hsk]
  · split at hsk
    · split at hsk
      · simp only [List.mem_singleton] at hsk
        rw [hsk]
      · exact absurd hsk List.not_mem_nil
    · exact absurd hsk List.not_mem_nil

theorem asmEthertype_skips (et : UInt32) (ctx : Ctx) :
    ∀ sk ∈ (asmEthertype et ctx).1.skips, sk.depth = ctx.vlanDepth := by
  intro sk hsk
  unfold asmEthertype at hsk
  split at hsk
  · split at hsk
    · rw [List.mem_singleton.mp hsk]
    · exact absurd hsk List.not_mem_nil
  · exact absurd hsk List.not_mem_nil

theorem append_skips {p q : Piece} {d : Nat} (hp : ∀ sk ∈ p.skips, sk.depth = d)
    (hq : ∀ sk ∈ q.skips, sk.depth = d) : ∀ sk ∈ (p.append q).skips, sk.depth = d := by
  intro sk hsk
  rcases List.mem_append.mp hsk with h | h
  · exact hp sk h
  · obtain ⟨sk', h', rfl⟩ := List.mem_map.mp h
    exact hq sk' h'

theorem skip_skips (check : Check) (d : Nat) : ∀ sk ∈ (Piece.skip check d).skips, sk.depth = d := by
  intro sk hsk
  rw [List.mem_singleton.mp hsk]

theorem asmPortPrereqs_skips (want : L4Set) (ctx : Ctx) :
    ∀ sk ∈ (asmPortPrereqs want ctx).1.skips, sk.depth = ctx.vlanDepth := by
  have version : ∀ et, ∀ sk ∈ (skipVersion et ctx).skips, sk.depth = ctx.vlanDepth := by
    intro et sk hsk
    unfold skipVersion at hsk
    split at hsk
    · exact skip_skips _ _ sk hsk
    · exact absurd hsk List.not_mem_nil
  have prologue : ∀ sk ∈ (asmPortPrologue want ctx).1.skips, sk.depth = ctx.vlanDepth := by
    unfold asmPortPrologue
    dsimp only
    split
    · exact append_skips (version _) knownPrereqs_skips
    · split
      · exact append_skips (version _) knownPrereqs_skips
      · exact fun sk hsk => absurd hsk List.not_mem_nil
  unfold asmPortPrereqs
  split
  · split
    · exact skip_skips _ _
    · exact prologue
  · exact prologue

/-- A guard leaves checks out at the current depth. -/
theorem asmGuard_skips (g : Guard) (ctx : Ctx) :
    ∀ sk ∈ (asmGuard g ctx).1.skips, sk.depth = ctx.vlanDepth := by
  cases g with
  | none => exact fun sk hsk => absurd hsk List.not_mem_nil
  | ethertype et => exact asmEthertype_skips et ctx
  | ip4 n =>
    simp only [asmGuard, asmIp4L4]
    split
    · refine append_skips (asmEthertype_skips _ ctx) ?_
      rw [asmEthertype_vlanDepth]
      exact skip_skips _ _
    · exact append_skips (asmEthertype_skips _ ctx) (fun sk hsk => absurd hsk List.not_mem_nil)
  | ip6 n =>
    simp only [asmGuard, asmIp6L4]
    split
    · refine append_skips (asmEthertype_skips _ ctx) ?_
      rw [asmEthertype_vlanDepth]
      exact skip_skips _ _
    · exact append_skips (asmEthertype_skips _ ctx) (fun sk hsk => absurd hsk List.not_mem_nil)
  | ports want => exact asmPortPrereqs_skips want ctx

theorem tagOf_start (check : Check) : tagOf .start check = 0 := by
  cases check <;> rfl

theorem freshGuard_flat (pkt : Vm.Packet) (g : Guard) {ctx : Ctx} (hd : ctx.vlanDepth = 0) :
    freshGuard pkt g ctx .start := by
  have h : Fresh (asmGuard g ctx).1.skips .start := fun sk hsk => by
    rw [tagOf_start, asmGuard_skips g ctx sk hsk, hd]
  have he : ∀ et, Fresh (asmEthertype et ctx).1.skips .start := fun et sk hsk => by
    rw [tagOf_start, asmEthertype_skips et ctx sk hsk, hd]
  cases g with
  | none => trivial
  | ethertype et => exact h
  | ip4 n => exact ⟨he _, fun _ => h⟩
  | ip6 n => exact ⟨he _, fun _ => h⟩
  | ports want => exact h

theorem guardTags_flat (g : Guard) {ctx : Ctx} (hd : ctx.vlanDepth = 0) :
    guardTags g ctx .start = .start := by
  rw [guardTags, hd, retag_zero]

theorem freshGuards_flat (pkt : Vm.Packet) (gs : List Guard) {ctx : Ctx} (hd : ctx.vlanDepth = 0) :
    freshGuards pkt gs ctx .start ∧ guardsTags gs ctx .start = .start := by
  induction gs generalizing ctx with
  | nil => exact ⟨trivial, rfl⟩
  | cons g gs ih =>
    have hd' : (asmGuard g ctx).2.vlanDepth = 0 := (asmGuard_frame g ctx).2.trans hd
    obtain ⟨hf, ht⟩ := ih hd'
    rw [guardsTags, guardTags_flat g hd]
    refine ⟨⟨freshGuard_flat pkt g hd, fun _ => ?_⟩, ht⟩
    rw [guardTags_flat g hd]
    exact hf

/-- No VLAN tag is ever passed: there is none in the filter, or none in the packet. -/
def Flat (pkt : Vm.Packet) (link : LinkType) (e : Expr) : Prop :=
  e.vlanFree ∨ etherVal pkt link 0 0x8100 ≠ some true

theorem leadsVlan_vlanFree {l : Expr} (h : l.vlanFree) : leadsVlan l = false := by
  induction l with
  | primitive p => exact Expr.vlanFree_primitive.mp h
  | and l r hl _ => exact hl (Expr.vlanFree_and.mp h).1
  | or l r _ _ => rfl
  | not e _ => rfl

/-- A chain that begins with a `vlan` accepts only behind a tag. -/
theorem leadsVlan_tagged {l : Expr} {d : Nat} (hl : leadsVlan l = true)
    (hv : value pkt link mode l d = some true) : etherVal pkt link d 0x8100 = some true := by
  induction l with
  | primitive p =>
    cases p with
    | vlan id => exact (Tri.and_eq_true.mp hv).1
    | _ => cases hl
  | and l r ih _ => exact ih hl (Tri.and_eq_true.mp hv).1
  | or l r _ _ => cases hl
  | not e _ => cases hl

theorem Flat.deeper {l r : Expr} (h : Flat pkt link (.and l r))
    (hv : value pkt link mode l 0 = some true) : leadsVlan l = false := by
  rcases h with h | h
  · exact leadsVlan_vlanFree (Expr.vlanFree_and.mp h).1
  · by_contra hl
    exact h (leadsVlan_tagged (by simpa using hl) hv)

theorem Flat.and {l r : Expr} (h : Flat pkt link (.and l r)) : Flat pkt link l ∧ Flat pkt link r :=
  ⟨h.imp_left (fun h => (Expr.vlanFree_and.mp h).1), h.imp_left (fun h => (Expr.vlanFree_and.mp h).2)⟩

theorem Flat.or {l r : Expr} (h : Flat pkt link (.or l r)) : Flat pkt link l ∧ Flat pkt link r :=
  ⟨h.imp_left (fun h => (Expr.vlanFree_or.mp h).1), h.imp_left (fun h => (Expr.vlanFree_or.mp h).2)⟩

theorem Flat.not {e : Expr} (h : Flat pkt link (.not e)) : Flat pkt link e :=
  h.imp_left Expr.vlanFree_not.mp

/-- Without tags every fact is of depth 0, and so is every check. -/
theorem Flat.fresh {e : Expr} {ctx : Ctx} (h : Flat pkt ctx.link e) (hd : ctx.vlanDepth = 0) :
    FreshOn pkt mode e ctx .start ∧ (value pkt ctx.link mode e 0 = some true →
      exprTags pkt mode e ctx .start = .start) := by
  induction e generalizing ctx with
  | primitive p => exact ⟨freshGuard_flat pkt _ hd, fun _ => guardTags_flat _ hd⟩
  | and l r hl hr =>
    obtain ⟨hfl, hfr⟩ := h.and
    obtain ⟨h₁, ht₁⟩ := hl hfl hd
    obtain ⟨hlink, hdepth⟩ := asm_frame mode l ctx
    have hr' : value pkt ctx.link mode l 0 = some true → FreshOn pkt mode r (andRight mode l ctx)
        .start ∧ (value pkt ctx.link mode r 0 = some true →
          exprTags pkt mode r (andRight mode l ctx) .start = .start) := by
      intro hv
      have hlink' : (andRight mode l ctx).link = ctx.link := hlink
      have h₂ := @hr (andRight mode l ctx) (by rw [hlink']; exact hfr) (by
        simp only [andRight, Ctx.bump, h.deeper hv, hdepth, hd]
        rfl)
      rw [hlink'] at h₂
      exact h₂
    refine ⟨⟨h₁, fun hv => ?_⟩, fun hv => ?_⟩
    · rw [hd] at hv
      rw [ht₁ hv]
      exact (hr' hv).1
    · obtain ⟨hvl, hvr⟩ := Tri.and_eq_true.mp hv
      simp only [Classic.deeper, h.deeper hvl] at hvr
      simp only [exprTags]
      rw [ht₁ hvl]
      exact (hr' hvl).2 hvr
  | or l r hl hr =>
    obtain ⟨hfl, hfr⟩ := h.or
    obtain ⟨hlink₀, hdepth₀⟩ := asmGuards_frame (frontGuards mode l r ctx.link) ctx
    obtain ⟨hlink₁, hdepth₁⟩ := asm_frame mode l (orEntry mode l r ctx)
    have hle : (orEntry mode l r ctx).link = ctx.link := hlink₀
    have hlr : (orRight mode l r ctx).link = ctx.link := hlink₁.trans hlink₀
    obtain ⟨hg, htg⟩ := freshGuards_flat pkt (frontGuards mode l r ctx.link) hd
    have h₁ := @hl (orEntry mode l r ctx) (by rw [hle]; exact hfl) (hdepth₀.trans hd)
    have h₂ := @hr (orRight mode l r ctx) (by rw [hlr]; exact hfr)
      (hdepth₁.trans (hdepth₀.trans hd))
    rw [hle] at h₁
    rw [hlr] at h₂
    refine ⟨⟨hg, fun _ => ?_⟩, fun hv => ?_⟩
    · rw [htg]
      exact ⟨h₁.1, fun _ => h₂.1⟩
    · obtain ⟨-, hv⟩ := Tri.and_eq_true.mp hv
      simp only [exprTags, htg, hd]
      split
      · rename_i hvl
        exact h₁.2 hvl
      · rename_i hvl
        rcases Tri.or_eq_true.mp hv with hv | ⟨-, hv⟩
        · exact absurd hv hvl
        · exact h₂.2 hv
  | not e ih => exact ⟨(ih h.not hd).1, fun _ => rfl⟩

/-- Without tags and guards in front of ORs, the value is that of the leaves, left to right. -/
theorem Flat.value {e : Expr} (h : Flat pkt link e) :
    value pkt link .plain e 0 = shortCircuit (fun p => leafVal pkt link p 0) e := by
  induction e with
  | primitive p => rfl
  | and l r hl hr =>
    obtain ⟨hfl, hfr⟩ := h.and
    simp only [Classic.value, shortCircuit]
    rw [← hl hfl, ← hr hfr]
    cases hv : Classic.value pkt link .plain l 0 with
    | none => rfl
    | some b =>
      cases b with
      | false => rfl
      | true => simp only [Classic.deeper, h.deeper hv]; rfl
  | or l r hl hr =>
    obtain ⟨hfl, hfr⟩ := h.or
    simp only [Classic.value, shortCircuit]
    rw [← hl hfl, ← hr hfr]
    rfl
  | not e ih =>
    simp only [Classic.value, shortCircuit]
    rw [ih h.not]

end Flat

section Leaves

variable {mode : HoistMode} {p : Primitive} {link : LinkType} {pkt : Vm.Packet}

theorem jaFits_of_no_ja {insns : List Insn} (h : ∀ i ∈ insns, isJa i = false) : JaFits insns := by
  intro i t hp
  cases hp with
  | one _ insn hi hj =>
    rw [h insn (List.mem_of_getElem? hi)] at hj
    cases hj
  | step _ insn _ hi hj _ =>
    rw [h insn (List.mem_of_getElem? hi)] at hj
    cases hj

theorem isJa_raw (a : Cell Insn Slot) : isJa (a.raw Insn.put) = isJa a.insn :=
  isJa_congr (raw_code a)

theorem assembled_insns {e : Expr} {i : Insn} (hi : i ∈ assembled mode e link) :
    ∃ a ∈ (asm mode e (Ctx.start link)).1.code ++ ops [.retK bpfAccept, .retK bpfDrop],
      i.code = a.insn.code := by
  obtain ⟨b, hb, rfl⟩ := List.mem_map.mp hi
  rw [raw_code]
  rcases List.mem_append.mp hb with hb | hb
  · obtain ⟨b', hb', n, -, rfl⟩ := Frag.mem_resolve hb
    obtain ⟨b'', hb'', n', -, rfl⟩ := Frag.mem_resolve hb'
    exact ⟨b'', List.mem_append_left _ hb'', by simp⟩
  · exact ⟨b, List.mem_append_right _ hb, rfl⟩

/-- The jumps of a primitive's own program are short, or it has none. -/
theorem leaf_jaFits (mode : HoistMode) (h : primOk p link = true) :
    JaFits (assembled mode (.primitive p) link) := by
  have hl := links_primitive mode h
  have short : (body p link 0).length ≤ 100 → JaFits (assembled mode (.primitive p) link) := by
    intro hb
    refine (assembled_wellFormed hl).jaFits ?_
    have hg := asmGuard_length (guardOf p) (Ctx.start link)
    have hlen : (assembled mode (.primitive p) link).length =
        (asmGuard (guardOf p) (Ctx.start link)).1.code.length + (body p link 0).length + 2 := by
      rw [assembled, List.length_map, program_length]
      simp only [asm, asmPrimitive, Piece.append, List.length_append]
      rfl
    omega
  rcases body_length p link 0 with hb | ⟨hg, is, a, he, k, hk, ha⟩
  · exact short hb
  · refine jaFits_of_no_ja (fun i hi => ?_)
    obtain ⟨b, hb, hcode⟩ := assembled_insns hi
    rw [isJa_congr (b := b.insn) hcode]
    have hcode' : (asm mode (.primitive p) (Ctx.start link)).1.code = ops is ++ [a] := by
      simp only [asm, asmPrimitive, hg, asmGuard, Piece.append, Piece.empty, List.nil_append]
      exact he
    have hsolid := solid_body p link 0
    rw [hcode'] at hb
    rw [he] at hsolid
    rcases List.mem_append.mp hb with hb | hb
    · have hs := hsolid.shaped b hb
      rcases List.mem_append.mp hb with hb | hb
      · obtain ⟨j, -, rfl⟩ := List.mem_map.mp hb
        have hj : j.code &&& 0x07 ≠ bpfJmp := (plain_code hs).2.1
        simp [isJa, hj]
      · rw [List.mem_singleton.mp hb] at hs ⊢
        exact isCond_not_ja (linked.branch (.inl hs) ha hk)
    · obtain ⟨j, hj, rfl⟩ := List.mem_map.mp hb
      simp only [List.mem_cons, List.not_mem_nil, or_false] at hj
      rcases hj with rfl | rfl <;> decide

/-- A primitive's own program ends with its value at depth 0. -/
theorem leaf_exec {insns : List Insn} (h : compileWith mode (.primitive p) link = .ok insns) :
    Vm.exec insns pkt = ending (leafVal pkt link p 0) := by
  have hl := (compileWith_ok.mp h).1
  exact exec_compileWith h (leaf_jaFits mode (hl.1.leaves p List.mem_cons_self))
    (freshGuard_flat pkt _ rfl)

theorem leaf_compiles (h : primOk p link = true) :
    ∃ insns, compileWith mode (.primitive p) link = .ok insns :=
  ⟨_, compileWith_ok.mpr ⟨links_primitive mode h, rfl⟩⟩

end Leaves

end PktBaffle.Proofs.Classic
