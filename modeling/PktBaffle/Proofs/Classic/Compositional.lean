import PktBaffle.Proofs.Classic.Boolean
import PktBaffle.Proofs.Classic.Predicates

namespace PktBaffle.Proofs.Classic
open Bpf Forward PktBaffle.Classic PktBaffle.Optimizer PktBaffle.Proofs.Optimizer

section Jumps

variable {mode : HoistMode} {e : Expr} {link : LinkType}

/-- `JumpsFit` for either mode of the generator. -/
def JumpsFitIn (mode : HoistMode) (e : Expr) (link : LinkType) : Prop :=
  ∀ cg, emitted mode e link = .ok cg → JaFits cg.insns

theorem JumpsFitIn.assembled (h : JumpsFitIn mode e link) (hl : Links mode e link) :
    JaFits (assembled mode e link) := by
  rcases emitted_or mode e link with ⟨-, cg, he, hc, -⟩ | ⟨hn, -⟩
  · exact hc ▸ h cg he
  · exact absurd hl hn

/-- Code of up to 2^32 instructions has no chain of jumps that is too long. -/
theorem jumpsFitIn_of_length (h : (assembled mode e link).length ≤ 2 ^ 32) :
    JumpsFitIn mode e link := by
  intro cg he
  rcases emitted_or mode e link with ⟨hl, cg', he', hc, -⟩ | ⟨-, err, he'⟩
  · obtain rfl : cg' = cg := Except.ok.inj (he'.symm.trans he)
    exact hc ▸ (assembled_wellFormed hl).jaFits h
  · rw [he'] at he
    cases he

end Jumps

section Untagged

variable {e : Expr} {link : LinkType} {pkt : Vm.Packet} {insns : List Insn} {mode : HoistMode}

/-- A raw IP capture has no ethertype to test for a tag. -/
theorem vlanFree_of_rawIp (h : ∀ p ∈ e.leaves, primOk p .rawIp = true) : e.vlanFree := by
  intro p hp
  have hguard := (Bool.and_eq_true_iff.mp (h p hp)).1
  have hvlan : guardOk (.ethertype 0x8100) .rawIp = false := by decide
  cases p with
  | vlan id =>
    cases id with
    | none => exact absurd (hvlan.symm.trans hguard) Bool.false_ne_true
    | some id => exact absurd (hvlan.symm.trans hguard) Bool.false_ne_true
  | _ => rfl

/-- The expression asks for no tag, or the packet has none. -/
theorem flat_of_untagged (hp : ∀ p ∈ e.leaves, primOk p link = true)
    (h : e.vlanFree ∨ ¬ EtherIs pkt link 0x8100) : Flat pkt link e := by
  rcases h with h | h
  · exact .inl h
  · cases ho : link.etherProtoOffset with
    | none =>
      cases link with
      | rawIp => exact .inl (vlanFree_of_rawIp hp)
      | ethernet => cases ho
      | linuxSll => cases ho
    | some off =>
      refine .inr fun hv => h ?_
      have hok : guardOk (.ethertype 0x8100) link = true := by simp [guardOk, ho]
      exact (etherVal_is hok).mp hv

/-- The verdict of a compiled filter on a packet without tags, in either mode. -/
theorem run_value (hc : compileWith mode e link = .ok insns) (hj : JumpsFitIn mode e link)
    (hf : Flat pkt link e) : Vm.run insns pkt = (value pkt link mode e 0).getD false := by
  rw [Vm.run, inner_value hc (hj.assembled (compileWith_ok.mp hc).1) (hf.fresh rfl).1]

/-- A compiled filter is the ordinary boolean combination of the stand-alone programs of its
leaves, on every packet that is long enough for them and has no tag the filter could ask for. -/
theorem compile_boolean (e : Expr) (link : LinkType) (insns : List Insn)
    (hc : compile e link = .ok insns) (hj : JumpsFit e link) (pkt : Vm.Packet)
    (hf : e.vlanFree ∨ ¬ EtherIs pkt link 0x8100)
    (hd : ∀ p ∈ e.leaves, leafOutcome link pkt p ≠ none) :
    Vm.run insns pkt = e.eval (leafVerdict link pkt) := by
  have hok : ∀ p ∈ e.leaves, primOk p link = true := (compileWith_ok.mp hc).1.1.leaves
  have hflat := flat_of_untagged hok hf
  have hval : value pkt link .hoist e 0 =
      some (e.eval fun p => leafVal pkt link p 0 == some true) := by
    refine value_eval hflat fun p hp => ?_
    rw [← leafOutcome_eq (hok p hp)]
    exact hd p hp
  rw [run_value hc hj hflat, hval, Option.getD_some]
  refine eval_congr fun p hp => ?_
  rw [leafVerdict_eq, leafOutcome_eq (hok p hp)]
  rcases leafVal pkt link p 0 with _ | _ | _ <;> rfl

/-- `tcp port 80 or tcp port 53`. -/
def webOrDns : Expr :=
  .or (.primitive (.port 80 .srcOrDst (some .tcp))) (.primitive (.port 53 .srcOrDst (some .tcp)))

/-- An IPv4 packet to TCP port 80, as long as the ports. -/
def toWeb : Vm.Packet :=
  List.replicate 12 0 ++ [8, 0, 0x45] ++ List.replicate 8 0 ++ [6] ++ List.replicate 12 0 ++
    [0, 9, 0, 80]

theorem compile_boolean_web : ∃ insns, compile webOrDns .ethernet = .ok insns ∧
    Vm.run insns toWeb = webOrDns.eval (leafVerdict .ethernet toWeb) := by
  have hok : (compile webOrDns .ethernet).isOk = true := by decide +kernel
  have hlen : (assembled .hoist webOrDns .ethernet).length ≤ 2 ^ 32 := by decide +kernel
  cases hc : compile webOrDns .ethernet with
  | error err =>
    rw [hc] at hok
    cases hok
  | ok insns =>
    exact ⟨insns, rfl, compile_boolean webOrDns .ethernet insns hc (jumpsFitIn_of_length hlen) toWeb
      (.inl (by decide)) (by decide +kernel)⟩

/-- `ip and not tcp port 80`. -/
def ipNotWeb : Expr :=
  .and (.primitive (.proto .ip)) (.not (.primitive (.port 80 .srcOrDst (some .tcp))))

/-- The packet ends in the middle of the IPv4 header, so that the second leaf aborts. -/
theorem compile_short_circuit_cut : ∃ insns, compile ipNotWeb .ethernet = .ok insns ∧
    Vm.run insns (toWeb.take 20) =
      (shortCircuit (leafOutcome .ethernet (toWeb.take 20)) ipNotWeb).getD false := by
  have hok : (compile ipNotWeb .ethernet).isOk = true := by decide +kernel
  have hlen : (assembled .hoist ipNotWeb .ethernet).length ≤ 2 ^ 32 := by decide +kernel
  cases hc : compile ipNotWeb .ethernet with
  | error err =>
    rw [hc] at hok
    cases hok
  | ok insns =>
    exact ⟨insns, rfl, compile_short_circuit ipNotWeb .ethernet insns (by decide)
      ⟨trivial, trivial⟩ hc (jumpsFitIn_of_length hlen) (toWeb.take 20)⟩

end Untagged

section Hoisting

/-- Where a guard in front of an OR aborts or rejects, nothing else would have accepted: no OR
with a guard in front stands below a NOT or in the left arm of another OR. -/
def HoistsLast : Expr → Prop
  | .primitive _ => True
  | .and l r => HoistsLast l ∧ HoistsLast r
  | .or l r => NothingHoisted l ∧ HoistsLast r
  | .not e => NothingHoisted e

variable {e : Expr} {link : LinkType} {pkt : Vm.Packet}

/-- The guards in front of an OR accept what either arm accepts. -/
theorem frontGuards_accept {l r : Expr} {mode : HoistMode} (h : Flat pkt link (.or l r))
    (ha : value pkt link mode l 0 = some true ∨ value pkt link mode r 0 = some true) :
    guardsVal pkt link 0 (frontGuards .hoist l r link) = some true := by
  obtain ⟨hfl, hfr⟩ := h.or
  refine guardsVal_accepts ?_
  rcases ha with hv | hv
  · exact (required_accepts hfl hv).intersect_left.hoisted
  · exact (required_accepts hfr hv).intersect_right.hoisted

/-- Both modes accept the same packets, also those that are cut short. -/
theorem HoistsLast.accepts (hl : HoistsLast e) (h : Flat pkt link e) :
    value pkt link .hoist e 0 = some true ↔ value pkt link .plain e 0 = some true := by
  induction e with
  | primitive p => exact Iff.rfl
  | and l r hil hir =>
    obtain ⟨hfl, hfr⟩ := h.and
    have il := hil hl.1 hfl
    have ir := hir hl.2 hfr
    simp only [Classic.value, Tri.and_eq_true]
    constructor
    · rintro ⟨hvl, hvr⟩
      rw [Classic.deeper, h.deeper hvl] at hvr ⊢
      exact ⟨il.mp hvl, ir.mp hvr⟩
    · rintro ⟨hvl, hvr⟩
      rw [Classic.deeper, h.deeper hvl] at hvr ⊢
      exact ⟨il.mpr hvl, ir.mpr hvr⟩
  | or l r _ hir =>
    obtain ⟨hnl, hlr⟩ := hl
    have ir := hir hlr h.or.2
    have hplain : guardsVal pkt link 0 (frontGuards .plain l r link) = some true := rfl
    simp only [Classic.value, hplain, Tri.and_eq_true, Tri.or_eq_true, hnl.value, true_and, ir]
    constructor
    · rintro ⟨-, hor⟩
      exact hor
    · intro hor
      exact ⟨frontGuards_accept h (hor.imp_right And.right), hor⟩
  | not e _ => rw [Classic.value, Classic.value, NothingHoisted.value hl]

end Hoisting

end PktBaffle.Proofs.Classic
