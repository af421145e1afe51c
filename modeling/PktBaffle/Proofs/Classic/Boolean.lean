import PktBaffle.Proofs.Classic.Required

namespace PktBaffle.Proofs.Classic
open Bpf Forward PktBaffle.Classic PktBaffle.Optimizer PktBaffle.Proofs.Optimizer

/-- How the stand-alone program of a primitive ends: accept, reject, or abort. -/
def leafOutcome (link : LinkType) (pkt : Vm.Packet) (p : Primitive) : Tri :=
  match compile (.primitive p) link with
  | .ok insns => Vm.inner insns pkt
  | .error _ => none

/-- The verdict of the stand-alone program of a primitive. -/
def leafVerdict (link : LinkType) (pkt : Vm.Packet) (p : Primitive) : Bool :=
  match compile (.primitive p) link with
  | .ok insns => Vm.run insns pkt
  | .error _ => false

/-- What both arms of an OR require, as the generator computes it. -/
def commonGuards (l r : Expr) : Except Error GuardSet := do
  let (gl, _) ← requiredGuards ⟨[], l⟩ []
  let (gr, _) ← requiredGuards ⟨[], r⟩ []
  return gl.intersect gr

/-- The arms of no OR have a guard in common. -/
def NothingHoisted : Expr → Prop
  | .primitive _ => True
  | .and l r => NothingHoisted l ∧ NothingHoisted r
  | .or l r => commonGuards l r = .ok .default ∧ NothingHoisted l ∧ NothingHoisted r
  | .not e => NothingHoisted e

/-- No chain of unconditional jumps in the emitted code leads 2^32 or more instructions
forward: the displacement of a `ja` can hold every distance the jump threading computes. -/
def JumpsFit (e : Expr) (link : LinkType) : Prop :=
  ∀ cg, emitted .hoist e link = .ok cg → JaFits cg.insns

section Outcomes

variable {e : Expr} {link : LinkType} {insns : List Insn} {pkt : Vm.Packet}

theorem JumpsFit.assembled (h : JumpsFit e link) (hl : Links .hoist e link) :
    JaFits (assembled .hoist e link) := by
  rcases emitted_or .hoist e link with ⟨-, cg, he, hc, -⟩ | ⟨hn, -⟩
  · exact hc ▸ h cg he
  · exact absurd hl hn

theorem leafOutcome_eq {p : Primitive} (h : primOk p link = true) :
    leafOutcome link pkt p = leafVal pkt link p 0 := by
  obtain ⟨insns, hc⟩ : ∃ insns, compileWith .hoist (.primitive p) link = .ok insns :=
    leaf_compiles h
  have hc' : compile (.primitive p) link = .ok insns := hc
  rw [leafOutcome, hc']
  exact inner_of_exec (leaf_exec hc)

theorem leafVerdict_eq (link : LinkType) (pkt : Vm.Packet) (p : Primitive) :
    leafVerdict link pkt p = (leafOutcome link pkt p).getD false := by
  unfold leafVerdict leafOutcome
  cases compile (.primitive p) link <;> rfl

theorem shortCircuit_congr {v w : Primitive → Tri} (h : ∀ p ∈ e.leaves, v p = w p) :
    shortCircuit v e = shortCircuit w e := by
  induction e with
  | primitive p => exact h p List.mem_cons_self
  | and l r hl hr =>
    rw [shortCircuit, shortCircuit, hl (fun p hp => h p (List.mem_append_left _ hp)),
      hr (fun p hp => h p (List.mem_append_right _ hp))]
  | or l r hl hr =>
    rw [shortCircuit, shortCircuit, hl (fun p hp => h p (List.mem_append_left _ hp)),
      hr (fun p hp => h p (List.mem_append_right _ hp))]
  | not e ih => rw [shortCircuit, shortCircuit, ih h]

theorem eval_congr {v w : Primitive → Bool} (h : ∀ p ∈ e.leaves, v p = w p) :
    e.eval v = e.eval w := by
  induction e with
  | primitive p => exact h p List.mem_cons_self
  | and l r hl hr =>
    rw [Expr.eval, Expr.eval, hl (fun p hp => h p (List.mem_append_left _ hp)),
      hr (fun p hp => h p (List.mem_append_right _ hp))]
  | or l r hl hr =>
    rw [Expr.eval, Expr.eval, hl (fun p hp => h p (List.mem_append_left _ hp)),
      hr (fun p hp => h p (List.mem_append_right _ hp))]
  | not e ih => rw [Expr.eval, Expr.eval, ih h]

theorem commonGuards_eq (l r : Expr) :
    commonGuards l r = .ok ((required l).intersect (required r)) := by
  obtain ⟨memo₁, hr₁, -⟩ := requiredGuards_run (in_root l) (memoOk_nil l)
  obtain ⟨memo₂, hr₂, -⟩ := requiredGuards_run (in_root r) (memoOk_nil r)
  unfold commonGuards
  rw [hr₁]
  show (requiredGuards ⟨[], r⟩ [] >>= fun q => pure ((required l).intersect q.1)) = _
  rw [hr₂]
  rfl

/-- With nothing to hoist both modes mean the same. -/
theorem NothingHoisted.value (h : NothingHoisted e) (d : Nat) :
    value pkt link .hoist e d = value pkt link .plain e d := by
  induction e generalizing d with
  | primitive p => rfl
  | and l r hl hr => rw [Classic.value, Classic.value, hl h.1, hr h.2]
  | or l r hl hr =>
    obtain ⟨hc, h₁, h₂⟩ := h
    rw [commonGuards_eq, Except.ok.injEq] at hc
    have hfront : frontGuards .hoist l r link = [] := by
      simp only [frontGuards, hc, hoisted, GuardSet.default]
      cases link.etherProtoOffset.isSome <;> rfl
    rw [Classic.value, Classic.value, hl h₁, hr h₂, hfront]
    rfl
  | not e ih => rw [Classic.value, Classic.value, ih h]

/-- The whole classic pipeline without VLAN tags: the value of the expression. -/
theorem compile_value (hv : e.vlanFree) (hc : compile e link = .ok insns) (hj : JumpsFit e link)
    (pkt : Vm.Packet) : Vm.inner insns pkt = value pkt link .hoist e 0 :=
  inner_value hc (hj.assembled (compileWith_ok.mp hc).1) (Flat.fresh (.inl hv) rfl).1

/-- Where nothing is hoisted, a compiled filter means left to right evaluation of its leaves
over accept, reject and abort, on packets of any length. -/
theorem compile_short_circuit (e : Expr) (link : LinkType) (insns : List Insn) (hv : e.vlanFree)
    (hn : NothingHoisted e) (hc : compile e link = .ok insns) (hj : JumpsFit e link)
    (pkt : Vm.Packet) :
    Vm.run insns pkt = (shortCircuit (leafOutcome link pkt) e).getD false := by
  have hl := (compileWith_ok.mp hc).1.1.leaves
  have hval : shortCircuit (leafOutcome link pkt) e = value pkt link .hoist e 0 := by
    rw [hn.value, Flat.value (.inl hv)]
    exact shortCircuit_congr (fun p hp => leafOutcome_eq (hl p hp))
  rw [hval, Vm.run, compile_value hv hc hj]

end Outcomes

end PktBaffle.Proofs.Classic
