import PktBaffle.Proofs.Classic.Flow

namespace PktBaffle.Proofs.Classic
open Bpf Forward PktBaffle.Classic PktBaffle.Optimizer PktBaffle.Proofs.Optimizer

/-- A conditional jump that was executed while A held an absolute load. -/
structure Event where
  load : UInt16 × UInt32
  jump : UInt16
  k : UInt32
  taken : Bool
  deriving DecidableEq

/-- The registers with the history of the run: the absolute load A comes from, if any, and
the comparisons made so far. -/
structure Traced where
  regs : Vm.Regs
  last : Option (UInt16 × UInt32)
  events : List Event

def Traced.start : Traced := ⟨.start, none, []⟩

def observe (i : Insn) (t : Traced) : Move Slot Vm.Regs Bool → Move Slot Traced Bool
  | .next s => .next ⟨s, if isLdAbs i then some (i.code, i.k) else if writesA i then none else t.last,
      t.events⟩
  | .jump k s => .jump k ⟨s, t.last, match t.last with
      | some l => if isCondJump i then ⟨l, i.code, i.k, k == .jt⟩ :: t.events else t.events
      | none => t.events⟩
  | .halt r => .halt r

/-- The interpreter with a history nothing depends on. -/
def traced (pkt : Vm.Packet) : Machine Insn Slot Traced Vm.Stop Bool where
  act i t := (Vm.act pkt i t.regs).map (observe i t)
  tgt := (Vm.machine pkt).tgt

/-- The result without the history. -/
def forget : Result Vm.Stop Traced Bool → Result Vm.Stop Vm.Regs Bool
  | .past n t => .past n t.regs
  | .exit x t => .exit x t.regs
  | .halt r => .halt r
  | .stop e => .stop e

section Forget

variable {pkt : Vm.Packet}

theorem traced_no_exit (pkt : Vm.Packet) : ∀ i k y, (traced pkt).tgt i k ≠ .exit y :=
  fun _ _ _ h => by cases h

/-- The history changes no run. -/
theorem forget_run (c : Code) (n : Nat) (t : Traced) :
    forget ((traced pkt).cells.run c n t) = (Vm.machine pkt).cells.run c n t.regs := by
  induction c generalizing n t with
  | nil => simp [forget]
  | cons a c ih =>
    cases n with
    | succ n => exact ih n t
    | zero =>
      have hact : (traced pkt).cells.act a t = (Vm.act pkt a.insn t.regs).map (observe a.insn t) :=
        rfl
      have hvm : (Vm.machine pkt).cells.act a t.regs = Vm.act pkt a.insn t.regs := rfl
      rw [Machine.run_cons, Machine.run_cons, hact, hvm]
      cases Vm.act pkt a.insn t.regs with
      | error e => rfl
      | ok m =>
        cases m with
        | next s => exact ih 0 _
        | halt r => rfl
        | jump k s =>
          have htgt : (traced pkt).cells.tgt a k = (Vm.machine pkt).cells.tgt a k := rfl
          simp only [Except.map, observe, htgt]
          cases (Vm.machine pkt).cells.tgt a k with
          | skip n => exact ih n _
          | exit x => rfl

theorem fits_of_forget {E : Vm.Stop → Prop} {S F : Vm.Regs → Prop} {o : Tri}
    {r : Result Vm.Stop Traced Bool} (h : (forget r).Fits E S F o) :
    r.Fits E (fun t => S t.regs) (fun t => F t.regs) o := by
  rcases o with _ | _ | _
  · obtain ⟨e, he, hr⟩ := h
    cases r with
    | stop e' =>
      cases hr
      exact ⟨_, he, rfl⟩
    | _ => cases hr
  · obtain ⟨s, hs, hr⟩ := h
    cases r with
    | exit x t =>
      cases hr
      exact ⟨t, hs, rfl⟩
    | _ => cases hr
  · obtain ⟨s, hs, hr⟩ := h
    cases r with
    | past n t =>
      rcases hr with hr | hr
      · cases hr
        exact ⟨t, hs, .inl rfl⟩
      · cases hr
    | exit x t =>
      rcases hr with hr | hr
      · cases hr
      · cases hr
        exact ⟨t, hs, .inr rfl⟩
    | halt r => rcases hr with hr | hr <;> cases hr
    | stop e => rcases hr with hr | hr <;> cases hr

theorem forget_of_fits {E : Vm.Stop → Prop} {S F : Traced → Prop} {o : Tri}
    {r : Result Vm.Stop Traced Bool} (h : r.Fits E S F o) :
    (forget r).Fits E (fun _ => True) (fun _ => True) o := by
  rcases o with _ | _ | _
  · obtain ⟨e, he, rfl⟩ := h
    exact ⟨e, he, rfl⟩
  · obtain ⟨t, -, rfl⟩ := h
    exact ⟨t.regs, trivial, rfl⟩
  · obtain ⟨t, -, rfl | rfl⟩ := h
    · exact ⟨t.regs, trivial, .inl rfl⟩
    · exact ⟨t.regs, trivial, .inr rfl⟩

/-- What was observed stays observed. -/
theorem events_leaves (c : Code) (n : Nat) (t : Traced) :
    ((traced pkt).cells.run c n t).Leaves (fun t' => t.events ⊆ t'.events) := by
  refine Machine.run_leaves _ (fun a _ u hu => ?_) n (List.Subset.refl _)
  have hact : (traced pkt).cells.act a u = (Vm.act pkt a.insn u.regs).map (observe a.insn u) := rfl
  rw [hact]
  cases Vm.act pkt a.insn u.regs with
  | error e => trivial
  | ok m =>
    cases m with
    | next s => exact hu
    | halt r => trivial
    | jump k s =>
      show t.events ⊆ (match u.last with
        | some l => if isCondJump a.insn then ⟨l, a.insn.code, a.insn.k, k == .jt⟩ :: u.events
          else u.events
        | none => u.events)
      split
      · split
        · exact fun e he => List.mem_cons_of_mem _ (hu he)
        · exact hu
      · exact hu

/-- X of a run over quiet code. -/
theorem quiet_traced {c : Code} (hs : ∀ a ∈ c, shaped a = true) (hq : quiet c) (n : Nat)
    (t : Traced) : ((traced pkt).cells.run c n t).Leaves (fun t' => t'.regs.x = t.regs.x) := by
  have h := quiet_leaves pkt hs hq n t.regs
  rw [← forget_run] at h
  cases hr : (traced pkt).cells.run c n t with
  | past n t' =>
    rw [hr] at h
    exact h
  | exit x t' =>
    rw [hr] at h
    exact h
  | halt v => trivial
  | stop e => trivial

end Forget

end PktBaffle.Proofs.Classic
