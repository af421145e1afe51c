import PktBaffle.Proofs.Ebpf.Exec

namespace PktBaffle.Proofs.Ebpf
open PktBaffle.Ebpf Forward
open Vm (Packet)

section Graph

/-- Where control may go from the instruction at `n`. -/
def succs (n : Nat) (i : Insn) : List Int :=
  let cls := i.code &&& 0x07
  let op := i.code &&& 0xf0
  let next : Int := n + 1
  if cls = bpfJmp ∧ op = bpfExit then []
  else if cls = bpfJmp ∧ op = bpfJa then [next + i.off.toInt]
  else if cls = bpfJmp ∨ cls = bpfJmp32 then [next, next + i.off.toInt]
  else [next]

/-- The instructions that control can come to. -/
inductive Reached (prog : List Insn) : Nat → Prop where
  | entry : Reached prog 0
  | step {n t : Nat} {i : Insn} (h : Reached prog n) (hi : prog[n]? = some i)
    (ht : (t : Int) ∈ succs n i) : Reached prog t

/-- Control goes forward and never leaves the program but by `exit`. -/
def Onward (prog : List Insn) : Prop :=
  ∀ n i, prog[n]? = some i → ∀ t ∈ succs n i, (n : Int) < t ∧ t < prog.length

end Graph

section Faults

/-- The faults of a run that is not where a program should be. -/
def strays : Fault → Bool
  | .stepLimit | .pcOutOfRange _ | .jumpOutOfRange _ => true
  | _ => false

/-- A computation whose faults are its own. -/
def Own {α : Type} (x : Except Fault α) : Prop := ∀ e, x = .error e → strays e = false

/-- How a computation ends: with a fault of its own, or with a value of `Q`. -/
def Settles {α : Type} (Q : α → Prop) : Except Fault α → Prop
  | .error e => strays e = false
  | .ok a => Q a

/-- A computation whose value does not matter. -/
abbrev Steady {α : Type} (x : Except Fault α) : Prop := Settles (fun _ => True) x

variable {α β : Type} {Q : β → Prop}

theorem Settles.after {x : Except Fault α} {f : α → Except Fault β} (hx : Steady x)
    (hf : ∀ a, Settles Q (f a)) : Settles Q (x >>= f) := by
  cases x with
  | error e => exact hx
  | ok a => exact hf a

theorem Settles.ite {p : Prop} [Decidable p] {x y : Except Fault β} (hx : p → Settles Q x)
    (hy : ¬p → Settles Q y) : Settles Q (if p then x else y) := by
  split
  · exact hx ‹_›
  · exact hy ‹_›

namespace Steady

theorem ok (a : α) : Steady (.ok a) := trivial

theorem ite {p : Prop} [Decidable p] {x y : Except Fault α} (hx : Steady x) (hy : Steady y) :
    Steady (if p then x else y) := Settles.ite (fun _ => hx) fun _ => hy

theorem map {x : Except Fault α} (f : α → β) (hx : Steady x) : Steady (x.map f) := by
  cases x with
  | error e => exact hx
  | ok a => trivial

variable {pkt : Packet} {pc : Nat}

theorem error {e : Fault} (h : strays e = false) : Steady (.error e : Except Fault α) := h

theorem rd (s : Regs) (r : Fin 11) : Steady (s.rd r pc) := (ok _).ite (error rfl)

theorem wr (s : Regs) (r : Fin 11) (v : UInt64) : Steady (s.wr r v pc) := (error rfl).ite (ok _)

theorem load (ctx : List UInt8) (addr : UInt64) (size : Nat) :
    Steady (load ctx pkt addr size pc) :=
  ((error rfl).ite (ok _)).ite ((ok _).ite (error rfl))

theorem endian (imm : Int32) (swap : Bool) (v : UInt64) : Steady (endian imm swap v pc) :=
  (ok _).ite ((ok _).ite ((ok _).ite (error rfl)))

theorem shift (is64 : Bool) (v : UInt64) : Steady (shift is64 v pc) := (ok _).ite (error rfl)

theorem alu (is64 : Bool) (op : UInt8) (d s : UInt64) (code : UInt8) :
    Steady (alu is64 op d s pc code) := by
  refine (ok _).ite ((ok _).ite ((ok _).ite ?_))
  refine ((error rfl).ite (ok _)).ite (((error rfl).ite (ok _)).ite ?_)
  refine (ok _).ite ((ok _).ite ((ok _).ite ?_))
  refine ((shift is64 s).map _).ite (((shift is64 s).map _).ite (((shift is64 s).map _).ite ?_))
  exact (ok _).ite ((ok _).ite (error rfl))

end Steady

end Faults

section Steps

variable {pkt : Packet} {host : Endian} {pc : Nat} {i : Insn}

/-- The move goes where the successors of the instruction say. -/
def Placed (pc : Nat) (i : Insn) : Move Unit Regs UInt64 → Prop
  | .next _ => (pc + 1 : Int) ∈ succs pc i
  | .jump _ _ => (pc + 1 + i.off.toInt : Int) ∈ succs pc i
  | .halt _ => True

theorem next_straight (h : ¬(i.code &&& 0x07 = bpfJmp ∨ i.code &&& 0x07 = bpfJmp32)) (s : Regs) :
    Placed pc i (.next s) := by
  show _ ∈ succs pc i
  unfold succs
  dsimp only
  rw [if_neg fun hx => h (.inl hx.1), if_neg fun hx => h (.inl hx.1), if_neg h]
  exact List.mem_singleton.mpr rfl

theorem actLdx_settles (d q : Fin 11) (s : Regs) (h : ∀ s, Placed pc i (.next s)) :
    Settles (Placed pc i) (actLdx pkt host pc i d q s) := by
  unfold actLdx
  apply Settles.ite
  · intro _
    rfl
  · intro _
    exact .after (.rd s q) fun _ => .after (.load _ _ _) fun _ => .after (.wr s d _) fun s' => h s'

theorem actAlu_settles (d q : Fin 11) (s : Regs) (h : ∀ s, Placed pc i (.next s)) :
    Settles (Placed pc i) (actAlu host pc i d q s) := by
  unfold actAlu
  refine .ite (fun _ => rfl) fun _ => .ite (fun _ => ?_) fun _ => ?_
  · refine .ite (fun _ => rfl) fun _ => ?_
    exact .after (.rd s d) fun _ => .after (.endian _ _ _) fun _ => .after (.wr s d _) fun s' => h s'
  · -- the operand, the old value unless it is a move, then the arithmetic
    refine .ite (fun _ => .after (.rd s q) fun sv => ?_) fun _ => .after (.ok _) fun sv => ?_
    all_goals
      refine .ite (fun _ => .after (.ok _) fun dv => ?_) fun _ => .after (.rd s d) fun dv => ?_
      all_goals exact .after (.alu _ _ _ _ _) fun _ => .after (.wr s d _) fun s' => h s'

theorem actJmp_settles (d q : Fin 11) (s : Regs)
    (hcls : i.code &&& 0x07 = bpfJmp ∨ i.code &&& 0x07 = bpfJmp32) :
    Settles (Placed pc i) (actJmp pc i d q s) := by
  have hexit : ∀ {p : Prop}, ¬(¬(i.code &&& 0x07 == bpfJmp32) = true ∧ p) →
      ¬(i.code &&& 0x07 = bpfJmp ∧ p) := by
    rintro p hn ⟨hj, hp⟩
    refine hn ⟨?_, hp⟩
    rw [hj]
    decide
  unfold actJmp
  refine .ite (fun _ => rfl) fun _ => .ite (fun _ => .after (.rd s 0) fun _ => trivial) fun he =>
    .ite (fun ha => ?_) fun ha => ?_
  · have hj : i.code &&& 0x07 = bpfJmp := hcls.resolve_right fun h32 => ha.1 (by rw [h32]; decide)
    show _ ∈ succs pc i
    unfold succs
    dsimp only
    rw [if_neg (hexit he), if_pos ⟨hj, ha.2⟩]
    exact List.mem_singleton.mpr rfl
  · have hsuccs : succs pc i = [(pc + 1 : Int), pc + 1 + i.off.toInt] := by
      unfold succs
      dsimp only
      rw [if_neg (hexit he), if_neg (hexit ha), if_pos hcls]
    have hplaced : ∀ (hit : Bool) (s : Regs),
        Placed pc i (if hit then .jump () s else .next s) := by
      intro hit s
      cases hit
      · show _ ∈ succs pc i
        rw [hsuccs]
        exact List.mem_cons_self
      · show _ ∈ succs pc i
        rw [hsuccs]
        exact List.mem_cons_of_mem _ List.mem_cons_self
    exact .after (.rd s d) fun _ => .ite (fun _ => .after (.rd s q) fun _ => hplaced _ s) fun _ =>
      .after (.ok _) fun _ => hplaced _ s

/-- Whatever the registers hold, an instruction does not itself lose its place, and where it
sends control its successors say. -/
theorem act_settles (s : Regs) : Settles (Placed pc i) (act pkt host pc i s) := by
  unfold act
  split
  · refine .ite (fun hl => actLdx_settles _ _ s (next_straight ?_)) fun _ =>
      .ite (fun ha => actAlu_settles _ _ s (next_straight ?_)) fun _ =>
      .ite (fun hj => actJmp_settles _ _ s hj) fun _ => rfl
    · rw [hl]
      decide
    · rcases ha with ha | ha <;> rw [ha] <;> decide
  · rfl

variable {prog : List Insn}

/-- A program whose control goes forward keeps its place, whatever the registers hold. -/
theorem Onward.exec_own (h : Onward prog) (limit : Nat) (s : Regs) (hpc : pc < prog.length)
    (hl : prog.length ≤ limit + pc) : Own (execFrom pkt host prog limit pc s) := by
  induction limit generalizing pc s with
  | zero => omega
  | succ limit ih =>
    obtain ⟨i, hi⟩ : ∃ i, prog[pc]? = some i := ⟨_, List.getElem?_eq_getElem hpc⟩
    have hmove := @act_settles pkt host pc i s
    rw [execFrom, hi]
    dsimp only
    cases ha : act pkt host pc i s with
    | error e =>
      rw [ha] at hmove
      intro f hf
      cases hf
      exact hmove
    | ok m =>
      rw [ha] at hmove
      cases m with
      | halt r => exact fun f hf => by cases hf
      | next s' =>
        obtain ⟨-, hin⟩ := h pc i hi _ hmove
        exact ih s' (by omega) (by omega)
      | jump k s' =>
        obtain ⟨hfwd, hin⟩ := h pc i hi _ hmove
        dsimp only
        rw [if_neg (by omega)]
        exact ih s' (by omega) (by omega)

end Steps

end PktBaffle.Proofs.Ebpf
