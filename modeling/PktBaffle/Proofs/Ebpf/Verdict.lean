import PktBaffle.Proofs.Ebpf.Exec

namespace PktBaffle.Proofs.Ebpf
open PktBaffle.Ebpf Forward Interp PktBaffle.Extended
open Vm (Packet fromBe2 fromBe4)
open PktBaffle.Classic (LinkType)

theorem fromBe4_store (v : UInt32) :
    fromBe4 (v >>> 24).toUInt8 (v >>> 16).toUInt8 (v >>> 8).toUInt8 v.toUInt8 = v := by
  have hv := v.toNat_lt
  apply UInt32.toNat_inj.mp
  simp [fromBe4, Nat.shiftRight_eq_div_pow]
  omega

/-- A word of the context reads back as it was stored. -/
theorem read_store (host : Endian) (v : UInt32) : host.read (host.store v) = v.toUInt64 := by
  cases host with
  | big =>
    show Endian.big.read [_, _, _, _] = _
    rw [read_big_four, fromBe4_store]
  | little =>
    show Endian.big.read (List.reverse (List.reverse [_, _, _, _])) = _
    rw [List.reverse_reverse, read_big_four, fromBe4_store]

theorem store_length (host : Endian) (v : UInt32) : (host.store v).length = 4 := by
  cases host <;> rfl

section Program

variable {pkt : Packet} {host : Endian} {c : Code} {t : Tri}

/-- The two words of the context. -/
theorem load_context {pc : Nat} :
    load (context pkt host) pkt (ctxBase + sext (0 : Int16).toInt) 4 pc =
        .ok (host.store pktBase.toUInt32) ∧
      load (context pkt host) pkt (ctxBase + sext (4 : Int16).toInt) 4 pc =
        .ok (host.store (pktBase + UInt64.ofNat pkt.length).toUInt32) := by
  have h₀ := store_length host pktBase.toUInt32
  constructor
  · have ha : ctxBase + sext (0 : Int16).toInt = ctxBase := by decide
    rw [ha]
    unfold load
    rw [if_pos (by decide), if_neg (by decide)]
    simp [context, h₀]
  · have ha : ctxBase + sext (4 : Int16).toInt = ctxBase + 4 := by decide
    rw [ha]
    unfold load
    rw [if_pos (by decide), if_neg (by decide)]
    simp [context, h₀, store_length]

/-- The first load of the prologue, on either host. -/
theorem act_data {pc : Nat} {s : Regs} (h : s.get 1 = some ctxBase) :
    act pkt host pc (.ldxW r2 r1 0) s = .ok (.next (s.set 2 pktBase)) := by
  have hbase : pktBase.toUInt32.toUInt64 = pktBase := by decide
  refine (act_ldx (d := 2) (q := 1) (by decide) (by decide) (by decide) h).trans ?_
  show (load (context pkt host) pkt (ctxBase + sext (0 : Int16).toInt) 4 pc).map _ = _
  rw [load_context.1]
  show Except.ok (Move.next (s.set 2 (host.read (host.store _)))) = _
  rw [read_store, hbase]

theorem act_dataEnd {pc : Nat} {s : Regs} (h : s.get 1 = some ctxBase) :
    act pkt host pc (.ldxW r3 r1 4) s = .ok (.next (s.set 3 (dataEnd pkt))) := by
  refine (act_ldx (d := 3) (q := 1) (by decide) (by decide) (by decide) h).trans ?_
  show (load (context pkt host) pkt (ctxBase + sext (4 : Int16).toInt) 4 pc).map _ = _
  rw [load_context.2]
  show Except.ok (Move.next (s.set 3 (host.read (host.store _)))) = _
  rw [read_store]
  rfl

/-- The prologue leaves the packet bounds in R2 and R3. -/
theorem prologue_runs :
    Runs pkt host (ops prologue) (· = Regs.start) (some true) (Holds pkt none none) := by
  have hone : Regs.start.get 1 = some ctxBase := by decide
  have h₂ : Runs pkt host (ops [.ldxW r2 r1 0]) (· = Regs.start) (some true)
      (fun s => s.get 2 = some pktBase ∧ s.get 1 = some ctxBase) := by
    refine drops_next (f := fun s => s.set 2 pktBase) (fun s hs => ?_) (fun s hs => ?_)
    · subst hs
      exact act_data hone
    · subst hs
      exact ⟨by simp, by simpa using hone⟩
  have h₃ : Runs pkt host (ops [.ldxW r3 r1 4])
      (fun s => s.get 2 = some pktBase ∧ s.get 1 = some ctxBase) (some true)
      (Holds pkt none none) := by
    refine drops_next (f := fun s => s.set 3 (dataEnd pkt)) (fun s hs => act_dataEnd hs.2)
      (fun s hs => ?_)
    exact ⟨by simpa using hs.1, by simp, by simp, by simp⟩
  exact h₂.before h₃

/-- What R0 holds at the end. -/
def returns (b : Bool) : UInt64 := sext (bif b then xdpPass else xdpDrop).toInt

theorem run_return {is : List Insn} (b : Bool) (s : Regs) :
    (machine pkt host).cells.run
        (ops (.mov64Imm r0 (bif b then xdpPass else xdpDrop) :: .exit :: is)) 0 s =
      .halt (returns b) := by
  have hmov : act pkt host 0 (.mov64Imm r0 (bif b then xdpPass else xdpDrop)) s =
      .ok (.next (s.set 0 (returns b))) := act_mov64_imm _
  have hexit : act pkt host 0 .exit (s.set 0 (returns b)) = .ok (.halt (returns b)) :=
    act_exit (by simp)
  exact (run_op hmov).trans (Machine.run_halt (M := (machine pkt host).cells) hexit)

/-- How a program ends whose code has outcome `t`. -/
def ending (t : Tri) : Result Fault Regs UInt64 :=
  match t with
  | some b => .halt (returns b)
  | none => .stop (.badShift 0)

theorem program_run (h : Meets (machine pkt host) Shifts c (Holds pkt none none) t
    (Holds pkt none none) (Holds pkt none none)) :
    (machine pkt host).cells.run (program c) 0 .start = ending t := by
  have hx : ∀ i k y, (machine pkt host).tgt i k ≠ .exit y := fun _ _ _ => by simp [machine]
  obtain ⟨s, hs, hp⟩ := @prologue_runs pkt host .start rfl
  have hc := h s hs
  rw [program, Machine.run_append, hp, Result.bind_past, Machine.run_append,
    Machine.run_resolve _ hx, Machine.run_resolve _ hx]
  rcases t with _ | _ | _
  · obtain ⟨e, rfl, hr⟩ := hc
    rw [hr]
    rfl
  · obtain ⟨s', -, hr⟩ := hc
    rw [hr]
    exact run_return false s'
  · obtain ⟨s', -, hr | hr⟩ := hc
    · rw [hr]
      exact run_return true s'
    · rw [hr]
      exact run_return true s'

end Program

/-- Outcome of an expression, left to right. -/
def exprVal (pkt : Packet) (link : LinkType) : Expr → Tri
  | .primitive p => leafVal pkt link p
  | .and l r => Tri.and (exprVal pkt link l) (exprVal pkt link r)
  | .or l r => Tri.or (exprVal pkt link l) (exprVal pkt link r)
  | .not e => Tri.not (exprVal pkt link e)

/-- Every byte access of the expression has an offset that its load can hold. -/
def AllReach (link : LinkType) (e : Expr) : Prop :=
  ∀ p ∈ e.leaves, ∀ ba, p = .byteAccess ba → Reaches link ba

section Expr

variable {pkt : Packet} {host : Endian} {link : LinkType}

/-- What the code of an expression does, on every packet. -/
theorem expr_ends {e : Expr} {c : Code} (hc : exprCode link e = .ok c) (hr : AllReach link e) :
    Meets (machine pkt host) Shifts c (Holds pkt none none) (exprVal pkt link e)
      (Holds pkt none none) (Holds pkt none none) := by
  have hx : ∀ i k y, (machine pkt host).tgt i k ≠ .exit y := fun _ _ _ => by simp [machine]
  induction e generalizing c with
  | primitive p => exact leaf_ends hc (hr p (by simp [Expr.leaves]))
  | and l r ihl ihr =>
    obtain ⟨a, b, ha, hb, rfl⟩ := exprCode_and hc
    exact Meets.seq hx (ihl ha fun p hp => hr p (List.mem_append_left _ hp))
      fun _ => ihr hb fun p hp => hr p (List.mem_append_right _ hp)
  | or l r ihl ihr =>
    obtain ⟨a, b, ha, hb, rfl⟩ := exprCode_or hc
    exact Meets.alt hx jumps_ja (ihl ha fun p hp => hr p (List.mem_append_left _ hp))
      fun _ => ihr hb fun p hp => hr p (List.mem_append_right _ hp)
  | not e ih =>
    obtain ⟨a, ha, rfl⟩ := exprCode_not hc
    exact Meets.neg hx jumps_ja (ih ha hr)

/-- The interpreter on a compiled expression. -/
theorem exec_compile {e : Expr} {prog : List Insn} (h : compile e link = .ok prog)
    (hr : AllReach link e) {limit : Nat} (hl : prog.length ≤ limit) :
    Agrees (exec pkt host prog limit) (ending (exprVal pkt link e)) := by
  obtain ⟨c, hc, hf, rfl⟩ := compile_ok h
  have he := @exec_agrees pkt host [] _ hf.forwards 0 limit .start (by simpa using hl)
  rw [run_raw hf, program_run (expr_ends hc hr)] at he
  exact he

end Expr

/-- The shifts of a byte access are narrower than a word. -/
def ShiftsFit (e : Expr) : Prop :=
  ∀ ba, .byteAccess ba ∈ e.leaves → ∀ s ∈ ba.aluOps, s.1 = .shl ∨ s.1 = .shr → s.2 < 32

/-- The offsets of the byte accesses are not negative and at most `n`. -/
def OffsetsWithin (n : Int) (e : Expr) : Prop :=
  ∀ ba, .byteAccess ba ∈ e.leaves → 0 ≤ ba.offset.toInt ∧ ba.offset.toInt ≤ n

theorem OffsetsWithin.reach {e : Expr} (h : OffsetsWithin 32000 e) (link : LinkType) :
    AllReach link e := by
  intro p hp ba he
  subst he
  obtain ⟨h0, hle⟩ := h ba hp
  have hnet := netOffset_le link
  refine ⟨h0, ?_⟩
  unfold layerBase
  split <;> omega

section Boolean

variable {pkt : Packet} {link : LinkType}

theorem aluVal_some {steps : List (ArithOp × UInt32)}
    (h : ∀ s ∈ steps, s.1 = .shl ∨ s.1 = .shr → s.2 < 32) (x : UInt32) :
    ∃ y, aluVal steps x = some y := by
  induction steps generalizing x with
  | nil => exact ⟨x, rfl⟩
  | cons s steps ih =>
    obtain ⟨op, k⟩ := s
    obtain ⟨y, hy⟩ : ∃ y, arith op x k = some y := by
      have hk := h (op, k) List.mem_cons_self
      cases op with
      | shl => exact ⟨x <<< k, if_pos (hk (.inl rfl))⟩
      | shr => exact ⟨x >>> k, if_pos (hk (.inr rfl))⟩
      | _ => exact ⟨_, rfl⟩
    obtain ⟨z, hz⟩ := ih (fun s hs => h s (List.mem_cons_of_mem _ hs)) y
    exact ⟨z, by rw [aluVal, hy]; exact hz⟩

theorem byteAccessVal_some {ba : ByteAccess}
    (h : ∀ s ∈ ba.aluOps, s.1 = .shl ∨ s.1 = .shr → s.2 < 32) :
    ∃ b, byteAccessVal pkt link ba = some b := by
  have hacc : ∀ value x, ∃ b, accessVal ba value x = some b := by
    intro value x
    obtain ⟨y, hy⟩ := aluVal_some h x
    exact ⟨_, by rw [accessVal, hy]; rfl⟩
  unfold byteAccessVal
  cases ba.rhs with
  | load l => exact ⟨false, rfl⟩
  | const value =>
    dsimp only
    split
    · obtain ⟨b, hb⟩ := hacc value (field pkt ba.size
        (ihlOff pkt link.netOffset + ba.offset.toUInt32.toNat))
      rw [hb, Tri.and_some]
      exact ⟨_, rfl⟩
    · obtain ⟨b, hb⟩ := hacc value (field pkt ba.size
        (layerBase link ba + ba.offset.toUInt32.toNat))
      rw [hb, Tri.and_some]
      exact ⟨_, rfl⟩

/-- The verdict of a primitive as a truth value. -/
def leafHolds (pkt : Packet) (link : LinkType) (p : Primitive) : Bool :=
  leafVal pkt link p == some true

theorem leafVal_eq {p : Primitive} (h : ShiftsFit (.primitive p)) :
    leafVal pkt link p = some (leafHolds pkt link p) := by
  obtain ⟨b, hb⟩ : ∃ b, leafVal pkt link p = some b := by
    cases p with
    | byteAccess ba => exact byteAccessVal_some (h ba (by simp [Expr.leaves]))
    | host a dir => cases a <;> exact ⟨_, rfl⟩
    | vlan id => cases id <;> exact ⟨_, rfl⟩
    | mpls label => cases label <;> exact ⟨_, rfl⟩
    | pppoeSession id => cases id <;> exact ⟨_, rfl⟩
    | _ => exact ⟨_, rfl⟩
  rw [leafHolds, hb]
  cases b <;> rfl

/-- Without aborts the outcome is the ordinary boolean value. -/
theorem exprVal_eval {e : Expr} (h : ShiftsFit e) :
    exprVal pkt link e = some (e.eval (leafHolds pkt link)) := by
  induction e with
  | primitive p => exact leafVal_eq h
  | and l r ihl ihr =>
    rw [exprVal, ihl fun ba hb => h ba (List.mem_append_left _ hb),
      ihr fun ba hb => h ba (List.mem_append_right _ hb), Tri.and_some]
    rfl
  | or l r ihl ihr =>
    rw [exprVal, ihl fun ba hb => h ba (List.mem_append_left _ hb),
      ihr fun ba hb => h ba (List.mem_append_right _ hb), Tri.or_some]
    rfl
  | not e ih =>
    rw [exprVal, ih h]
    rfl

def verdictOf (b : Bool) : Verdict := bif b then .matched else .noMatch

theorem runWithin_halt {host : Endian} {prog : List Insn} {limit : Nat} {b : Bool}
    (h : exec pkt host prog limit = .ok (returns b)) :
    runWithin pkt host prog limit = .ok (verdictOf b) := by
  unfold runWithin
  rw [h]
  cases b <;> decide

/-- The verdict of a primitive's own program. -/
theorem leaf_verdict {host : Endian} {p : Primitive} {prog : List Insn} {limit : Nat} {b : Bool}
    (h : compile (.primitive p) link = .ok prog) (hr : ∀ ba, p = .byteAccess ba → Reaches link ba)
    (hv : leafVal pkt link p = some b) (hl : prog.length ≤ limit) :
    runWithin pkt host prog limit = .ok (verdictOf b) := by
  have hall : AllReach link (.primitive p) := by
    intro q hq
    rcases List.mem_singleton.mp hq with rfl
    exact hr
  have he := @exec_compile pkt host _ _ _ h hall _ hl
  rw [exprVal, hv] at he
  exact runWithin_halt he

end Boolean

/-- `ether[-2] = 0`, which the parser does not admit. -/
def negativeOffset : Expr :=
  .primitive (.byteAccess ⟨.raw, -2, .byte, [], .eq, .const 0⟩)

/-- `tcp and not dst port 80`. -/
def tcpNotHttp : Expr :=
  .and (.primitive (.proto .tcp)) (.not (.primitive (.port 80 .dst none)))

end PktBaffle.Proofs.Ebpf
