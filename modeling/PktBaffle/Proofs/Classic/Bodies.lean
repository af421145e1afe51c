import PktBaffle.Proofs.Classic.Primitives

namespace PktBaffle.Proofs.Classic
open Bpf Forward PktBaffle.Classic

/-- What the code of a primitive behind its guard needs. -/
def bodyOk (p : Primitive) (link : LinkType) : Bool :=
  match p with
  | .port _ _ proto => (l4setFor proto).toOption.isSome
  | .portRange _ _ _ proto => (l4setFor proto).toOption.isSome
  | .etherHost .. => link != .rawIp
  | .etherMulticast => link != .rawIp
  | .mpls _ => link != .rawIp
  | .inbound => false
  | .outbound => false
  | .byteAccess ba =>
    ba.aluOps.all (fun (op, operand) => (aluInsn op operand).toOption.isSome) &&
      match ba.rhs with
      | .const _ => ba.layer != .raw || link != .rawIp
      | .load _ => true
  | _ => true

/-- A primitive the link layer can carry. -/
def primOk (p : Primitive) (link : LinkType) : Bool := guardOk (guardOf p) link && bodyOk p link

theorem emitAluOps_pushes {alu : List (ArithOp × UInt32)}
    (h : alu.all (fun (op, operand) => (aluInsn op operand).toOption.isSome) = true)
    (cg : Codegen) : Pushes (emitAluOps alu) cg (ops (aluCode alu)) := by
  induction alu generalizing cg with
  | nil => exact ⟨cg, rfl, Built.nil cg⟩
  | cons a alu ih =>
    simp only [List.all_cons, Bool.and_eq_true] at h
    obtain ⟨op, operand⟩ := a
    cases hi : aluInsn op operand with
    | error e => simp [hi, Except.toOption] at h
    | ok i =>
      obtain ⟨cg₁, hr, hb⟩ := (Pushes.single i cg).append (fun cg' => ih h.2 cg')
      refine ⟨cg₁, ?_, ?_⟩
      · rw [← hr]
        show ((liftM (aluInsn op operand) >>= fun i => discard (push i)) >>= fun _ =>
          emitAluOps alu) cg = _
        rw [hi]
        rfl
      · simpa [aluCode, hi, Except.toOption, ops] using hb

theorem emitAluOps_error {alu : List (ArithOp × UInt32)}
    (h : alu.all (fun (op, operand) => (aluInsn op operand).toOption.isSome) = false)
    (cg : Codegen) : ∃ e, emitAluOps alu cg = .error e := by
  induction alu generalizing cg with
  | nil => cases h
  | cons a alu ih =>
    obtain ⟨op, operand⟩ := a
    cases hi : aluInsn op operand with
    | error e =>
      refine ⟨e, ?_⟩
      show ((liftM (aluInsn op operand) >>= fun i => discard (push i)) >>= fun _ =>
        emitAluOps alu) cg = _
      rw [hi]
      rfl
    | ok i =>
      have h' : alu.all (fun (op, operand) => (aluInsn op operand).toOption.isSome) = false := by
        simpa [hi, Except.toOption] using h
      obtain ⟨e, he⟩ := ih h' (pushed cg i)
      refine ⟨e, ?_⟩
      rw [← he]
      show ((liftM (aluInsn op operand) >>= fun i => discard (push i)) >>= fun _ =>
        emitAluOps alu) cg = _
      rw [hi]
      show (discard (push i) >>= fun _ => emitAluOps alu) cg = _
      rw [bind_run (discard_push i cg)]

theorem emitCmp_emits (op : CmpOp) (value : UInt32) (cg : Codegen) :
    Emits (emitCmp op value) cg ⟨[cmpCell (cmpInsn op value)], []⟩
      ((ctxOf cg).after [cmpCell (cmpInsn op value)]) :=
  ⟨_, _, by simp only [emitCmp, push_bind, pure_run]; rfl, Built.failure cg _ _⟩

theorem emitCmpX_emits (op : CmpOp) (cg : Codegen) :
    Emits (emitCmpX op) cg ⟨[cmpCell (cmpXInsn op)], []⟩
      ((ctxOf cg).after [cmpCell (cmpXInsn op)]) :=
  ⟨_, _, by simp only [emitCmpX, push_bind, pure_run]; rfl, Built.failure cg _ _⟩

/-- Plain instructions and then a test. -/
theorem Pushes.emits {m : Gen Unit} {k : Gen Patches} {cg : Codegen} {c d : Code}
    (h₁ : Pushes m cg c) (h₂ : ∀ cg', Emits k cg' ⟨d, []⟩ ((ctxOf cg').after d)) :
    Emits (m >>= fun _ => k) cg ⟨c ++ d, []⟩ ((ctxOf cg).after (c ++ d)) := by
  obtain ⟨cg₁, hr₁, hb₁⟩ := h₁
  obtain ⟨q, cg₂, hr₂, hb₂⟩ := h₂ cg₁
  refine ⟨q, cg₂, by rw [bind_run hr₁, hr₂], ?_⟩
  have h := hb₁.append_code hb₂
  rw [hb₁.ctx, ← Ctx.after_append] at h
  exact h

theorem pushes_push {β : Type} (i : Insn) (k : Gen β) :
    (push i >>= fun _ => k) = (discard (push i) >>= fun _ => k) := by
  funext cg
  rw [push_bind, bind_run (discard_push i cg)]

theorem ops_append (a b : List Insn) : ops (a ++ b) = ops a ++ ops b := by
  simp [ops]

theorem emitByteAccessConst_emits {ba : ByteAccess} {value : UInt32} {cg : Codegen}
    (halu : ba.aluOps.all (fun (op, operand) => (aluInsn op operand).toOption.isSome) = true)
    (hraw : ba.layer ≠ .raw ∨ cg.link ≠ .rawIp) :
    Emits (emitByteAccessConst ba value) cg ⟨constCode ba value cg.netOffset, []⟩
      ((ctxOf cg).after (constCode ba value cg.netOffset)) := by
  have tail : ∀ cg', Emits (do emitAluOps ba.aluOps; emitCmp ba.op value) cg'
      ⟨ops (aluCode ba.aluOps) ++ [cmpCell (cmpInsn ba.op value)], []⟩
      ((ctxOf cg').after (ops (aluCode ba.aluOps) ++ [cmpCell (cmpInsn ba.op value)])) :=
    fun cg' => (emitAluOps_pushes halu cg').emits (fun cg'' => emitCmp_emits _ _ cg'')
  unfold Emits emitByteAccessConst constCode
  simp only [get_bind, ops_append, List.append_assoc]
  cases hl : ba.layer with
  | raw =>
    have hlink : ¬ cg.link = .rawIp := by
      rcases hraw with h | h
      · exact absurd hl h
      · exact h
    simp only [get_bind, hlink, if_false]
    exact (Pushes.single _ cg).emits tail
  | net => exact (Pushes.single _ cg).emits tail
  | trans =>
    simp only [pushes_push]
    exact (Pushes.single _ cg).emits (fun cg' => (Pushes.single _ cg').emits tail)

theorem emitByteAccessConst_error {ba : ByteAccess} {value : UInt32} {cg : Codegen}
    (h : ba.aluOps.all (fun (op, operand) => (aluInsn op operand).toOption.isSome) = false ∨
      (ba.layer = .raw ∧ cg.link = .rawIp)) :
    ∃ e, emitByteAccessConst ba value cg = .error e := by
  unfold emitByteAccessConst
  simp only [get_bind]
  have tail : ba.aluOps.all (fun (op, operand) => (aluInsn op operand).toOption.isSome) = false →
      ∀ cg', ∃ e, (do emitAluOps ba.aluOps; emitCmp ba.op value : Gen Patches) cg' = .error e := by
    intro hbad cg'
    obtain ⟨e, he⟩ := emitAluOps_error hbad cg'
    exact ⟨e, bind_error he⟩
  cases hl : ba.layer with
  | raw =>
    simp only [get_bind]
    by_cases hlink : cg.link = .rawIp
    · simp only [hlink, if_true, fail_bind]
      exact ⟨_, rfl⟩
    · simp only [hlink, if_false, loadSized, bind_run (discard_push _ _)]
      exact tail (h.resolve_right (fun h' => hlink h'.2)) _
  | net =>
    simp only [loadSized, bind_run (discard_push _ _)]
    exact tail (h.resolve_right (fun h' => by simp [hl] at h')) _
  | trans =>
    simp only [loadSized, push_bind, bind_run (discard_push _ _)]
    exact tail (h.resolve_right (fun h' => by simp [hl] at h')) _

theorem emitByteAccessLoad_emits {ba : ByteAccess} {rhs : ByteLoad} {cg : Codegen}
    (halu : ba.aluOps.all (fun (op, operand) => (aluInsn op operand).toOption.isSome) = true) :
    Emits (emitByteAccessLoad ba rhs) cg ⟨loadCode ba rhs cg.netOffset, []⟩
      ((ctxOf cg).after (loadCode ba rhs cg.netOffset)) := by
  have cmp : ∀ cg', Emits (emitCmpX ba.op) cg' _ _ := emitCmpX_emits ba.op
  have alu := emitAluOps_pushes halu
  unfold Emits emitByteAccessLoad loadCode loadSide
  simp only [get_bind]
  by_cases hl : ba.layer = .trans
  · by_cases hr : rhs.layer = .trans
    · simp only [hl, hr, decide_true, Bool.or_self, if_true, ne_eq, not_true_eq_false, if_false,
        pushes_push, bne_self_eq_false, Bool.false_eq_true, ops_append, List.append_assoc]
      exact (Pushes.single _ cg).emits fun _ => (Pushes.single _ _).emits fun cg' =>
        (alu cg').emits fun _ => (Pushes.single _ _).emits fun _ => (Pushes.single _ _).emits fun _ =>
          (Pushes.single _ _).emits cmp
    · simp only [hl, hr, decide_true, decide_false, Bool.or_false, if_true, if_false,
        pushes_push, ops_append, List.append_assoc]
      exact (Pushes.single _ cg).emits fun _ => (Pushes.single _ _).emits fun cg' =>
        (alu cg').emits fun _ => (Pushes.single _ _).emits fun _ => (Pushes.single _ _).emits fun _ =>
          (Pushes.single _ _).emits cmp
  · by_cases hr : rhs.layer = .trans
    · have hbne : (ba.layer != .trans) = true := by simpa using hl
      simp only [hl, hr, decide_true, decide_false, Bool.or_true, if_true, if_false, ne_eq,
        not_false_eq_true, hbne, pushes_push, ops_append, List.append_assoc]
      exact (Pushes.single _ cg).emits fun cg' => (alu cg').emits fun _ =>
        (Pushes.single _ _).emits fun _ => (Pushes.single _ _).emits fun _ =>
          (Pushes.single _ _).emits fun _ => (Pushes.single _ _).emits cmp
    · simp only [hl, hr, decide_false, Bool.or_self, Bool.false_eq_true, if_false,
        pushes_push, ops_append, List.append_assoc]
      exact (Pushes.single _ cg).emits fun cg' => (alu cg').emits fun _ =>
        (Pushes.single _ _).emits fun _ => (Pushes.single _ _).emits cmp

theorem emitByteAccessLoad_error {ba : ByteAccess} {rhs : ByteLoad} {cg : Codegen}
    (h : ba.aluOps.all (fun (op, operand) => (aluInsn op operand).toOption.isSome) = false) :
    ∃ e, emitByteAccessLoad ba rhs cg = .error e := by
  unfold emitByteAccessLoad
  simp only [get_bind]
  have tail : ∀ (k : Unit → Gen Patches) cg', ∃ e, (emitAluOps ba.aluOps >>= k) cg' = .error e := by
    intro k cg'
    obtain ⟨e, he⟩ := emitAluOps_error h cg'
    exact ⟨e, bind_error he⟩
  split
  · split
    · simp only [loadSized, push_bind, bind_run (discard_push _ _)]
      exact tail _ _
    · simp only [loadSized, bind_run (discard_push _ _)]
      exact tail _ _
  · simp only [loadSized, bind_run (discard_push _ _)]
    exact tail _ _

section Frames

variable (g : Guard) (ctx : Ctx)

theorem asmPortPrereqs_frame (want : L4Set) :
    (asmPortPrereqs want ctx).2.link = ctx.link ∧
      (asmPortPrereqs want ctx).2.vlanDepth = ctx.vlanDepth := by
  have prologue : (asmPortPrologue want ctx).2.link = ctx.link ∧
      (asmPortPrologue want ctx).2.vlanDepth = ctx.vlanDepth := by
    unfold asmPortPrologue
    dsimp only
    split
    · exact ⟨Ctx.after_link _ _, Ctx.after_vlanDepth _ _⟩
    · split
      · exact ⟨Ctx.after_link _ _, Ctx.after_vlanDepth _ _⟩
      · exact ⟨Ctx.after_link _ _, Ctx.after_vlanDepth _ _⟩
  unfold asmPortPrereqs
  split
  · split
    · exact ⟨rfl, rfl⟩
    · exact prologue
  · exact prologue

theorem asmGuard_frame :
    (asmGuard g ctx).2.link = ctx.link ∧ (asmGuard g ctx).2.vlanDepth = ctx.vlanDepth := by
  have ether := fun et => And.intro (asmEthertype_link et ctx) (asmEthertype_vlanDepth et ctx)
  cases g with
  | none => exact ⟨rfl, rfl⟩
  | ethertype et => exact ether et
  | ip4 n =>
    simp only [asmGuard, asmIp4L4]
    split <;> exact ether 0x0800
  | ip6 n =>
    simp only [asmGuard, asmIp6L4]
    split <;> exact ether 0x86dd
  | ports set => exact asmPortPrereqs_frame ctx set

end Frames

theorem Piece.append_nil (p : Piece) : p.append ⟨[], []⟩ = p := by
  simp [Piece.append]

theorem Piece.nil_append (c : Code) : Piece.empty.append ⟨c, []⟩ = ⟨c, []⟩ := by
  simp [Piece.append, Piece.empty]

/-- A primitive that is nothing but its guard. -/
theorem Guards.emits {m : Gen Patches} {cg : Codegen} {r : Piece × Ctx} (h : Guards m cg r) :
    Emits m cg (r.1.append ⟨[], []⟩) (r.2.after []) := by
  obtain ⟨q, cg₁, hr, hs, hb⟩ := h
  refine ⟨q, cg₁, hr, ?_⟩
  rw [hs, Piece.append_nil]
  exact hb

/-- A guard and then code that depends on no fact. -/
theorem Guards.body {m : Gen Patches} {k : Codegen → Gen Patches} {cg : Codegen}
    {r : Piece × Ctx} {c : Code} (glue : Patches → Patches → Patches) (hg : Guards m cg r)
    (hf : r.2.link = cg.link ∧ r.2.vlanDepth = cg.vlanDepth)
    (hk : ∀ cg', cg'.link = cg.link → cg'.vlanDepth = cg.vlanDepth →
      Emits (k cg') cg' ⟨c, []⟩ ((ctxOf cg').after c))
    (hglue : ∀ p q, p.success = [] → (∀ x, x ∈ (glue p q).success ↔ x ∈ q.success) ∧
      ∀ x, x ∈ (glue p q).failure ↔ x ∈ p.failure ++ q.failure) :
    Emits (m >>= fun p => get >>= fun cg => k cg >>= fun q => pure (glue p q)) cg
      (r.1.append ⟨c, []⟩) (r.2.after c) := by
  obtain ⟨p, cg₁, hr₁, hs, hb₁⟩ := hg
  have hl : cg₁.link = cg.link := by rw [← hf.1, ← hb₁.ctx]; rfl
  have hd : cg₁.vlanDepth = cg.vlanDepth := by rw [← hf.2, ← hb₁.ctx]; rfl
  obtain ⟨q, cg₂, hr₂, hb₂⟩ := hk cg₁ hl hd
  refine ⟨glue p q, cg₂, by rw [bind_run hr₁, get_bind, bind_run hr₂, pure_run], ?_⟩
  have h := hb₁.append hb₂
  rw [hb₁.ctx] at h
  obtain ⟨h₁, h₂⟩ := hglue p q hs
  exact h.congr h₁ h₂

/-- A guard and then explicit instructions. -/
theorem Guards.code {m : Gen Patches} {k : Patches → Gen Patches} {cg : Codegen}
    {r : Piece × Ctx} {c : Code} (hg : Guards m cg r)
    (hf : r.2.link = cg.link ∧ r.2.vlanDepth = cg.vlanDepth)
    (hc : ∀ a ∈ c, ∀ k n, a.slot ≠ some (k, .skip n))
    (hs : ∀ b, Frag.slots .success b c = [])
    (hk : ∀ p cg', cg'.link = cg.link → cg'.vlanDepth = cg.vlanDepth →
      k p cg' = .ok (⟨p.success, p.failure ++ Frag.slots .failure cg'.insns.length c⟩,
        c.foldl (fun cg a => pushed cg a.insn) cg')) :
    Emits (m >>= k) cg (r.1.append ⟨c, []⟩) (r.2.after c) := by
  obtain ⟨p, cg₁, hr₁, hp, hb₁⟩ := hg
  have hl : cg₁.link = cg.link := by rw [← hf.1, ← hb₁.ctx]; rfl
  have hd : cg₁.vlanDepth = cg.vlanDepth := by rw [← hf.2, ← hb₁.ctx]; rfl
  refine ⟨_, _, by rw [bind_run hr₁, hk p cg₁ hl hd], ?_⟩
  have h := hb₁.append (Built.code cg₁ c hc)
  rw [hb₁.ctx, hs] at h
  rw [hp]
  exact h

theorem extend_glue (p q : Patches) (h : p.success = []) :
    (∀ x, x ∈ (p.extend q).success ↔ x ∈ q.success) ∧
      ∀ x, x ∈ (p.extend q).failure ↔ x ∈ p.failure ++ q.failure := by
  simp [Patches.extend, h]

section Offsets

variable {cg cg' : Codegen} (hl : cg'.link = cg.link) (hd : cg'.vlanDepth = cg.vlanDepth)
include hl hd

theorem netOffset_congr : cg'.netOffset = cg.netOffset := by
  rw [Codegen.netOffset, Codegen.netOffset, hl, hd]

theorem etherProtoOffset_congr : cg'.etherProtoOffset = cg.etherProtoOffset := by
  rw [Codegen.etherProtoOffset, Codegen.etherProtoOffset, hl, hd]

end Offsets

/-- The code of a primitive, cell by cell, pushed with every slot open. -/
theorem emits_code {m : Gen Patches} {cg : Codegen} {c : Code}
    (hc : ∀ a ∈ c, ∀ k n, a.slot ≠ some (k, .skip n))
    (hr : m cg = .ok (⟨Frag.slots .success cg.insns.length c,
      Frag.slots .failure cg.insns.length c⟩, c.foldl (fun cg a => pushed cg a.insn) cg)) :
    Emits m cg ⟨c, []⟩ ((ctxOf cg).after c) :=
  ⟨_, _, hr, Built.code cg c hc⟩

theorem segsCode_length (off i : Nat) (segs : List UInt16) :
    (segsCode off i segs).length = 2 * segs.length := by
  induction segs generalizing i with
  | nil => rfl
  | cons seg segs ih =>
    simp only [segsCode, test, List.cons_append, List.nil_append, List.length_cons, ih]
    omega

theorem net6Code_length (prefixLen off i : Nat) (segs : List UInt16) :
    (net6Code prefixLen off i segs).length ≤ 3 * segs.length := by
  induction segs generalizing i with
  | nil => simp [net6Code]
  | cons seg segs ih =>
    have := ih (i + 1)
    unfold net6Code
    split
    · simp
    · split
      · simp only [test, List.cons_append, List.nil_append, List.length_cons]
        omega
      · simp only [List.cons_append, List.nil_append, List.length_cons]
        omega

theorem rawIp_of_none {cg : Codegen} : cg.etherProtoOffset = none ↔ cg.link = .rawIp := by
  cases hl : cg.link <;> simp [Codegen.etherProtoOffset, hl, LinkType.etherProtoOffset]

section Primitive

variable {cg : Codegen}

theorem guard_of_ok {p : Primitive} (hp : primOk p cg.link = true) (h : (ctxOf cg).Ok) :
    Guards (emitGuard (guardOf p)) cg (asmGuard (guardOf p) (ctxOf cg)) :=
  emitGuard_guards (Bool.and_eq_true_iff.mp hp).1 h

theorem emitHost_emits {addr : IpAddr} {dir : Dir} (hp : primOk (.host addr dir) cg.link = true)
    (h : (ctxOf cg).Ok) : Emits (emitHost addr dir) cg (asmPrimitive (.host addr dir) (ctxOf cg)).1
      (asmPrimitive (.host addr dir) (ctxOf cg)).2 := by
  have hg := guard_of_ok hp h
  cases addr with
  | v4 a =>
    refine hg.body Patches.extend (asmGuard_frame _ _) (fun cg' hl hd => ?_) extend_glue
    rw [netOffset_congr hl hd]
    exact checkAddr_emits _ _ _ _ _ cg'
  | v6 a =>
    refine hg.body Patches.extend (asmGuard_frame _ _) (fun cg' hl hd => ?_) extend_glue
    rw [netOffset_congr hl hd]
    exact checkBoth_emits (fun off cg => checkSegs_fails off 0 _ cg)
      (fun off => by rw [segsCode_length]; simp) _ _ _ _ _ cg'

theorem emitNet_emits {net : IpNet} {dir : Dir} (hp : primOk (.net net dir) cg.link = true)
    (h : (ctxOf cg).Ok) : Emits (emitNet net dir) cg (asmPrimitive (.net net dir) (ctxOf cg)).1
      (asmPrimitive (.net net dir) (ctxOf cg)).2 := by
  refine (guard_of_ok hp h).body Patches.extend (asmGuard_frame _ _) (fun cg' hl hd => ?_)
    extend_glue
  rw [netOffset_congr hl hd]
  exact checkAddr_emits _ _ _ _ _ cg'

theorem emitNet6_emits {net : Ipv6Net} {dir : Dir} (hp : primOk (.net6 net dir) cg.link = true)
    (h : (ctxOf cg).Ok) : Emits (emitNet6 net dir) cg (asmPrimitive (.net6 net dir) (ctxOf cg)).1
      (asmPrimitive (.net6 net dir) (ctxOf cg)).2 := by
  refine (guard_of_ok hp h).body Patches.extend (asmGuard_frame _ _) (fun cg' hl hd => ?_)
    extend_glue
  rw [netOffset_congr hl hd]
  exact checkBoth_emits (fun off cg => checkNet6Segs_fails _ off 0 _ cg)
    (fun off => Nat.le_trans (net6Code_length _ _ _ _) (by simp)) _ _ _ _ _ cg'

theorem emitPortPrereqs_run {proto : Option Proto} {set : L4Set} (hs : l4setFor proto = .ok set) :
    emitPortPrereqs proto = emitGuard (portsGuard proto) := by
  funext cg
  simp only [emitPortPrereqs, portsGuard, hs]
  rfl

theorem ports_of_ok {proto : Option Proto} (h : (l4setFor proto).toOption.isSome = true) :
    ∃ set, l4setFor proto = .ok set := by
  cases hs : l4setFor proto with
  | error e => simp [hs, Except.toOption] at h
  | ok set => exact ⟨set, rfl⟩

theorem emitPort_emits {port : UInt16} {dir : Dir} {proto : Option Proto}
    (hp : primOk (.port port dir proto) cg.link = true) (h : (ctxOf cg).Ok) :
    Emits (emitPort port dir proto) cg (asmPrimitive (.port port dir proto) (ctxOf cg)).1
      (asmPrimitive (.port port dir proto) (ctxOf cg)).2 := by
  obtain ⟨set, hs⟩ := ports_of_ok (Bool.and_eq_true_iff.mp hp).2
  have hg := guard_of_ok hp h
  rw [show guardOf (.port port dir proto) = portsGuard proto from rfl,
    ← emitPortPrereqs_run hs] at hg
  refine hg.body Patches.extend (asmGuard_frame _ _) (fun cg' hl hd => ?_) extend_glue
  rw [netOffset_congr hl hd]
  exact checkAddr_emits _ _ _ _ _ cg'

theorem emitPortrange_emits {lo hi : UInt16} {dir : Dir} {proto : Option Proto}
    (hp : primOk (.portRange lo hi dir proto) cg.link = true) (h : (ctxOf cg).Ok) :
    Emits (emitPortrange lo hi dir proto) cg
      (asmPrimitive (.portRange lo hi dir proto) (ctxOf cg)).1
      (asmPrimitive (.portRange lo hi dir proto) (ctxOf cg)).2 := by
  obtain ⟨set, hs⟩ := ports_of_ok (Bool.and_eq_true_iff.mp hp).2
  have hg := guard_of_ok hp h
  rw [show guardOf (.portRange lo hi dir proto) = portsGuard proto from rfl,
    ← emitPortPrereqs_run hs] at hg
  refine hg.body Patches.extend (asmGuard_frame _ _) (fun cg' hl hd => ?_) extend_glue
  rw [netOffset_congr hl hd]
  exact checkBoth_emits (checkRange_fails lo hi) (fun off => by simp [rangeCode]) _ _ _ _ _ cg'

/-- A primitive without a guard. -/
theorem emits_plain {p : Primitive} {m : Gen Patches} (hg : guardOf p = .none)
    (h : Emits m cg ⟨body p cg.link cg.vlanDepth, []⟩
      ((ctxOf cg).after (body p cg.link cg.vlanDepth))) :
    Emits m cg (asmPrimitive p (ctxOf cg)).1 (asmPrimitive p (ctxOf cg)).2 := by
  simp only [asmPrimitive, hg, asmGuard, Piece.nil_append]
  exact h

theorem emitProto_eq (p : Proto) : emitProto p = emitGuard (protoGuard p) := by
  cases p <;> rfl

/-- Every emit function of a primitive the link layer can carry puts the code of `asm` in
place. -/
theorem emitPrimitive_emits {p : Primitive} (hp : primOk p cg.link = true) (h : (ctxOf cg).Ok) :
    Emits (emitPrimitive p) cg (asmPrimitive p (ctxOf cg)).1 (asmPrimitive p (ctxOf cg)).2 := by
  have hg := guard_of_ok hp h
  have hbody := (Bool.and_eq_true_iff.mp hp).2
  cases p with
  | proto p => rw [emitPrimitive, emitProto_eq]; exact hg.emits
  | host addr dir => exact emitHost_emits hp h
  | net net dir => exact emitNet_emits hp h
  | net6 net dir => exact emitNet6_emits hp h
  | port port dir proto => exact emitPort_emits hp h
  | portRange lo hi dir proto => exact emitPortrange_emits hp h
  | etherHost addr dir =>
    have hl : ¬ cg.link = .rawIp := bne_iff_ne.mp hbody
    refine emits_plain rfl ?_
    simp only [emitPrimitive, emitEtherHost, Emits, get_bind, hl, if_false]
    exact checkBoth_emits (checkMac_fails addr) (fun off => by simp [macCode, test]) _ _ _ _ _ cg
  | etherProto et => exact hg.emits
  | etherMulticast =>
    have hl : ¬ cg.link = .rawIp := bne_iff_ne.mp hbody
    refine emits_plain rfl (emits_code (by simp [body]) ?_)
    simp only [emitPrimitive, emitEtherMulticast, get_bind, hl, if_false, push_bind, pure_run,
      pushed_insns, List.length_append, List.length_singleton]
    rfl
  | ipBroadcast =>
    refine hg.code (asmGuard_frame _ _) (by simp [body, test, jeqFail]) (fun _ => rfl)
      (fun p cg' hl hd => ?_)
    simp only [get_bind, checkWord, bind_run (checkLoad_run _ _ _), pure_run, netOffset_congr hl hd]
    rfl
  | ipMulticast =>
    refine hg.code (asmGuard_frame _ _) (by simp [body, jeqFail]) (fun _ => rfl)
      (fun p cg' hl hd => ?_)
    simp only [get_bind, push_bind, pure_run, netOffset_congr hl hd, pushed_insns,
      List.length_append, List.length_singleton]
    rfl
  | ip6Multicast =>
    refine hg.code (asmGuard_frame _ _) (by simp [body, test, jeqFail]) (fun _ => rfl)
      (fun p cg' hl hd => ?_)
    simp only [get_bind, checkByte, bind_run (checkLoad_run _ _ _), pure_run, netOffset_congr hl hd]
    rfl
  | vlan id =>
    refine hg.code (asmGuard_frame _ _) ?_ ?_ (fun p cg' hl hd => ?_)
    · cases id <;> simp [body, jeqFail]
    · cases id <;> exact fun _ => rfl
    · cases id with
      | none => simp [body]
      | some vid =>
        simp only [get_bind, push_bind, pure_run, etherProtoOffset_congr hl hd, pushed_insns,
          List.length_append, List.length_singleton]
        rfl
  | mpls label =>
    have hl : cg.link ≠ .rawIp := bne_iff_ne.mp hbody
    obtain ⟨off, hoff⟩ : ∃ off, cg.etherProtoOffset = some off :=
      Option.ne_none_iff_exists'.mp (fun hn => hl (rawIp_of_none.mp hn))
    refine emits_plain rfl ?_
    have hb : body (.mpls label) cg.link cg.vlanDepth = mplsCode label off := by
      show mplsCode label (cg.etherProtoOffset.getD 0) = _
      rw [hoff]
      rfl
    rw [hb]
    refine emits_code ?_ ?_
    · cases label <;> simp [mplsCode, jeqFail]
    · cases label with
      | none =>
        simp only [emitPrimitive, emitMpls, get_bind, hoff, push_bind, pure_run, pushed_insns,
          List.length_append, List.length_singleton]
        rfl
      | some lbl =>
        simp only [emitPrimitive, emitMpls, get_bind, hoff, push_bind, pure_run, pushed_insns,
          List.length_append, List.length_singleton]
        rfl
  | pppoeDiscovery => exact hg.emits
  | pppoeSession sid =>
    refine hg.code (asmGuard_frame _ _) ?_ ?_ (fun p cg' hl hd => ?_)
    · cases sid <;> simp [body, test, jeqFail]
    · cases sid <;> exact fun _ => rfl
    · cases sid with
      | none => simp [body]
      | some id =>
        simp only [get_bind, checkHalfword, bind_run (checkLoad_run _ _ _), pure_run,
          etherProtoOffset_congr hl hd]
        rfl
  | ipProtoChain n => exact hg.emits
  | ip6ProtoChain n => exact hg.emits
  | len op value =>
    refine emits_plain rfl ?_
    simp only [emitPrimitive, emitLen, pushes_push]
    exact (Pushes.single _ cg).emits (emitCmp_emits op value)
  | inbound => cases hbody
  | outbound => cases hbody
  | byteAccess ba =>
    refine emits_plain rfl ?_
    obtain ⟨halu, hrhs⟩ := Bool.and_eq_true_iff.mp hbody
    simp only [emitPrimitive, emitByteAccess, body]
    cases hr : ba.rhs with
    | const value =>
      refine emitByteAccessConst_emits halu ?_
      simpa [hr] using hrhs
    | load rhs => exact emitByteAccessLoad_emits halu

theorem emitPortPrereqs_error {proto : Option Proto}
    (h : (l4setFor proto).toOption.isSome = false) :
    ∃ e, emitPortPrereqs proto cg = .error e := by
  cases hs : l4setFor proto with
  | ok set => simp [hs, Except.toOption] at h
  | error e =>
    refine ⟨e, ?_⟩
    simp only [emitPortPrereqs, hs]
    rfl

/-- A primitive the link layer cannot carry is an error. -/
theorem emitPrimitive_error {p : Primitive} (hp : primOk p cg.link = false) :
    ∃ e, emitPrimitive p cg = .error e := by
  have bad : guardOk (guardOf p) cg.link = false → ∃ e, emitGuard (guardOf p) cg = .error e :=
    emitGuard_error
  have split : guardOk (guardOf p) cg.link = false ∨ bodyOk p cg.link = false :=
    Bool.and_eq_false_iff.mp hp
  have through : ∀ {m : Gen Patches} {k : Patches → Gen Patches},
      (∃ e, m cg = .error e) → ∃ e, (m >>= k) cg = .error e :=
    fun ⟨e, he⟩ => ⟨e, bind_error he⟩
  cases p with
  | proto p =>
    rw [emitPrimitive, emitProto_eq]
    exact bad (split.resolve_right (fun h => Bool.noConfusion h))
  | host addr dir =>
    have h := bad (split.resolve_right (fun h => Bool.noConfusion h))
    cases addr with
    | v4 a => exact through h
    | v6 a => exact through h
  | net net dir => exact through (bad (split.resolve_right (fun h => Bool.noConfusion h)))
  | net6 net dir => exact through (bad (split.resolve_right (fun h => Bool.noConfusion h)))
  | port port dir proto =>
    have hg : guardOk (portsGuard proto) cg.link = true := by
      unfold portsGuard
      split <;> rfl
    exact through (emitPortPrereqs_error (split.resolve_left
      (fun h => Bool.noConfusion (hg.symm.trans h))))
  | portRange lo hi dir proto =>
    have hg : guardOk (portsGuard proto) cg.link = true := by
      unfold portsGuard
      split <;> rfl
    exact through (emitPortPrereqs_error (split.resolve_left
      (fun h => Bool.noConfusion (hg.symm.trans h))))
  | etherHost addr dir =>
    have hl : cg.link = .rawIp := bne_eq_false_iff_eq.mp
      (split.resolve_left (fun h => Bool.noConfusion h))
    simp only [emitPrimitive, emitEtherHost, get_bind, hl, if_true, fail_bind]
    exact ⟨_, rfl⟩
  | etherProto et => exact bad (split.resolve_right (fun h => Bool.noConfusion h))
  | etherMulticast =>
    have hl : cg.link = .rawIp := bne_eq_false_iff_eq.mp
      (split.resolve_left (fun h => Bool.noConfusion h))
    simp only [emitPrimitive, emitEtherMulticast, get_bind, hl, if_true, fail_bind]
    exact ⟨_, rfl⟩
  | ipBroadcast => exact through (bad (split.resolve_right (fun h => Bool.noConfusion h)))
  | ipMulticast => exact through (bad (split.resolve_right (fun h => Bool.noConfusion h)))
  | ip6Multicast => exact through (bad (split.resolve_right (fun h => Bool.noConfusion h)))
  | vlan id => exact through (bad (split.resolve_right (fun h => Bool.noConfusion h)))
  | mpls label =>
    have hl : cg.link = .rawIp := bne_eq_false_iff_eq.mp
      (split.resolve_left (fun h => Bool.noConfusion h))
    simp only [emitPrimitive, emitMpls, get_bind, rawIp_of_none.mpr hl, fail_run]
    exact ⟨_, rfl⟩
  | pppoeDiscovery => exact bad (split.resolve_right (fun h => Bool.noConfusion h))
  | pppoeSession sid => exact through (bad (split.resolve_right (fun h => Bool.noConfusion h)))
  | ipProtoChain n => exact bad (split.resolve_right (fun h => Bool.noConfusion h))
  | ip6ProtoChain n => exact bad (split.resolve_right (fun h => Bool.noConfusion h))
  | len op value => exact split.elim (fun h => Bool.noConfusion h) (fun h => Bool.noConfusion h)
  | inbound => exact ⟨_, rfl⟩
  | outbound => exact ⟨_, rfl⟩
  | byteAccess ba =>
    have hb := split.resolve_left (fun h => Bool.noConfusion h)
    simp only [emitPrimitive, emitByteAccess]
    cases hr : ba.rhs with
    | const value =>
      refine emitByteAccessConst_error ?_
      rcases Bool.and_eq_false_iff.mp hb with h | h
      · exact .inl h
      · exact .inr (by simpa [hr] using h)
    | load rhs =>
      refine emitByteAccessLoad_error ?_
      rcases Bool.and_eq_false_iff.mp hb with h | h
      · exact h
      · simp [hr] at h

end Primitive

end PktBaffle.Proofs.Classic
