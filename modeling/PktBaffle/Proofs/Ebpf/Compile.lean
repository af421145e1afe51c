import PktBaffle.Proofs.Ebpf.Atoms
import PktBaffle.Proofs.Ebpf.Tree

namespace PktBaffle.Proofs.Ebpf
open PktBaffle.Ebpf Forward PktBaffle.Extended
open PktBaffle.Classic (LinkType concat mem_concat)

/-- An instruction whose displacement, if it has one, is not that of a jump. -/
def Straight (i : Insn) : Prop := i.code &&& 0x07 = bpfLdx ∨ i.off = 0

/-- Only jumps wait for a target, and filled ones reach it. -/
structure Tidy (c : Code) : Prop where
  within : Frag.Within 32767 c
  jumps : ∀ a ∈ c, a.slot ≠ none → a.insn.code &&& 0x07 = bpfJmp
  straight : ∀ a ∈ c, a.slot = none → Straight a.insn

namespace Tidy

variable {c d : Code} {i : Insn}

theorem nil : Tidy [] := ⟨Frag.within_nil, by simp, by simp⟩

theorem append (hc : Tidy c) (hd : Tidy d) : Tidy (c ++ d) := by
  refine ⟨hc.within.append hd.within, fun a ha => ?_, fun a ha => ?_⟩
  · rcases List.mem_append.mp ha with ha | ha
    · exact hc.jumps a ha
    · exact hd.jumps a ha
  · rcases List.mem_append.mp ha with ha | ha
    · exact hc.straight a ha
    · exact hd.straight a ha

theorem cons {t : Target} (hn : ∀ n, t = .skip n → n ≤ 32767) (hj : i.code &&& 0x07 = bpfJmp)
    (hc : Tidy c) : Tidy (⟨i, some ((), t)⟩ :: c) := by
  refine ⟨hc.within.cons fun k n hs => ?_, fun b hb hs => ?_, fun b hb hs => ?_⟩
  · simp only [Option.some.injEq, Prod.mk.injEq] at hs
    exact hn n hs.2
  · rcases List.mem_cons.mp hb with rfl | hb
    · exact hj
    · exact hc.jumps b hb hs
  · rcases List.mem_cons.mp hb with rfl | hb
    · cases hs
    · exact hc.straight b hb hs

theorem ops {is : List Insn} (h : ∀ i ∈ is, Straight i) : Tidy (ops is) := by
  refine ⟨fun a ha k n hn => ?_, fun a ha hs => ?_, fun a ha hs => ?_⟩
  · obtain ⟨i, -, rfl⟩ := List.mem_map.mp ha
    cases hn
  · obtain ⟨i, -, rfl⟩ := List.mem_map.mp ha
    exact absurd rfl hs
  · obtain ⟨i, hi, rfl⟩ := List.mem_map.mp ha
    exact h i hi

theorem hole (x : Exit) (hi : i.code &&& 0x07 = bpfJmp) : Tidy [.hole i () x] :=
  cons (by simp) hi nil

theorem class_new {code dst src : UInt8} {off : Int16} {imm : Int32}
    (h : code &&& 0x07 = bpfJmp) : (Insn.new code dst src off imm).code &&& 0x07 = bpfJmp := h

theorem test (h : IsTest i) : i.code &&& 0x07 = bpfJmp := by
  cases h <;> exact class_new (by decide)

theorem ja : (Insn.ja 0).code &&& 0x07 = bpfJmp := class_new (by decide)

theorem beyond : (Insn.jgtReg r5 r3 0).code &&& 0x07 = bpfJmp := class_new (by decide)

/-- A jump filled at once. -/
theorem filled {k : Nat} (hi : i.code &&& 0x07 = bpfJmp) (hk : k ≤ 32767) (hc : Tidy c) :
    Tidy (⟨i, some ((), .skip k)⟩ :: c) := by
  refine cons (fun n hn => ?_) hi hc
  cases hn
  exact hk

theorem resolve {x : Exit} {n : Nat} (hc : Tidy c) (h : Frag.Within 32767 (Frag.resolve x n c)) :
    Tidy (Frag.resolve x n c) := by
  refine ⟨h, fun a ha hs => ?_, fun a ha hs => ?_⟩
  · obtain ⟨b, hb, m, -, rfl⟩ := Frag.mem_resolve ha
    rw [Cell.fill_insn]
    refine hc.jumps b hb fun hn => hs ?_
    simp [Cell.fill, hn]
  · obtain ⟨b, hb, m, -, rfl⟩ := Frag.mem_resolve ha
    rw [Cell.fill_insn]
    exact hc.straight b hb (Cell.fill_none.mp hs)

theorem fold (hc : Tidy c) : Tidy (Frag.fold c) := by
  refine ⟨hc.within.fold, fun a ha hs => ?_, fun a ha hs => ?_⟩
  · obtain ⟨b, hb, rfl⟩ := List.mem_map.mp ha
    rw [Cell.fold_insn]
    refine hc.jumps b hb fun hn => hs ?_
    simp [Cell.fold, hn]
  · obtain ⟨b, hb, rfl⟩ := List.mem_map.mp ha
    rw [Cell.fold_insn]
    exact hc.straight b hb (Cell.fold_none.mp hs)

theorem straight_new {code dst src : UInt8} {imm : Int32} :
    Straight (.new code dst src 0 imm) := .inr rfl

theorem straight_ldx {code dst src : UInt8} {off : Int16} {imm : Int32}
    (h : code &&& 0x07 = bpfLdx) : Straight (.new code dst src off imm) := .inl h

theorem straight_ldxBe (size : AccessSize) (src : UInt8) (off : Int16) :
    ∀ i ∈ ldxBe size r4 src off, Straight i := by
  intro i hi
  cases size with
  | byte =>
    rcases List.mem_singleton.mp hi with rfl
    exact straight_ldx (by decide)
  | half =>
    simp only [ldxBe, ldxHBe, List.mem_cons, List.not_mem_nil, or_false] at hi
    rcases hi with rfl | rfl
    · exact straight_ldx (by decide)
    · exact straight_new
  | word =>
    simp only [ldxBe, ldxWBe, List.mem_cons, List.not_mem_nil, or_false] at hi
    rcases hi with rfl | rfl
    · exact straight_ldx (by decide)
    · exact straight_new

theorem op (h : Straight i) : Tidy [.op i] :=
  @ops [i] fun _ hj => List.mem_singleton.mp hj ▸ h

theorem load (size : AccessSize) (off : Nat) : Tidy (loadCode size off) :=
  (((op straight_new).append (op straight_new)).append (hole .failure beyond)).append
    (ops (straight_ldxBe _ _ _))

theorem bound (k : Int32) : Tidy (r6Code k) :=
  ((op straight_new).append (op straight_new)).append (hole .failure beyond)

theorem pointer (n : Nat) : Tidy (Ebpf.ops (transportPointer n)) :=
  (op straight_new).append ((op straight_new).append ((op straight_new).append
    ((op straight_new).append (op straight_new))))

theorem atoms : Atoms fun _ c _ => Tidy c where
  nil _ := nil
  append := append
  load _ size off _ := load size off
  failing _ _ h := hole .failure (test h)
  leaving _ _ h := hole .success (test h)
  either _ i j hi hj := by
    refine filled (test hi) (by simp) (hole .failure ?_)
    rcases hj with hj | rfl
    · exact test hj
    · exact ja
  branch hc hd lc ld :=
    filled (test (.jeq _)) (by omega) (hc.append (filled ja (by omega) hd))
  alt hc hd lc :=
    (hc.resolve (hc.within.resolve_short _ (by omega))).append (cons (by simp) ja hd)
  mask _ _ := op straight_new
  shift _ := op straight_new
  pointer _ n _ := pointer n
  fixed _ _ _ := (op straight_new).append (op straight_new)
  bound _ k := bound k
  port _ := ops (straight_ldxBe .half _ _)
  length _ := (op straight_new).append (op straight_new)

end Tidy

/-- The arithmetic of a byte access is one instruction per step. -/
theorem aluCode_mem {steps : List (ArithOp × UInt32)} {is : List Insn} (h : aluCode steps = .ok is)
    {i : Insn} (hi : i ∈ is) : ∃ s ∈ steps, ebpfAlu32 s.1 r4 s.2.toInt32 = .ok i := by
  induction steps generalizing is with
  | nil =>
    cases h
    cases hi
  | cons s steps ih =>
    obtain ⟨op, k⟩ := s
    cases hs : ebpfAlu32 op r4 k.toInt32 with
    | error e => simp [aluCode, hs] at h
    | ok j =>
      cases hr : aluCode steps with
      | error e => simp [aluCode, hs, hr] at h
      | ok js =>
        simp only [aluCode, hs, hr, Except.ok.injEq] at h
        subst h
        rcases List.mem_cons.mp hi with rfl | hi
        · exact ⟨_, List.mem_cons_self, hs⟩
        · obtain ⟨s', hm, he⟩ := ih hr hi
          exact ⟨s', List.mem_cons_of_mem _ hm, he⟩

theorem ebpfAlu32_straight {op : ArithOp} {k : Int32} {i : Insn} (h : ebpfAlu32 op r4 k = .ok i) :
    Straight i := by
  cases op with
  | div =>
    simp only [ebpfAlu32] at h
    split at h
    · cases h
    · cases h
      exact Tidy.straight_new
  | mod => cases h
  | _ => cases h; exact Tidy.straight_new

theorem byteAccess_tidy {link : LinkType} {ba : ByteAccess} {c : Code}
    (hc : byteAccessCode link ba = .ok c) : Whole (fun _ c _ => Tidy c) c := by
  obtain ⟨value, is, -, ha, hshape⟩ := byteAccessCode_ok hc
  have halu : Tidy (ops is) := Tidy.ops fun i hi => by
    obtain ⟨s, -, hs⟩ := aluCode_mem ha hi
    exact ebpfAlu32_straight hs
  obtain ⟨-, -, rfl⟩ | ⟨-, -, rfl⟩ := hshape
  · exact Tidy.atoms.access value (fun _ => ⟨none, (((Tidy.load ..).append (Tidy.pointer _)).append
      (Tidy.bound _)).append (Tidy.ops (Tidy.straight_ldxBe _ _ _))⟩) fun _ => halu
  · exact Tidy.atoms.access value (fun _ => ⟨none, Tidy.load ..⟩) fun _ => halu

theorem leaf_tidy {link : LinkType} {p : Primitive} {c : Code} (hc : leafCode link p = .ok c) :
    Tidy c := by
  obtain ⟨-, h⟩ := Tidy.atoms.leaf hc (fun ba hp => byteAccess_tidy (by rw [hp] at hc; exact hc)) none
  exact h

/-- The slots of a list all reach `t`. -/
theorem within_of_reach {x : Exit} {pre : Nat} {c : Code} {ps : List Patch} {d : Nat} (hc : Tidy c)
    (hps : ∀ q, q ∈ ps ↔ q ∈ Frag.slots x pre c)
    (h : ∀ q ∈ ps, q.2 < pre + c.length + d ∧ pre + c.length + d - q.2 - 1 ≤ 32767) :
    Frag.Within 32767 (Frag.resolve x d c) :=
  hc.within.resolve fun q hq => (h q ((hps q).mpr hq)).2

/-- What a run of the generator that ends well has put there. -/
structure Built (e : Expr) (cg cg' : Codegen) (q : Patches) : Prop where
  keeps : cg'.link = cg.link
  code : ∃ c, exprCode cg.link e = .ok c ∧ Tidy c ∧
    Placed Insn.put cg.insns cg'.insns q.success q.failure c

theorem placed_ja (cg : Codegen) : (placed cg [.op (.ja 0)]).insns = cg.insns ++ [.ja 0] := rfl

theorem emitTree_ok {e : Expr} {cg cg' : Codegen} {q : Patches}
    (h : emitTree e cg = .ok (q, cg')) : Built e cg cg' q := by
  induction e generalizing cg cg' q with
  | primitive p =>
    have hy := emitPrimitive_yields cg p
    change emitPrimitive p cg = _ at h
    cases hc : leafCode cg.link p with
    | error e =>
      rw [hc] at hy
      rw [show emitPrimitive p cg = .error e from hy] at h
      cases h
    | ok c =>
      rw [hc] at hy
      obtain ⟨q, hq, hs, hf⟩ := hy
      rw [hq] at h
      cases h
      exact ⟨rfl, c, hc, leaf_tidy hc, rfl, hs, hf⟩
  | and l r ihl ihr =>
    obtain ⟨pl, cg₁, h₁, h⟩ := bind_inv h
    rw [insnsLen_bind] at h
    obtain ⟨_, cg₂, h₂, h⟩ := bind_inv h
    obtain ⟨pr, cg₃, h₃, h⟩ := bind_inv h
    cases h
    obtain ⟨hreach, he⟩ := resolveAll_inv _ h₂
    cases he
    obtain ⟨link₁, c, hc, tc, placed₁⟩ := ihl h₁
    obtain ⟨link₂, d, hd, td, placed₂⟩ := ihr h₃
    have hlink : (⟨patchAll Insn.put pl.success cg₁.insns.length cg₁.insns, cg₁.link⟩ :
      Codegen).link = cg.link := link₁
    rw [hlink] at hd
    refine ⟨link₂.trans hlink, Frag.seq c d, by simp [exprCode, hc, hd], ?_, ?_⟩
    · rw [placed₁.length, ← Nat.add_zero (cg.insns.length + c.length)] at hreach
      exact (tc.resolve (within_of_reach tc placed₁.success hreach)).append td
    · refine (placed₁.seq Insn.put_put placed₂).congr (fun _ => Iff.rfl) fun q => ?_
      rw [mem_concat, List.mem_append]
  | or l r ihl ihr =>
    obtain ⟨pl, cg₁, h₁, h⟩ := bind_inv h
    rw [bind_run (push_op cg₁ _), insnsLen_bind] at h
    obtain ⟨_, cg₂, h₂, h⟩ := bind_inv h
    obtain ⟨pr, cg₃, h₃, h⟩ := bind_inv h
    cases h
    obtain ⟨hreach, he⟩ := resolveAll_inv _ h₂
    cases he
    obtain ⟨link₁, c, hc, tc, placed₁⟩ := ihl h₁
    obtain ⟨link₂, d, hd, td, placed₂⟩ := ihr h₃
    rw [placed_ja] at placed₂ hreach
    have hlink : (placed cg₁ [.op (.ja 0)]).link = cg.link := link₁
    refine ⟨link₂.trans hlink, Frag.alt (Cell.hole (.ja 0) ()) c d, ?_, ?_, ?_⟩
    · have hd' : exprCode cg.link r = .ok d := hlink ▸ hd
      simp [exprCode, hc, hd']
    · rw [List.length_append, List.length_singleton, placed₁.length] at hreach
      exact (tc.resolve (within_of_reach tc placed₁.failure hreach)).append
        (Tidy.cons (by simp) Tidy.ja td)
    · rw [List.length_append, List.length_singleton] at placed₂
      refine (placed₁.alt Insn.put_put placed₂).congr (fun q => ?_) (fun _ => Iff.rfl)
      rw [mem_concat]
      simp
  | not e ih =>
    obtain ⟨pe, cg₁, h₁, h⟩ := bind_inv h
    rw [bind_run (push_op cg₁ _), insnsLen_bind] at h
    obtain ⟨_, cg₂, h₂, h⟩ := bind_inv h
    cases h
    obtain ⟨hreach, he⟩ := resolveAll_inv _ h₂
    cases he
    obtain ⟨link₁, c, hc, tc, placed₁⟩ := ih h₁
    rw [placed_ja] at hreach
    refine ⟨link₁, Frag.neg (Cell.hole (.ja 0) ()) c, by simp [exprCode, hc, Except.map], ?_, ?_⟩
    · rw [List.length_append, List.length_singleton, placed₁.length] at hreach
      exact (tc.resolve (within_of_reach tc placed₁.failure hreach)).fold.append
        (Tidy.hole .failure Tidy.ja)
    · show Placed Insn.put cg.insns (patchAll Insn.put pe.failure _ _) _ _ _
      rw [placed_ja, List.length_append, List.length_singleton]
      exact placed₁.neg Insn.put_put

def prologue : List Insn := [.ldxW r2 r1 0, .ldxW r3 r1 4]

def epilogue : List Insn := [.mov64Imm r0 xdpPass, .exit, .mov64Imm r0 xdpDrop, .exit]

/-- The finished program: both exits lead to their verdict. -/
def program (c : Code) : Code :=
  ops prologue ++ (Frag.resolve .failure 2 (Frag.resolve .success 0 c) ++ ops epilogue)

theorem prologue_tidy : Tidy (ops prologue) :=
  (Tidy.op (Tidy.straight_ldx (by decide))).append (Tidy.op (Tidy.straight_ldx (by decide)))

theorem epilogue_tidy : Tidy (ops epilogue) :=
  (Tidy.op Tidy.straight_new).append ((Tidy.op Tidy.straight_new).append
    ((Tidy.op Tidy.straight_new).append (Tidy.op Tidy.straight_new)))

theorem map_raw_ops (is : List Insn) : (ops is).map (Cell.raw Insn.put) = is := by
  rw [ops, List.map_map]
  exact List.map_id _

/-- A program in which every jump has its target. -/
structure Finished (c : Code) : Prop where
  tidy : Tidy c
  filled : ∀ a ∈ c, ∀ k x, a.slot ≠ some (k, .exit x)

theorem program_filled (c : Code) : ∀ a ∈ program c, ∀ k x, a.slot ≠ some (k, .exit x) := by
  intro a ha k x
  have hop : ∀ is, a ∈ ops is → a.slot ≠ some (k, .exit x) := by
    intro is hi
    obtain ⟨i, -, rfl⟩ := List.mem_map.mp hi
    simp
  rcases List.mem_append.mp ha with ha | ha
  · exact hop _ ha
  · rcases List.mem_append.mp ha with ha | ha
    · cases x with
      | failure => exact Frag.resolve_no_exit ha k
      | success => exact Frag.resolve_keeps_no_exit (fun b hb => Frag.resolve_no_exit hb) ha k
    · exact hop _ ha

/-- What `compile` returns. -/
theorem compile_ok {e : Expr} {link : LinkType} {prog : List Insn}
    (h : compile e link = .ok prog) :
    ∃ c, exprCode link e = .ok c ∧ Finished (program c) ∧
      prog = (program c).map (Cell.raw Insn.put) := by
  unfold compile at h
  cases hp : emitProgram e (Codegen.new link) with
  | error err =>
    rw [hp] at h
    cases h
  | ok r =>
    rw [hp] at h
    cases h
    have h₀ : emitPrologue (Codegen.new link) = .ok ((), placed (Codegen.new link) (ops prologue)) :=
      pushAll_run ..
    unfold emitProgram at hp
    rw [bind_run h₀, emitExpr_tree] at hp
    obtain ⟨q, cg₁, h₁, hp⟩ := bind_inv hp
    obtain ⟨-, c, hc, tc, placed₁⟩ := emitTree_ok h₁
    rw [insnsLen_bind, bind_run (pushAll_run cg₁ _), insnsLen_bind, bind_run (pushAll_run _ _)] at hp
    obtain ⟨_, cg₂, h₂, h₃⟩ := bind_inv hp
    obtain ⟨hs, he⟩ := resolveAll_inv _ h₂
    cases he
    obtain ⟨hf, he⟩ := resolveAll_inv _ h₃
    cases he
    have hpre : (placed (Codegen.new link) (ops prologue)).insns = prologue := rfl
    rw [hpre] at placed₁
    have hlen : cg₁.insns.length = prologue.length + c.length := placed₁.length
    have hlen₂ : (placed cg₁ (ops [.mov64Imm r0 xdpPass, .exit])).insns.length =
        prologue.length + c.length + 2 := by
      rw [placed_length, hlen]
      rfl
    have hall : (placed (placed cg₁ (ops [.mov64Imm r0 xdpPass, .exit]))
        (ops [.mov64Imm r0 xdpDrop, .exit])).insns =
        prologue ++ c.map (Cell.raw Insn.put) ++ epilogue := by
      rw [placed_placed]
      show cg₁.insns ++ List.map (Cell.raw Insn.put) (ops epilogue) = _
      rw [map_raw_ops, placed₁.code]
    rw [hlen₂] at hf
    rw [hlen] at hs
    have ts := tc.resolve (x := .success) (n := 0)
      (within_of_reach tc placed₁.success (by rwa [Nat.add_zero]))
    have hfail : ∀ q', q' ∈ q.failure ↔
        q' ∈ Frag.slots .failure prologue.length (Frag.resolve .success 0 c) := by
      intro q'
      rw [placed₁.failure, Frag.slots_resolve_other (by decide)]
    have tf := ts.resolve (x := .failure) (n := 2)
      (within_of_reach ts hfail (by rwa [Frag.resolve_length]))
    refine ⟨c, hc, ⟨prologue_tidy.append (tf.append epilogue_tidy), program_filled c⟩, ?_⟩
    show patchAll Insn.put q.failure _ (patchAll Insn.put q.success _ _) = _
    rw [hall, hlen, hlen₂]
    have hps := patchAll_resolve Insn.put Insn.put_put .success 0 prologue epilogue c q.success
      placed₁.success
    have hpf := patchAll_resolve Insn.put Insn.put_put .failure 2 prologue epilogue _ q.failure hfail
    rw [Nat.add_zero] at hps
    rw [Frag.resolve_length] at hpf
    rw [hps, hpf]
    simp only [program, List.map_append, map_raw_ops, List.append_assoc]

/-- An error that the source returns, not a panic. -/
def Refused (err : Error) : Prop := ∃ message, err = .codegenError message

section Errors

variable {link : LinkType} {err : Error}

theorem refused_map {r : Except Error Code} {f : Code → Code} (h : r.map f = .error err)
    (hr : ∀ e, r = .error e → Refused e) : Refused err := by
  cases r with
  | error e' =>
    cases h
    exact hr err rfl
  | ok c => cases h

theorem etherCode_error {et : UInt32} (h : etherCode link et = .error err) : Refused err := by
  unfold etherCode at h
  split at h
  · cases h
  · split at h
    · cases h
    · cases h
      exact ⟨_, rfl⟩

theorem guarded_error {et : UInt32} {f : Code → Code} (h : (etherCode link et).map f = .error err) :
    Refused err :=
  refused_map h fun _ => etherCode_error

theorem dualL4Code_error {n : UInt8} (h : dualL4Code link n = .error err) : Refused err := by
  unfold dualL4Code at h
  split at h
  · exact guarded_error h
  · cases h

theorem protoCode_error {p : Proto} (h : protoCode link p = .error err) : Refused err := by
  cases p with
  | ip => exact etherCode_error h
  | ip6 => exact etherCode_error h
  | arp => exact etherCode_error h
  | rarp => exact etherCode_error h
  | tcp => exact dualL4Code_error h
  | udp => exact dualL4Code_error h
  | sctp => exact dualL4Code_error h
  | icmp => exact guarded_error h
  | igmp => exact guarded_error h
  | icmp6 => exact guarded_error h
  | num n => exact guarded_error h
  | ip6Proto n => exact guarded_error h

theorem l4ProtoCode_error {off : Nat} {proto : Option Proto}
    (h : l4ProtoCode off proto = .error err) : Refused err := by
  rcases proto with _ | p
  · cases h
  · cases p with
    | tcp => cases h
    | udp => cases h
    | sctp => cases h
    | _ => cases h; exact ⟨_, rfl⟩

theorem portPrereqsCode_error {proto : Option Proto} (h : portPrereqsCode link proto = .error err) :
    Refused err := by
  unfold portPrereqsCode at h
  split at h
  · cases hg : etherCode link 0x0800 with
    | error e =>
      rw [hg] at h
      cases h
      exact etherCode_error hg
    | ok g =>
      cases hl : l4ProtoCode (link.netOffset + 9) proto with
      | error e =>
        rw [hg, hl] at h
        cases h
        exact l4ProtoCode_error hl
      | ok l =>
        rw [hg, hl] at h
        cases h
  · cases h6 : l4ProtoCode (link.netOffset + 6) proto with
    | error e =>
      rw [h6] at h
      cases h
      exact l4ProtoCode_error h6
    | ok l6 =>
      cases h4 : l4ProtoCode (link.netOffset + 9) proto with
      | error e =>
        rw [h6, h4] at h
        cases h
        exact l4ProtoCode_error h4
      | ok l4 =>
        rw [h6, h4] at h
        cases h

theorem noRawIp_error {message : String} {c : Code} (h : noRawIp link message c = .error err) :
    Refused err := by
  unfold noRawIp at h
  split at h
  · cases h
    exact ⟨_, rfl⟩
  · cases h

theorem aluCode_error {steps : List (ArithOp × UInt32)} (h : aluCode steps = .error err) :
    Refused err := by
  induction steps with
  | nil => cases h
  | cons s steps ih =>
    obtain ⟨op, k⟩ := s
    simp only [aluCode] at h
    split at h
    · cases h
    · rename_i hr
      cases h
      exact ih hr
    · rename_i he
      cases h
      cases op with
      | div =>
        simp only [ebpfAlu32] at he
        split at he
        · cases he
          exact ⟨_, rfl⟩
        · cases he
      | mod => cases he; exact ⟨_, rfl⟩
      | _ => cases he

/-- A byte access is refused, or the end of its bytes overflows. -/
theorem byteAccessCode_error {ba : ByteAccess} (h : byteAccessCode link ba = .error err) :
    Refused err ∨ (err = overflow ∧ ¬Reaches link ba) := by
  have hsize : AccessSize.bytes ba.size ≤ 4 := by cases ba.size <;> decide
  unfold byteAccessCode at h
  cases hrhs : ba.rhs with
  | load l =>
    rw [hrhs] at h
    cases h
    exact .inl ⟨_, rfl⟩
  | const value =>
    rw [hrhs] at h
    dsimp only at h
    by_cases ht : ba.layer = .trans
    · rw [if_pos ht] at h
      split at h
      · cases ha : aluCode ba.aluOps with
        | error e =>
          rw [ha] at h
          cases h
          exact .inl (aluCode_error ha)
        | ok is =>
          rw [ha] at h
          cases h
      · rename_i hlt
        cases h
        refine .inr ⟨rfl, fun hr => hlt ?_⟩
        obtain ⟨-, hle⟩ := hr
        omega
    · rw [if_neg ht] at h
      change (if layerBase link ba + _ + _ < 2 ^ 32 then _ else _) = _ at h
      split at h
      · cases ha : aluCode ba.aluOps with
        | error e =>
          rw [ha] at h
          cases h
          exact .inl (aluCode_error ha)
        | ok is =>
          rw [ha] at h
          cases h
      · rename_i hlt
        cases h
        refine .inr ⟨rfl, fun hr => hlt ?_⟩
        obtain ⟨h0, hle⟩ := hr
        obtain ⟨n, hn⟩ := Int.eq_ofNat_of_zero_le h0
        obtain ⟨hu, -, -⟩ := offset_narrow hn
        rw [hu]
        omega

/-- Why a primitive has no code. -/
theorem leafCode_error {p : Primitive} (h : leafCode link p = .error err) :
    Refused err ∨ (err = overflow ∧ ∃ ba, p = .byteAccess ba ∧ ¬Reaches link ba) := by
  cases p with
  | byteAccess ba =>
    rcases byteAccessCode_error h with hr | ⟨he, hr⟩
    · exact .inl hr
    · exact .inr ⟨he, ba, rfl, hr⟩
  | proto p => exact .inl (protoCode_error h)
  | host a dir => cases a <;> exact .inl (guarded_error h)
  | net net dir => exact .inl (guarded_error h)
  | net6 net dir => exact .inl (guarded_error h)
  | port port dir proto => exact .inl (refused_map h fun _ => portPrereqsCode_error)
  | portRange lo hi dir proto => exact .inl (refused_map h fun _ => portPrereqsCode_error)
  | etherHost addr dir => exact .inl (noRawIp_error h)
  | etherProto et => exact .inl (etherCode_error h)
  | etherMulticast => exact .inl (noRawIp_error h)
  | ipBroadcast => exact .inl (guarded_error h)
  | ipMulticast => exact .inl (guarded_error h)
  | ip6Multicast => exact .inl (guarded_error h)
  | vlan id =>
    rcases id with _ | vid
    · exact .inl (etherCode_error h)
    · exact .inl (guarded_error h)
  | mpls label =>
    cases ho : link.etherProtoOffset with
    | none =>
      simp only [leafCode, ho, Except.error.injEq] at h
      exact .inl ⟨_, h.symm⟩
    | some off => cases label <;> simp [leafCode, ho] at h
  | pppoeDiscovery => exact .inl (etherCode_error h)
  | pppoeSession id =>
    rcases id with _ | id
    · exact .inl (etherCode_error h)
    · exact .inl (guarded_error h)
  | ipProtoChain n => exact .inl (guarded_error h)
  | ip6ProtoChain n => exact .inl (guarded_error h)
  | len op value => cases h
  | inbound => cases h; exact .inl ⟨_, rfl⟩
  | outbound => cases h; exact .inl ⟨_, rfl⟩

/-- Slots behind which their target stands can only be too far away. -/
theorem resolveAll_error {ps : List Patch} {t : Nat} {cg : Codegen}
    (hps : ∀ q ∈ ps, q.2 < t ∧ q.2 < cg.insns.length) (h : resolveAll ps t cg = .error err) :
    Refused err := by
  induction ps generalizing cg with
  | nil => cases h
  | cons q ps ih =>
    obtain ⟨hlt, hin⟩ := hps q List.mem_cons_self
    change (resolve q t >>= fun _ => resolveAll ps t) cg = _ at h
    by_cases hfar : t - q.2 - 1 ≤ 32767
    · rw [bind_run (resolve_run cg hlt hfar hin)] at h
      refine ih (fun r hr => ?_) h
      obtain ⟨h₁, h₂⟩ := hps r (List.mem_cons_of_mem _ hr)
      exact ⟨h₁, by rw [patchAll_length]; exact h₂⟩
    · have hr : resolve q t cg = .error
          (.codegenError "filter expression is too complex: eBPF jump offset overflow") := by
        unfold resolve
        rw [if_neg (by omega), if_pos (by omega)]
      rw [bind_error hr] at h
      cases h
      exact ⟨_, rfl⟩

/-- Some byte access of the expression does not fit its load. -/
def Strays (link : LinkType) (e : Expr) : Prop :=
  ∃ ba, .byteAccess ba ∈ e.leaves ∧ ¬Reaches link ba

theorem Strays.mono {e e' : Expr} (h : Strays link e) (hl : ∀ p ∈ e.leaves, p ∈ e'.leaves) :
    Strays link e' := by
  obtain ⟨ba, hb, hr⟩ := h
  exact ⟨ba, hl _ hb, hr⟩

theorem emitTree_error {e : Expr} {cg : Codegen} (h : emitTree e cg = .error err) :
    Refused err ∨ (err = overflow ∧ Strays cg.link e) := by
  induction e generalizing cg with
  | primitive p =>
    have hy := emitPrimitive_yields cg p
    change emitPrimitive p cg = _ at h
    cases hc : leafCode cg.link p with
    | error e' =>
      rw [hc] at hy
      rw [show emitPrimitive p cg = .error e' from hy] at h
      cases h
      rcases leafCode_error hc with hr | ⟨he, ba, hp, hr⟩
      · exact .inl hr
      · exact .inr ⟨he, ba, by simp [Expr.leaves, hp], hr⟩
    | ok c =>
      rw [hc] at hy
      obtain ⟨q, hq, -, -⟩ := hy
      rw [hq] at h
      cases h
  | and l r ihl ihr =>
    rcases bind_error_inv h with h | ⟨pl, cg₁, h₁, h⟩
    · refine (ihl h).imp_right fun hstrays => ⟨hstrays.1, hstrays.2.mono fun _ hp => ?_⟩
      exact List.mem_append_left _ hp
    rw [insnsLen_bind] at h
    obtain ⟨link₁, c, -, -, placed₁⟩ := emitTree_ok h₁
    rcases bind_error_inv h with h | ⟨_, cg₂, h₂, h⟩
    · exact .inl (resolveAll_error (fun q hq => ⟨placed₁.slot_lt (.inl hq), placed₁.slot_lt (.inl hq)⟩) h)
    obtain ⟨-, he⟩ := resolveAll_inv _ h₂
    cases he
    rcases bind_error_inv h with h | ⟨pr, cg₃, -, h⟩
    · refine (ihr h).imp_right fun hstrays => ⟨hstrays.1, Strays.mono ?_ fun _ hp =>
        List.mem_append_right _ hp⟩
      have hs := hstrays.2
      rwa [show (⟨patchAll Insn.put pl.success cg₁.insns.length cg₁.insns, cg₁.link⟩ :
        Codegen).link = cg.link from link₁] at hs
    · cases h
  | or l r ihl ihr =>
    rcases bind_error_inv h with h | ⟨pl, cg₁, h₁, h⟩
    · refine (ihl h).imp_right fun hstrays => ⟨hstrays.1, hstrays.2.mono fun _ hp => ?_⟩
      exact List.mem_append_left _ hp
    rw [bind_run (push_op cg₁ _), insnsLen_bind] at h
    obtain ⟨link₁, c, -, -, placed₁⟩ := emitTree_ok h₁
    rcases bind_error_inv h with h | ⟨_, cg₂, h₂, h⟩
    · refine .inl (resolveAll_error (fun q hq => ?_) h)
      have hlt := placed₁.slot_lt (.inr hq)
      rw [placed_length]
      exact ⟨Nat.lt_add_right _ hlt, Nat.lt_add_right _ hlt⟩
    obtain ⟨-, he⟩ := resolveAll_inv _ h₂
    cases he
    rcases bind_error_inv h with h | ⟨pr, cg₃, -, h⟩
    · refine (ihr h).imp_right fun hstrays => ⟨hstrays.1, Strays.mono ?_ fun _ hp =>
        List.mem_append_right _ hp⟩
      have hs := hstrays.2
      rwa [show (Codegen.mk _ (placed cg₁ [.op (.ja 0)]).link).link = cg.link from link₁] at hs
    · cases h
  | not e ih =>
    rcases bind_error_inv h with h | ⟨pe, cg₁, h₁, h⟩
    · exact ih h
    rw [bind_run (push_op cg₁ _), insnsLen_bind] at h
    obtain ⟨link₁, c, -, -, placed₁⟩ := emitTree_ok h₁
    rcases bind_error_inv h with h | ⟨_, cg₂, h₂, h⟩
    · refine .inl (resolveAll_error (fun q hq => ?_) h)
      have hlt := placed₁.slot_lt (.inr hq)
      rw [placed_length]
      exact ⟨Nat.lt_add_right _ hlt, Nat.lt_add_right _ hlt⟩
    · cases h

/-- Why `compile` does not return a program. -/
theorem compile_error {e : Expr} (h : compile e link = .error err) :
    Refused err ∨ (err = overflow ∧ Strays link e) := by
  unfold compile at h
  cases hp : emitProgram e (Codegen.new link) with
  | ok r =>
    rw [hp] at h
    cases h
  | error e' =>
    rw [hp] at h
    cases h
    have h₀ : emitPrologue (Codegen.new link) = .ok ((), placed (Codegen.new link) (ops prologue)) :=
      pushAll_run ..
    unfold emitProgram at hp
    rw [bind_run h₀, emitExpr_tree] at hp
    rcases bind_error_inv hp with hp | ⟨q, cg₁, h₁, hp⟩
    · exact emitTree_error hp
    obtain ⟨-, c, -, -, placed₁⟩ := emitTree_ok h₁
    rw [insnsLen_bind, bind_run (pushAll_run cg₁ _), insnsLen_bind, bind_run (pushAll_run _ _)] at hp
    rcases bind_error_inv hp with hp | ⟨_, cg₂, h₂, hp⟩
    · refine .inl (resolveAll_error (fun q hq => ?_) hp)
      have hlt := placed₁.slot_lt (.inl hq)
      rw [placed_length, placed_length]
      exact ⟨hlt, by omega⟩
    · obtain ⟨-, he⟩ := resolveAll_inv _ h₂
      cases he
      refine .inl (resolveAll_error (fun q hq => ?_) hp)
      have hlt := placed₁.slot_lt (.inr hq)
      simp only [patchAll_length, placed_length]
      exact ⟨by omega, by omega⟩

end Errors

section Short

variable {link : LinkType}

theorem resolveAll_short (cg : Codegen) (ps : List Patch) (t : Nat)
    (h : ∀ q ∈ ps, q.2 < t ∧ t - q.2 - 1 ≤ 32767 ∧ q.2 < cg.insns.length) :
    ∃ cg', resolveAll ps t cg = .ok ((), cg') ∧ cg'.insns.length = cg.insns.length :=
  ⟨_, resolveAll_run cg h, patchAll_length ..⟩

/-- The generator finishes where its open jumps reach the end. -/
theorem compile_of_tree {e : Expr} {q : Patches} {cg : Codegen}
    (h : emitTree e (placed (Codegen.new link) (ops prologue)) = .ok (q, cg))
    (hq : ∀ r, r ∈ q.success ∨ r ∈ q.failure →
      r.2 < cg.insns.length ∧ cg.insns.length + 1 - r.2 ≤ 32767) :
    ∃ prog, compile e link = .ok prog ∧ prog.length = cg.insns.length + 4 := by
  have h₀ : emitPrologue (Codegen.new link) = .ok ((), placed (Codegen.new link) (ops prologue)) :=
    pushAll_run ..
  have hpass : (placed cg (ops [.mov64Imm r0 xdpPass, .exit])).insns.length =
      cg.insns.length + 2 := placed_length ..
  have hall : (placed (placed cg (ops [.mov64Imm r0 xdpPass, .exit]))
      (ops [.mov64Imm r0 xdpDrop, .exit])).insns.length = cg.insns.length + 4 := by
    rw [placed_length, hpass]
    rfl
  obtain ⟨cg₁, h₁, hl₁⟩ := resolveAll_short (placed (placed cg
      (ops [.mov64Imm r0 xdpPass, .exit])) (ops [.mov64Imm r0 xdpDrop, .exit]))
      q.success cg.insns.length fun r hr => by
    obtain ⟨hlt, hle⟩ := hq r (.inl hr)
    exact ⟨hlt, by omega, by omega⟩
  obtain ⟨cg₂, h₂, hl₂⟩ := resolveAll_short cg₁ q.failure (cg.insns.length + 2)
      fun r hr => by
    obtain ⟨hlt, hle⟩ := hq r (.inr hr)
    exact ⟨by omega, by omega, by omega⟩
  have hrun : emitProgram e (Codegen.new link) = .ok ((), cg₂) := by
    unfold emitProgram
    rw [bind_run h₀, emitExpr_tree, bind_run h, insnsLen_bind, bind_run (pushAll_run _ _),
      insnsLen_bind, bind_run (pushAll_run _ _), hpass, bind_run h₁]
    exact h₂
  exact ⟨cg₂.insns, by rw [compile, hrun]; rfl, by omega⟩

/-- A primitive whose code is short compiles. -/
theorem compile_leaf {p : Primitive} {c : Code} (hc : leafCode link p = .ok c)
    (hl : c.length ≤ 32766) :
    ∃ prog, compile (.primitive p) link = .ok prog ∧ prog.length = c.length + 6 := by
  have hy := emitPrimitive_yields (placed (Codegen.new link) (ops prologue)) p
  rw [show (placed (Codegen.new link) (ops prologue)).link = link from rfl, hc] at hy
  obtain ⟨q, hq, hs, hf⟩ := hy
  have hpre : (placed (Codegen.new link) (ops prologue)).insns.length = 2 := rfl
  have hlen : (placed (placed (Codegen.new link) (ops prologue)) c).insns.length = 2 + c.length :=
    placed_length ..
  obtain ⟨prog, hp, hpl⟩ := compile_of_tree (e := .primitive p) hq fun r hr => by
    have hr' : r ∈ Frag.slots .success 2 c ∨ r ∈ Frag.slots .failure 2 c :=
      hr.imp (fun h => hpre ▸ (hs r).mp h) fun h => hpre ▸ (hf r).mp h
    rw [hlen]
    rcases hr' with hr' | hr' <;>
    · obtain ⟨j, hj, he, -⟩ := Frag.mem_slots.mp hr'
      omega
  exact ⟨prog, hp, by omega⟩

end Short

end PktBaffle.Proofs.Ebpf
