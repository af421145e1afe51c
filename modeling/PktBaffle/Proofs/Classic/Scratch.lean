import PktBaffle.Proofs.Classic.Vocabulary
import PktBaffle.Forward.Lockstep

namespace PktBaffle.Proofs.Classic
open Bpf Forward PktBaffle.Classic PktBaffle.Optimizer PktBaffle.Proofs.Optimizer

/-- A walk through a program: the branches it will take, and the scratch slots it has stored. -/
structure Walk where
  turns : List Bool
  stored : List UInt32

/-- Any branch may go either way; a load from a slot that was not stored is a fault. -/
def walkAct (i : Insn) (w : Walk) : Except UInt32 (Move Slot Walk Unit) :=
  if isRet i then .ok (.halt ())
  else if isJa i then .ok (.jump .ja w)
  else if isCondJump i then
    .ok (.jump (if w.turns.headD false then .jt else .jf) { w with turns := w.turns.tail })
  else if i.code &&& 0x07 = bpfSt ∨ i.code &&& 0x07 = bpfStx then
    .ok (.next { w with stored := i.k :: w.stored })
  else if (i.code &&& 0x07 = bpfLd ∨ i.code &&& 0x07 = bpfLdx) ∧ i.code &&& 0xe0 = bpfMem then
    (if i.k ∈ w.stored then .ok (.next w) else .error i.k)
  else .ok (.next w)

def walker : Machine Insn Slot Walk UInt32 Unit where
  act := walkAct
  tgt i k := .skip (i.off k)

/-- Every path through the program ends at a return and loads no scratch slot that it has not
stored before. -/
def StoresFirst (insns : List Insn) : Prop :=
  ∀ turns, walker.run insns 0 ⟨turns, []⟩ = .halt ()

section Walk

variable {i : Insn} {w : Walk}

theorem walk_ret (h : isRet i = true) : walkAct i w = .ok (.halt ()) := by
  rw [walkAct, if_pos h]

theorem walk_ja (h : isJa i = true) : walkAct i w = .ok (.jump .ja w) := by
  rw [walkAct, isJa_not_ret h, if_neg Bool.false_ne_true, if_pos h]

theorem walk_cond (h : isCondJump i = true) : walkAct i w =
    .ok (.jump (if w.turns.headD false then .jt else .jf) { w with turns := w.turns.tail }) := by
  rw [walkAct, isCond_not_ret h, if_neg Bool.false_ne_true, isCond_not_ja h,
    if_neg Bool.false_ne_true, if_pos h]

/-- A load from the packet concerns no slot. -/
theorem walk_ldAbs (h : isLdAbs i = true) : walkAct i w = .ok (.next w) := by
  obtain ⟨hr, hj, hb⟩ := isLdAbs_plain h
  have hc := isLdAbs_class h
  have hm := isLdAbs_mode h
  simp +decide only [walkAct, hr, hj, hb, hc, hm, if_false, Bool.false_eq_true]

theorem walk_plain (hr : isRet i = false) (hj : isJa i = false) (hb : isCondJump i = false) :
    (∃ k, walkAct i w = .error k) ∨ ∃ w', walkAct i w = .ok (.next w') := by
  unfold walkAct
  rw [hr, hj, hb]
  simp only [Bool.false_eq_true, if_false]
  split
  · exact .inr ⟨_, rfl⟩
  · split
    · split
      · exact .inr ⟨_, rfl⟩
      · exact .inl ⟨_, rfl⟩
    · exact .inr ⟨_, rfl⟩

/-- The passes rely on nothing a walk does not do. -/
theorem walker_laws : Laws walker (fun _ _ _ => True) where
  tgt _ _ := rfl
  ja _ _ h := walk_ja h
  cond i w h := by
    refine .inr ⟨{ w with turns := w.turns.tail }, ?_⟩
    have hact : walker.act i w = _ := walk_cond h
    rw [hact]
    cases w.turns.headD false with
    | true => exact .inl rfl
    | false => exact .inr rfl
  ret _ _ h := ⟨(), walk_ret h⟩
  plain _ _ hr hj hb := walk_plain hr hj hb
  branches i w jt jf h := by
    have hi : walker.act i w = _ := walk_cond h
    have hj : walker.act { i with jt := jt, jf := jf } w = _ := walk_cond h
    rw [hi, hj]
  load _ _ _ _ _ := trivial
  redundant _ _ h _ := walk_ldAbs h
  keepsNext _ _ _ _ _ _ _ _ _ := trivial
  keepsJump _ _ _ _ _ _ _ _ _ _ := trivial

theorem plainCodes_mode : (divCode :: bpfSt :: plainCodes).all (fun c =>
    !((c &&& 0x07 == bpfLd || c &&& 0x07 == bpfLdx) && c &&& 0xe0 == bpfMem)) = true := by decide

theorem kind_reload : kind i = .reload ↔ i.code = ldxMemCode := by
  unfold kind
  constructor
  · intro h
    split at h
    · split at h <;> cases h
    · split at h
      · assumption
      · split at h
        · cases h
        · split at h
          · cases h
          · split at h <;> cases h
  · intro h
    rw [h]
    decide

/-- Only the reload of the first slot looks at what was stored. -/
theorem walk_still (hp : plain i = true) (hk : kind i ≠ .reload) (w : Walk) :
    ∃ w', walkAct i w = .ok (.next w') ∧ ∀ k ∈ w.stored, k ∈ w'.stored := by
  obtain ⟨-, hj, hr⟩ := plain_code hp
  have hret : isRet i = false := by simpa [isRet] using hr
  have hja : isJa i = false := by simp [isJa, hj]
  have hcond : isCondJump i = false := by simp [isCondJump, hj]
  have hmode : ¬((i.code &&& 0x07 = bpfLd ∨ i.code &&& 0x07 = bpfLdx) ∧
      i.code &&& 0xe0 = bpfMem) := by
    have hmem : i.code ∈ divCode :: bpfSt :: plainCodes := by
      simp only [plain, Bool.or_eq_true, Bool.and_eq_true, beq_iff_eq] at hp
      rcases hp with (h | ⟨h, -⟩) | ⟨h | h, -⟩
      · simp only [List.mem_cons]
        exact .inr (.inr (by simpa using h))
      · rw [h]
        simp
      · rw [h]
        simp
      · exact absurd (kind_reload.mpr h) hk
    have hall := List.all_eq_true.mp plainCodes_mode i.code hmem
    simp only [Bool.not_eq_true', Bool.and_eq_false_iff, Bool.or_eq_false_iff, beq_eq_false_iff_ne,
      ne_eq] at hall
    rintro ⟨hc, hm⟩
    exact hall.elim (fun h => hc.elim h.1 h.2) (fun h => h hm)
  unfold walkAct
  rw [hret, hja, hcond, if_neg hmode]
  simp only [Bool.false_eq_true, if_false]
  split
  · exact ⟨_, rfl, fun k hk => List.mem_cons_of_mem _ hk⟩
  · exact ⟨_, rfl, fun k hk => hk⟩

theorem walk_store (w : Walk) :
    walkAct (.st 0) w = .ok (.next { w with stored := 0 :: w.stored }) := by
  simp +decide only [walkAct, Insn.st, if_false, if_true]

theorem walk_reload (h : 0 ∈ w.stored) : walkAct (.ldxMem 0) w = .ok (.next w) := by
  simp +decide only [walkAct, Insn.ldxMem, if_false, if_true, h]

end Walk

def anyWalk (_ : Walk) : Prop := True

def hasFirst (w : Walk) : Prop := 0 ∈ w.stored

/-- Every walk through the code gets out without a fault. -/
abbrev Walked (c : Code) : Prop := Stays walker (fun _ => False) c anyWalk anyWalk anyWalk

/-- No instruction of the code reads a scratch slot. -/
def Still (c : Code) : Prop := ∀ a ∈ c, kind a.insn ≠ .reload

section Code

variable {c : Code}

theorem still_cons {a : Cell Insn Slot} : Still (a :: c) ↔ kind a.insn ≠ .reload ∧ Still c :=
  List.forall_mem_cons

theorem common_still {i : Insn} (h : common i = true) : kind i ≠ .reload := by
  intro hk
  have hcode := kind_reload.mp hk
  simp +decide only [common, hcode] at h

theorem Common.still (h : Common c) : Still c := fun a ha => common_still (h a ha)

theorem walker_no_exit : ∀ i k y, walker.tgt i k ≠ .exit y := fun _ _ _ h => by cases h

theorem walker_jumps : Jumps walker (.ja 0) .ja := ⟨fun s => walker_laws.ja _ s (by decide)⟩

/-- A cell that reads no slot goes on, or takes its symbolic jump, or falls through. -/
theorem walk_cell {a : Cell Insn Slot} (hs : shaped a = true) (hk : kind a.insn ≠ .reload)
    (w : Walk) : (∃ w', walkAct a.insn w = .ok (.next w')) ∨
      ∃ k w', walkAct a.insn w = .ok (.jump k w') ∧
        ((∃ t, a.slot = some (k, t)) ∨ walker.cells.tgt a k = .skip 0) := by
  have hl : linked a := .inl hs
  have off : ∀ k, usesSlot a.insn k = true →
      (∃ t, a.slot = some (k, t)) ∨ walker.cells.tgt a k = .skip 0 := by
    intro k hu
    by_cases h : ∃ t, a.slot = some (k, t)
    · exact .inl h
    · have hne : ∀ t, a.slot ≠ some (k, t) := fun t ht => h ⟨t, ht⟩
      have htgt : walker.cells.tgt a k = .skip (a.insn.off k) := by
        obtain ⟨i, _ | ⟨j, t⟩⟩ := a
        · rfl
        · have hj : j ≠ k := fun hj => hne t (by rw [hj])
          simp [Machine.cells, hj, walker]
      rw [htgt, hl.other hu hne]
      exact .inr rfl
  cases hslot : a.slot with
  | none =>
    obtain ⟨i, slot⟩ := a
    subst hslot
    obtain ⟨w', hw, -⟩ := walk_still (i := i) hs hk w
    exact .inl ⟨w', hw⟩
  | some q =>
    obtain ⟨k, t⟩ := q
    refine .inr ?_
    rw [hslot] at off
    by_cases hn : k = .ja
    · subst hn
      have hj : isJa a.insn = true := hl.ja hslot
      exact ⟨_, _, walk_ja hj, off .ja hj⟩
    · have hb : isCondJump a.insn = true := hl.branch hslot hn
      refine ⟨_, _, walk_cond hb, off _ ?_⟩
      cases w.turns.headD false with
      | true => exact hb
      | false => exact hb

/-- Code that reads no slot, wherever it is entered. -/
theorem run_still (hs : Solid c) (hk : Still c) (n : Nat) (hn : n ≤ c.length) (w : Walk) :
    (walker.cells.run c n w).Within (fun _ => False) anyWalk anyWalk := by
  obtain ⟨hshaped, hclosed⟩ := hs
  induction c generalizing n w with
  | nil =>
    obtain rfl : n = 0 := Nat.le_zero.mp hn
    exact ⟨rfl, trivial⟩
  | cons a c ih =>
    have ih' := fun n hn w => ih (still_cons.mp hk).2 n hn w
      (fun b hb => hshaped b (List.mem_cons_of_mem _ hb)) hclosed.2
    cases n with
    | succ n => exact ih' n (Nat.le_of_succ_le_succ hn) w
    | zero =>
      rcases walk_cell (hshaped a List.mem_cons_self) (still_cons.mp hk).1 w with
        ⟨w', hw⟩ | ⟨k, w', hw, ht⟩
      · have hact : walker.cells.act a w = .ok (.next w') := hw
        rw [Machine.run_next hact]
        exact ih' 0 (Nat.zero_le _) w'
      · have hact : walker.cells.act a w = .ok (.jump k w') := hw
        rcases ht with ⟨n | x, ht⟩ | ht
        · have htgt : walker.cells.tgt a k = .skip n := by simp [Machine.cells, ht]
          rw [Machine.run_jump hact htgt]
          exact ih' n (hclosed.1 k n ht) w'
        · have htgt : walker.cells.tgt a k = .exit x := by simp [Machine.cells, ht]
          rw [Machine.run_exit hact htgt]
          trivial
        · rw [Machine.run_jump hact ht]
          exact ih' 0 (Nat.zero_le _) w'

theorem walked_still (hs : Solid c) (hk : Still c) : Walked c :=
  fun w _ => run_still hs hk 0 (Nat.zero_le _) w

end Code

section Straight

variable {P : Walk → Prop}

/-- Straight code that reads no slot keeps what was stored. -/
theorem straight_stays {l : List Insn} (hp : ∀ i ∈ l, plain i = true)
    (hk : ∀ i ∈ l, kind i ≠ .reload) (hP : ∀ w w' : Walk, (∀ k ∈ w.stored, k ∈ w'.stored) → P w → P w') :
    Stays walker (fun _ => False) (ops l) P P anyWalk := by
  induction l with
  | nil => exact Stays.nil fun _ h => h
  | cons i l ih =>
    have htail := ih (fun j hj => hp j (List.mem_cons_of_mem _ hj))
      (fun j hj => hk j (List.mem_cons_of_mem _ hj))
    have hhead : Stays walker (fun _ => False) [.op i] P P anyWalk := by
      refine Stays.op fun w hw => ?_
      obtain ⟨w', hact, hkeep⟩ := walk_still (hp i List.mem_cons_self) (hk i List.mem_cons_self) w
      have hact' : walker.act i w = .ok (.next w') := hact
      rw [hact']
      exact hP w w' hkeep hw
    exact hhead.append htail

/-- The left value is stored before the right one is loaded and the left one read back. -/
theorem walked_loadCode (ba : ByteAccess) (rhs : ByteLoad) (net : Nat) :
    Walked (loadCode ba rhs net) := by
  have hcmp : Walked [cmpCell (cmpXInsn ba.op)] := by
    refine walked_still (Solid.single (shaped_cmpX _) (by simp [cmpCell])) (Common.still ?_)
    exact common_cons.mpr ⟨common_cmpX _, common_nil⟩
  have hside : ∀ layer off size msh, ∀ i ∈ loadSide layer off size net msh, kind i ≠ .reload :=
    fun layer off size msh i hi => common_still (common_loadSide layer off size net msh i hi)
  have halu : ∀ i ∈ aluCode ba.aluOps, kind i ≠ .reload :=
    fun i hi => common_still (common_aluCode _ i hi)
  have hsized : ∀ off size, kind (sizedInsn off size false) ≠ .reload :=
    fun off size => common_still (common_sized off size false)
  refine Stays.append (Q := anyWalk) ?_ hcmp
  split
  · have hleft : Walked (ops (loadSide ba.layer ba.offset.toUInt32 ba.size net true ++
        aluCode ba.aluOps)) := by
      refine straight_stays (fun i hi => ?_) (fun i hi => ?_) fun _ _ _ _ => trivial
      · rcases List.mem_append.mp hi with hi | hi
        · exact plain_loadSide _ _ _ _ _ i hi
        · exact plain_aluCode _ i hi
      · rcases List.mem_append.mp hi with hi | hi
        · exact hside _ _ _ _ i hi
        · exact halu i hi
    have hstore : Stays walker (fun _ => False) (ops [.st 0]) anyWalk hasFirst anyWalk := by
      refine Stays.op fun w _ => ?_
      have hact : walker.act (.st 0) w = _ := walk_store w
      rw [hact]
      exact List.mem_cons_self
    have hright : Stays walker (fun _ => False)
        (ops (loadSide rhs.layer rhs.offset.toUInt32 rhs.size net (ba.layer != .trans)))
        hasFirst hasFirst anyWalk :=
      straight_stays (plain_loadSide _ _ _ _ _) (hside _ _ _ _) fun _ _ h hw => h 0 hw
    have hreload : Stays walker (fun _ => False) (ops [.ldxMem 0]) hasFirst anyWalk anyWalk := by
      refine Stays.op fun w hw => ?_
      have hact : walker.act (.ldxMem 0) w = _ := walk_reload hw
      rw [hact]
      trivial
    simp only [ops_append] at hleft ⊢
    exact ((hleft.append hstore).append hright).append hreload
  · have htax : kind .tax ≠ .reload ∧ plain .tax = true := by decide
    refine straight_stays ?_ ?_ fun _ _ _ _ => trivial
    · simp only [List.forall_mem_append, List.forall_mem_singleton, htax, plain_sized, and_true,
        true_and]
      exact plain_aluCode _
    · simp only [List.forall_mem_append, List.forall_mem_singleton]
      exact ⟨⟨⟨hsized _ _, halu⟩, htax.1⟩, hsized _ _⟩

end Straight

section Whole

theorem walked_body (p : Primitive) (link : LinkType) (depth : Nat) : Walked (body p link depth) := by
  by_cases hp : singular p = true
  · cases p with
    | len op value =>
      have hlen : kind .ldLen ≠ .reload := by decide
      refine walked_still (solid_body _ link depth) ?_
      refine still_cons.mpr ⟨hlen, Common.still ?_⟩
      exact common_cons.mpr ⟨common_cmp _ _, common_nil⟩
    | byteAccess ba =>
      simp only [body]
      cases ba.rhs with
      | const value =>
        exact walked_still (solid_constCode _ _ _) (common_constCode _ _ _).still
      | load rhs => exact walked_loadCode _ _ _
    | _ => cases hp
  · exact walked_still (solid_body p link depth) (common_body (Bool.not_eq_true _ ▸ hp) link depth).still

theorem walked_asmGuard (g : Guard) (ctx : Ctx) : Walked (asmGuard g ctx).1.code :=
  walked_still (solid_asmGuard g ctx) (common_asmGuard g ctx).still

theorem walked_asmGuards (gs : List Guard) (ctx : Ctx) : Walked (asmGuards gs ctx).1.code := by
  induction gs generalizing ctx with
  | nil => exact Stays.nil fun _ h => h
  | cons g gs ih => exact Stays.append (walked_asmGuard g ctx) (ih _)

/-- Whatever the expression, its code gets out of every walk without a fault. -/
theorem walked_asm (mode : HoistMode) (e : Expr) (ctx : Ctx) : Walked (asm mode e ctx).1.code := by
  induction e generalizing ctx with
  | primitive p => exact Stays.append (walked_asmGuard _ _) (walked_body _ _ _)
  | and l r hl hr => exact Stays.seq walker_no_exit (hl _) (hr _)
  | or l r hl hr =>
    exact Stays.append (walked_asmGuards _ _) (Stays.alt walker_no_exit walker_jumps (hl _) (hr _))
  | not e ih => exact Stays.neg walker_no_exit walker_jumps (ih _)

/-- Both exits lead to a return. -/
theorem walk_program {c : Code} (h : Walked c) (w : Walk) :
    walker.cells.run (program c) 0 w = .halt () := by
  have hr := h w trivial
  rw [program, Machine.run_append, Machine.run_resolve _ walker_no_exit,
    Machine.run_resolve _ walker_no_exit]
  generalize walker.cells.run c 0 w = r at hr ⊢
  rcases r with ⟨n, w'⟩ | ⟨x | x, w'⟩ | v | k
  · obtain ⟨rfl, -⟩ := hr
    rfl
  · rfl
  · rfl
  · rfl
  · exact hr.elim

/-- In a compiled program no path loads a scratch slot before it has stored it: neither the
merging of code by `and`, `or` and `not` nor the peephole passes lead around a store. -/
theorem scratch_stored_first (e : Expr) (link : LinkType) (insns : List Insn)
    (hc : compile e link = .ok insns) (hj : JumpsFit e link) : StoresFirst insns := by
  intro turns
  obtain ⟨hl, rfl⟩ := compileWith_ok.mp hc
  have hopt := run_optimize (assembled_wellFormed hl) (hj.assembled hl) walker_laws ⟨turns, []⟩
  have hraw := run_raw walker_laws (assembled_linked hl) 0 ⟨turns, []⟩
  exact (hopt.trans hraw).trans (walk_program (walked_asm _ _ _) _)

/-- `vlan and not tcp[0:2] = tcp[2:2]`, as the parser reads it. -/
def unlikePorts : Expr :=
  .and (.primitive (.vlan none)) (.not (.primitive (.byteAccess
    ⟨.trans, 0, .half, [], .eq, .load ⟨.trans, 2, .half⟩⟩)))

theorem scratch_stored_first_ports : ∃ insns, compile unlikePorts .ethernet = .ok insns ∧
    StoresFirst insns := by
  have hok : (compile unlikePorts .ethernet).isOk = true := by decide +kernel
  have hlen : (assembled .hoist unlikePorts .ethernet).length ≤ 2 ^ 32 := by decide +kernel
  cases hc : compile unlikePorts .ethernet with
  | error err =>
    rw [hc] at hok
    cases hok
  | ok insns =>
    exact ⟨insns, rfl, scratch_stored_first unlikePorts .ethernet insns hc (jumpsFitIn_of_length hlen)⟩

end Whole

end PktBaffle.Proofs.Classic
