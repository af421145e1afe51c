import PktBaffle.Proofs.Classic.Independence

namespace PktBaffle.Proofs.Classic
open Bpf Forward PktBaffle.Classic PktBaffle.Optimizer PktBaffle.Proofs.Optimizer

/-- A context with some more X writes behind it. -/
def Ctx.moved (ctx : Ctx) (n : Nat) : Ctx := { ctx with xWrites := ctx.xWrites + n }

section Moved

variable {ctx ctx' : Ctx} {n : Nat}

theorem push_moved (i : Insn) : (ctx.moved n).push i = (ctx.push i).moved n := by
  unfold Ctx.push Ctx.moved
  split
  · simp only [Nat.add_right_comm]
  · rfl

theorem after_moved (c : Code) : (ctx.moved n).after c = (ctx.after c).moved n := by
  induction c generalizing ctx with
  | nil => rfl
  | cons a c ih => rw [Ctx.after_cons, Ctx.after_cons, push_moved, ih]

theorem restore_moved : (ctx'.moved n).restore (ctx.moved n) = (ctx'.restore ctx).moved n := by
  unfold Ctx.restore Ctx.moved
  simp only [ne_eq, Nat.add_right_cancel_iff]

theorem asmEthertype_moved (et : UInt32) (ctx : Ctx) (n : Nat) : asmEthertype et (ctx.moved n) =
    ((asmEthertype et ctx).1, (asmEthertype et ctx).2.moved n) := by
  have ho : (ctx.moved n).etherProtoOffset = ctx.etherProtoOffset := rfl
  unfold asmEthertype
  rw [ho]
  cases ctx.etherProtoOffset with
  | none => rfl
  | some off =>
    have hf : (ctx.moved n).facts = ctx.facts := rfl
    simp only [hf]
    split <;> rfl

theorem asmPortPrereqs_moved (want : L4Set) : asmPortPrereqs want (ctx.moved n) =
    ((asmPortPrereqs want ctx).1, (asmPortPrereqs want ctx).2.moved n) := by
  have hf : (ctx.moved n).facts = ctx.facts := rfl
  have prologue : asmPortPrologue want (ctx.moved n) =
      ((asmPortPrologue want ctx).1, (asmPortPrologue want ctx).2.moved n) := by
    have hv : ∀ et, skipVersion et (ctx.moved n) = skipVersion et ctx := fun _ => rfl
    have hn : (ctx.moved n).netOffset = ctx.netOffset := rfl
    have hd : (ctx.moved n).vlanDepth = ctx.vlanDepth := rfl
    have ho : (ctx.moved n).etherProtoOffset = ctx.etherProtoOffset := rfl
    unfold asmPortPrologue
    simp only [hf, hv, hn, hd, ho, after_moved]
    split
    · rfl
    · split <;> rfl
  unfold asmPortPrereqs
  rw [hf]
  split
  · split
    · rfl
    · exact prologue
  · exact prologue

theorem asmGuard_moved (g : Guard) : asmGuard g (ctx.moved n) =
    ((asmGuard g ctx).1, (asmGuard g ctx).2.moved n) := by
  cases g with
  | none => rfl
  | ethertype et => exact asmEthertype_moved et ctx n
  | ip4 m =>
    have he := asmEthertype_moved 0x0800 ctx n
    have hf : ((asmEthertype 0x0800 ctx).2.moved n).facts = (asmEthertype 0x0800 ctx).2.facts := rfl
    simp only [asmGuard, asmIp4L4, he, hf]
    split <;> rfl
  | ip6 m =>
    have he := asmEthertype_moved 0x86dd ctx n
    have hf : ((asmEthertype 0x86dd ctx).2.moved n).facts = (asmEthertype 0x86dd ctx).2.facts := rfl
    simp only [asmGuard, asmIp6L4, he, hf]
    split <;> rfl
  | ports want => exact asmPortPrereqs_moved want

theorem asmGuards_moved (gs : List Guard) : asmGuards gs (ctx.moved n) =
    ((asmGuards gs ctx).1, (asmGuards gs ctx).2.moved n) := by
  induction gs generalizing ctx with
  | nil => rfl
  | cons g gs ih => simp only [asmGuards, asmGuard_moved, ih]

/-- The generator looks at its count of X writes only to see that it has grown. -/
theorem asm_moved (mode : HoistMode) (e : Expr) (ctx : Ctx) (n : Nat) :
    asm mode e (ctx.moved n) = ((asm mode e ctx).1, (asm mode e ctx).2.moved n) := by
  induction e generalizing ctx with
  | primitive p => simp only [asm, asmPrimitive, asmGuard_moved, after_moved]; rfl
  | and l r hl hr =>
    have hb : ∀ (c : Ctx) b, (c.moved n).bump b = (c.bump b).moved n := fun _ _ => rfl
    simp only [asm, hl, hb, hr]
    rfl
  | or l r hl hr =>
    have hlink : (ctx.moved n).link = ctx.link := rfl
    simp only [asm, hlink, asmGuards_moved, hl, restore_moved, hr]
    rfl
  | not e ih => simp only [asm, ih, restore_moved]

end Moved

/-- A filter as blocks that are put together by connectives. -/
inductive Frame where
  | block (e : Expr)
  | and (l r : Frame)
  | or (l r : Frame)
  | not (f : Frame)

namespace Frame

def expr : Frame → Expr
  | block e => e
  | and l r => .and l.expr r.expr
  | or l r => .or l.expr r.expr
  | not f => .not f.expr

def blocks : Frame → List Expr
  | block e => [e]
  | and l r => l.blocks ++ r.blocks
  | or l r => l.blocks ++ r.blocks
  | not f => f.blocks

/-- Left to right evaluation, each block with its own outcome. -/
def eval (v : Expr → Tri) : Frame → Tri
  | block e => v e
  | and l r => (l.eval v).and (r.eval v)
  | or l r => (l.eval v).or (r.eval v)
  | not f => (f.eval v).not

/-- What accepts such a frame says nothing about the packet that the generator keeps. -/
def silent : Frame → Bool
  | not _ => true
  | and l r => l.silent && r.silent
  | _ => false

/-- The blocks share nothing: no OR hoists a guard, and every AND stands behind a negation. -/
def Apart : Frame → Prop
  | block _ => True
  | and l r => l.silent = true ∧ l.Apart ∧ r.Apart
  | or l r => commonGuards l.expr r.expr = .ok .default ∧ l.Apart ∧ r.Apart
  | not f => f.Apart

end Frame

/-- How the program of an expression ends. -/
def exprOutcome (link : LinkType) (pkt : Vm.Packet) (e : Expr) : Tri :=
  match compile e link with
  | .ok insns => Vm.inner insns pkt
  | .error _ => none

section Frame

variable {link : LinkType} {pkt : Vm.Packet} {f : Frame} {e : Expr} {n : Nat} {v : Expr → Tri}

/-- The code of an expression at the start of a program has outcome `t` from every state. -/
def Stands (pkt : Vm.Packet) (link : LinkType) (e : Expr) (t : Tri) : Prop :=
  Meets (Vm.machine pkt) (· = .packetLoad) (asm .hoist e (.start link)).1.code (fun _ => True) t
    (fun _ => True) (fun _ => True)

theorem nothing_common {l r : Expr} (h : commonGuards l r = .ok .default) :
    frontGuards .hoist l r link = [] := by
  rw [commonGuards_eq, Except.ok.injEq] at h
  simp only [frontGuards, h, hoisted, GuardSet.default]
  cases link.etherProtoOffset.isSome <;> rfl

/-- Only what wrote X is known of the code in front of a negation's successor. -/
theorem restore_start (ctx : Ctx) (hlink : ctx.link = link) (hdepth : ctx.vlanDepth = 0) :
    ctx.restore ((Ctx.start link).moved n) = (Ctx.start link).moved ctx.xWrites := by
  obtain ⟨link', facts, writes, depth⟩ := ctx
  obtain rfl : link' = link := hlink
  obtain rfl : depth = 0 := hdepth
  have hports : { (Ctx.start link').facts with portsReady := none } = (Ctx.start link').facts := by
    cases link' <;> rfl
  have hzero : (Ctx.start link').xWrites = 0 := rfl
  simp only [Ctx.restore, Ctx.moved, hports, ite_self, hzero, Nat.zero_add]
  rfl

theorem silent_flat (h : f.silent = true) : leadsVlan f.expr = false := by
  induction f with
  | block e => cases h
  | and l r hl _ => exact hl (Bool.and_eq_true_iff.mp h).1
  | or l r _ _ => cases h
  | not f _ => rfl

/-- A silent frame leaves the generator as it found it. -/
theorem silent_after (h : f.silent = true) (n : Nat) :
    ∃ m, (asm .hoist f.expr ((Ctx.start link).moved n)).2 = (Ctx.start link).moved m := by
  induction f generalizing n with
  | block e => cases h
  | and l r hl hr =>
    obtain ⟨hsl, hsr⟩ := Bool.and_eq_true_iff.mp h
    obtain ⟨m, hm⟩ := hl hsl n
    obtain ⟨m', hm'⟩ := hr hsr m
    refine ⟨m', ?_⟩
    have hflat := silent_flat hsl
    simp only [Frame.expr, asm, hflat, hm]
    exact congrArg (Ctx.unbump · false) hm'
  | or l r _ _ => cases h
  | not f _ =>
    obtain ⟨hlink, hdepth⟩ := asm_frame .hoist f.expr ((Ctx.start link).moved n)
    exact ⟨_, restore_start _ hlink hdepth⟩

/-- A frame has the outcome its blocks give it, whatever stands in front of it: by induction on
the frame, each block at the start of the generator's knowledge. -/
theorem frame_meets (ha : f.Apart) (hb : ∀ e ∈ f.blocks, Stands pkt link e (v e)) (n : Nat) :
    Meets (Vm.machine pkt) (· = .packetLoad) (asm .hoist f.expr ((Ctx.start link).moved n)).1.code
      (fun _ => True) (f.eval v) (fun _ => True) (fun _ => True) := by
  induction f generalizing n with
  | block e =>
    rw [Frame.expr, asm_moved]
    exact hb e List.mem_cons_self
  | and l r hl hr =>
    obtain ⟨hs, hal, har⟩ := ha
    obtain ⟨hbl, hbr⟩ := List.forall_mem_append.mp hb
    obtain ⟨m, hm⟩ : ∃ m, (asm .hoist l.expr ((Ctx.start link).moved n)).2 =
        (Ctx.start link).moved m := silent_after hs n
    have hcode : (asm .hoist (.and l.expr r.expr) ((Ctx.start link).moved n)).1.code =
        Frag.seq (asm .hoist l.expr ((Ctx.start link).moved n)).1.code
          (asm .hoist r.expr ((Ctx.start link).moved m)).1.code := by
      simp only [asm, silent_flat hs, hm]
      rfl
    rw [Frame.expr, hcode]
    exact Meets.seq (vm_no_exit pkt) (hl hal hbl n) fun _ => hr har hbr m
  | or l r hl hr =>
    obtain ⟨hc, hal, har⟩ := ha
    obtain ⟨hbl, hbr⟩ := List.forall_mem_append.mp hb
    obtain ⟨hlink, hdepth⟩ := asm_frame .hoist l.expr ((Ctx.start link).moved n)
    have hleft : (asm .hoist l.expr ((Ctx.start link).moved n)).2.restore
        ((Ctx.start link).moved n) = (Ctx.start link).moved
          (asm .hoist l.expr ((Ctx.start link).moved n)).2.xWrites :=
      restore_start _ hlink hdepth
    have hfront : frontGuards .hoist l.expr r.expr ((Ctx.start link).moved n).link = [] :=
      nothing_common hc
    have hcode : (asm .hoist (.or l.expr r.expr) ((Ctx.start link).moved n)).1.code =
        Frag.alt Piece.jaCell (asm .hoist l.expr ((Ctx.start link).moved n)).1.code
          (asm .hoist r.expr ((Ctx.start link).moved
            (asm .hoist l.expr ((Ctx.start link).moved n)).2.xWrites)).1.code := by
      simp only [asm, hfront, asmGuards, hleft]
      rfl
    rw [Frame.expr, hcode]
    exact Meets.alt (vm_no_exit pkt) (vm_jumps pkt) (hl hal hbl n) fun _ => hr har hbr _
  | not f ih => exact Meets.neg (vm_no_exit pkt) (vm_jumps pkt) (ih ha hb n)

/-- What a block does in a program of its own it does from every state. -/
theorem stands_outcome (hc : ∃ insns, compile e link = .ok insns) (hj : JumpsFit e link) :
    Stands pkt link e (exprOutcome link pkt e) := by
  obtain ⟨insns, hc⟩ := hc
  intro s _
  obtain ⟨t, hs, hstart⟩ := start_fits pkt (compileWith_ok.mp hc).1 s .start
  have hinner : Vm.inner insns pkt = t := inner_of_exec (run_compiled hc hj hstart)
  have ht : exprOutcome link pkt e = t := by
    rw [exprOutcome, hc]
    exact hinner
  rw [ht]
  exact hs

/-- `(vlan 7 and ip) or (not ip6 and (tcp port 80 or tcp port 53))`. -/
def taggedOrWeb : Frame :=
  .or (.block (.and (.primitive (.vlan (some 7))) (.primitive (.proto .ip))))
    (.and (.not (.block (.primitive (.proto .ip6)))) (.block webOrDns))

end Frame

end PktBaffle.Proofs.Classic
