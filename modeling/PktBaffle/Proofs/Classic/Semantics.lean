import PktBaffle.Proofs.Classic.Guard

namespace PktBaffle.Proofs.Classic
open Bpf Forward PktBaffle.Classic PktBaffle.Optimizer PktBaffle.Proofs.Optimizer

section Writes

/-- How many instructions of the code write X. -/
def xCount (c : Code) : Nat := c.countP (fun a => writesX a.insn)

variable {c d : Code}

@[simp] theorem xCount_append : xCount (c ++ d) = xCount c + xCount d := List.countP_append

theorem xCount_cons (a : Cell Insn Slot) :
    xCount (a :: c) = xCount c + if writesX a.insn then 1 else 0 := List.countP_cons ..

theorem xCount_eq_zero : xCount c = 0 ↔ quiet c := by
  simp [xCount, List.countP_eq_zero, quiet]

theorem xCount_resolve (x : Exit) (n : Nat) (c : Code) : xCount (Frag.resolve x n c) = xCount c := by
  induction c with
  | nil => rfl
  | cons a c ih => rw [Frag.resolve, xCount_cons, xCount_cons, ih, Cell.fill_insn]

theorem xCount_fold (c : Code) : xCount (Frag.fold c) = xCount c := by
  induction c with
  | nil => rfl
  | cons a c ih =>
    show xCount (a.fold :: Frag.fold c) = _
    rw [xCount_cons, xCount_cons, ih, Cell.fold_insn]

theorem xCount_ja (x : Exit) : xCount (Piece.jaCell x :: c) = xCount c := by
  have hw : writesX (Piece.jaCell x).insn = false := by
    show writesX (.ja 0) = false
    decide
  rw [xCount_cons, hw]
  rfl

theorem after_xCount (ctx : Ctx) (c : Code) : (ctx.after c).xWrites = ctx.xWrites + xCount c := by
  induction c generalizing ctx with
  | nil => rfl
  | cons a c ih =>
    rw [Ctx.after_cons, ih, xCount_cons]
    cases hw : Classic.writesX a.insn with
    | true =>
      have hp : (ctx.push a.insn).xWrites = ctx.xWrites + 1 := by simp [Ctx.push, hw]
      simp only [if_true]
      omega
    | false => simp [push_quiet ctx hw]

theorem after_quiet (ctx : Ctx) (h : quiet c) : ctx.after c = ctx := by
  induction c with
  | nil => rfl
  | cons a c ih =>
    rw [Ctx.after_cons, push_quiet ctx (h a List.mem_cons_self)]
    exact ih (fun b hb => h b (List.mem_cons_of_mem _ hb))

theorem after_loud (ctx : Ctx) (h : ¬ quiet c) :
    (ctx.after c).facts = { ctx.facts with portsReady := none } := by
  induction c generalizing ctx with
  | nil => exact absurd (fun a ha => absurd ha List.not_mem_nil) h
  | cons a c ih =>
    rw [Ctx.after_cons]
    by_cases hc : quiet c
    · have ha : writesX a.insn = true := by
        cases ha : writesX a.insn with
        | true => rfl
        | false =>
          refine absurd (fun b hb => ?_) h
          rcases List.mem_cons.mp hb with rfl | hb
          · exact ha
          · exact hc b hb
      rw [after_quiet _ hc]
      simp [Ctx.push, ha]
    · rw [ih _ hc]
      unfold Ctx.push
      split <;> rfl

theorem asmEthertype_xWrites (et : UInt32) (ctx : Ctx) :
    (asmEthertype et ctx).2.xWrites = ctx.xWrites + xCount (asmEthertype et ctx).1.code := by
  unfold asmEthertype
  split
  · split
    · rfl
    · have h := xCount_eq_zero.mpr (test_quiet (writesX_ldhAbs (.ofNat ‹Nat›)) et)
      simp only [Ctx.withFacts, h, Nat.add_zero]
  · rfl

theorem asmPortPrereqs_xWrites (want : L4Set) (ctx : Ctx) :
    (asmPortPrereqs want ctx).2.xWrites = ctx.xWrites + xCount (asmPortPrereqs want ctx).1.code := by
  have prologue : (asmPortPrologue want ctx).2.xWrites =
      ctx.xWrites + xCount (asmPortPrologue want ctx).1.code := by
    unfold asmPortPrologue
    dsimp only
    split
    · simp only [Ctx.withFacts, after_xCount, Piece.append, xCount_append, skipVersion_code]
      exact congrArg _ (Nat.zero_add _).symm
    · split
      · simp only [Ctx.withFacts, after_xCount, Piece.append, xCount_append, skipVersion_code]
        exact congrArg _ (Nat.zero_add _).symm
      · simp only [Ctx.withFacts, after_xCount]
  unfold asmPortPrereqs
  split
  · split
    · rfl
    · exact prologue
  · exact prologue

theorem asmGuard_xWrites (g : Guard) (ctx : Ctx) :
    (asmGuard g ctx).2.xWrites = ctx.xWrites + xCount (asmGuard g ctx).1.code := by
  have byte : ∀ {p : Prop} [Decidable p] (off : UInt32) (k : UInt32),
      xCount (if p then [] else test (.ldbAbs off) k) = 0 := by
    intro p _ off k
    split
    · rfl
    · exact xCount_eq_zero.mpr (test_quiet (writesX_ldbAbs off) k)
  cases g with
  | none => rfl
  | ethertype et => exact asmEthertype_xWrites et ctx
  | ip4 n =>
    have hx : (asmIp4L4 n ctx).2.xWrites = (asmEthertype 0x0800 ctx).2.xWrites := by
      unfold asmIp4L4
      dsimp only
      split <;> rfl
    show (asmIp4L4 n ctx).2.xWrites = _ + xCount (asmIp4L4 n ctx).1.code
    rw [hx, asmIp4L4_code, xCount_append, byte, asmEthertype_xWrites]
    rfl
  | ip6 n =>
    have hx : (asmIp6L4 n ctx).2.xWrites = (asmEthertype 0x86dd ctx).2.xWrites := by
      unfold asmIp6L4
      dsimp only
      split <;> rfl
    show (asmIp6L4 n ctx).2.xWrites = _ + xCount (asmIp6L4 n ctx).1.code
    rw [hx, asmIp6L4_code, xCount_append, byte, asmEthertype_xWrites]
    rfl
  | ports want => exact asmPortPrereqs_xWrites want ctx

theorem asmGuards_xWrites (gs : List Guard) (ctx : Ctx) :
    (asmGuards gs ctx).2.xWrites = ctx.xWrites + xCount (asmGuards gs ctx).1.code := by
  induction gs generalizing ctx with
  | nil => rfl
  | cons g gs ih =>
    simp only [asmGuards, Piece.append, xCount_append]
    rw [ih, asmGuard_xWrites, Nat.add_assoc]

/-- The generator counts the instructions that write X. -/
theorem asm_xWrites (mode : HoistMode) (e : Expr) (ctx : Ctx) :
    (asm mode e ctx).2.xWrites = ctx.xWrites + xCount (asm mode e ctx).1.code := by
  induction e generalizing ctx with
  | primitive p =>
    simp only [asm, asmPrimitive, Piece.append, xCount_append]
    rw [after_xCount, asmGuard_xWrites, Nat.add_assoc]
  | and l r hl hr =>
    simp only [asm, Ctx.unbump, Piece.seq, Frag.seq, xCount_append, xCount_resolve]
    rw [hr]
    simp only [Ctx.bump]
    rw [hl, Nat.add_assoc]
  | or l r hl hr =>
    simp only [asm, Ctx.withFacts, Piece.append, Piece.alt, Frag.alt, xCount_append, xCount_resolve,
      xCount_ja]
    rw [hr]
    simp only [Ctx.restore]
    rw [hl, asmGuards_xWrites]
    omega
  | not e ih =>
    simp only [asm, Ctx.restore, Piece.neg, Frag.neg, xCount_append, xCount_fold, xCount_resolve,
      xCount_ja]
    exact ih ctx

end Writes

section Value

variable (pkt : Vm.Packet) (link : LinkType)

/-- The value of a primitive at VLAN depth `d`: its guard, and then its own code with X as the
guard leaves it. -/
def leafVal (p : Primitive) (d : Nat) : Tri :=
  (guardVal pkt link d (guardOf p)).and (outcome pkt (body p link d) (portsX pkt link d))

def guardsVal (d : Nat) : List Guard → Tri
  | [] => some true
  | g :: gs => (guardVal pkt link d g).and (guardsVal d gs)

/-- The depth of the right side of an AND. -/
def deeper (l : Expr) (d : Nat) : Nat := if leadsVlan l then d + 1 else d

/-- The value of an expression at VLAN depth `d`, left to right, with the guards that stand in
front of each OR. -/
def value (mode : HoistMode) : Expr → Nat → Tri
  | .primitive p, d => leafVal pkt link p d
  | .and l r, d => (value mode l d).and (value mode r (deeper l d))
  | .or l r, d => (guardsVal pkt link d (frontGuards mode l r link)).and
      ((value mode l d).or (value mode r d))
  | .not e, d => (value mode e d).not

/-- The depths of the facts behind a guard. -/
def guardTags (g : Guard) (ctx : Ctx) (tags : Tags) : Tags :=
  retag ctx.vlanDepth ctx.facts (asmGuard g ctx).2.facts tags

def guardsTags : List Guard → Ctx → Tags → Tags
  | [], _, tags => tags
  | g :: gs, ctx, tags => guardsTags gs (asmGuard g ctx).2 (guardTags g ctx tags)

/-- The facts in front of the arms of an OR. -/
def orEntry (mode : HoistMode) (l r : Expr) (ctx : Ctx) : Ctx :=
  (asmGuards (frontGuards mode l r ctx.link) ctx).2

/-- The facts in front of its right arm. -/
def orRight (mode : HoistMode) (l r : Expr) (ctx : Ctx) : Ctx :=
  (asm mode l (orEntry mode l r ctx)).2.restore (orEntry mode l r ctx)

def andRight (mode : HoistMode) (l : Expr) (ctx : Ctx) : Ctx :=
  (asm mode l ctx).2.bump (leadsVlan l)

/-- The depths of the facts behind an expression that has accepted; behind an OR they are those
of the arm that did. -/
def exprTags (mode : HoistMode) : Expr → Ctx → Tags → Tags
  | .primitive p, ctx, tags => guardTags (guardOf p) ctx tags
  | .and l r, ctx, tags => exprTags mode r (andRight mode l ctx) (exprTags mode l ctx tags)
  | .or l r, ctx, tags =>
    let tags := guardsTags (frontGuards mode l r ctx.link) ctx tags
    if value pkt ctx.link mode l ctx.vlanDepth = some true then
      exprTags mode l (orEntry mode l r ctx) tags
    else exprTags mode r (orRight mode l r ctx) tags
  | .not _, _, tags => tags

def freshGuards : List Guard → Ctx → Tags → Prop
  | [], _, _ => True
  | g :: gs, ctx, tags => freshGuard pkt g ctx tags ∧
      (guardVal pkt ctx.link ctx.vlanDepth g = some true →
        freshGuards gs (asmGuard g ctx).2 (guardTags g ctx tags))

/-- On the path the packet takes through the code, no check is left out because of a fact that
was recorded at another depth. -/
def FreshOn (mode : HoistMode) : Expr → Ctx → Tags → Prop
  | .primitive p, ctx, tags => freshGuard pkt (guardOf p) ctx tags
  | .and l r, ctx, tags => FreshOn mode l ctx tags ∧
      (value pkt ctx.link mode l ctx.vlanDepth = some true →
        FreshOn mode r (andRight mode l ctx) (exprTags pkt mode l ctx tags))
  | .or l r, ctx, tags =>
    let gs := frontGuards mode l r ctx.link
    freshGuards pkt gs ctx tags ∧ (guardsVal pkt ctx.link ctx.vlanDepth gs = some true →
      FreshOn mode l (orEntry mode l r ctx) (guardsTags gs ctx tags) ∧
        (value pkt ctx.link mode l ctx.vlanDepth = some false →
          FreshOn mode r (orRight mode l r ctx) (guardsTags gs ctx tags)))
  | .not e, ctx, tags => FreshOn mode e ctx tags

end Value

section Soundness

variable {pkt : Vm.Packet} {mode : HoistMode} {ctx : Ctx} {tags : Tags} {t : Traced}

theorem asmGuards_falls (gs : List Guard) (hok : ctx.Ok) (hsat : Sat pkt ctx.link ctx.facts tags t)
    (hf : freshGuards pkt gs ctx tags) :
    ((traced pkt).cells.run (asmGuards gs ctx).1.code 0 t).Falls (· = .packetLoad)
      (fun t' => Sat pkt ctx.link (asmGuards gs ctx).2.facts (guardsTags gs ctx tags) t')
      (fun _ => True) (guardsVal pkt ctx.link ctx.vlanDepth gs) := by
  induction gs generalizing ctx tags t with
  | nil => exact ⟨t, hsat, Machine.run_nil _ _ _⟩
  | cons g gs ih =>
    obtain ⟨hl, hd⟩ := asmGuard_frame g ctx
    have hcode : (asmGuards (g :: gs) ctx).1.code =
        (asmGuard g ctx).1.code ++ (asmGuards gs (asmGuard g ctx).2).1.code := rfl
    rw [hcode, Machine.run_append]
    refine (asmGuard_falls g hok hsat hf.1).bind (fun hv t₁ hfall => ?_)
    have hs := hfall.1
    have h := @ih (asmGuard g ctx).2 (guardTags g ctx tags) t₁
      (asmGuard_ok g hok) (by rw [hl]; exact hs) (hf.2 hv)
    rw [hl, hd] at h
    exact h

/-- What every run over the code of an expression leaves behind. -/
theorem asm_leaves (mode : HoistMode) (e : Expr) (ctx : Ctx) (t : Traced) :
    ((traced pkt).cells.run (asm mode e ctx).1.code 0 t).Leaves (fun t' => t.events ⊆ t'.events ∧
      ((asm mode e ctx).2.xWrites = ctx.xWrites → t'.regs.x = t.regs.x)) := by
  refine (events_leaves _ 0 t).and ?_
  by_cases hx : (asm mode e ctx).2.xWrites = ctx.xWrites
  · have hq : quiet (asm mode e ctx).1.code := by
      have h := asm_xWrites mode e ctx
      exact xCount_eq_zero.mp (by omega)
    exact (quiet_traced (solid_asm mode e ctx).shaped hq 0 t).mono (fun _ h _ => h)
  · cases (traced pkt).cells.run (asm mode e ctx).1.code 0 t with
    | past n s => exact fun h => absurd h hx
    | exit y s => exact fun h => absurd h hx
    | halt v => trivial
    | stop e => trivial

/-- The facts of the entry hold again behind the code, without the port prologue if X was
written. -/
theorem Sat.restore {ctx₁ : Ctx} {t' : Traced} (h : Sat pkt ctx.link ctx.facts tags t)
    (he : t.events ⊆ t'.events) (hx : ctx₁.xWrites = ctx.xWrites → t'.regs.x = t.regs.x) :
    Sat pkt ctx.link (ctx₁.restore ctx).facts tags t' := by
  unfold Ctx.restore
  dsimp only
  split
  · refine (h.subset (g := { ctx.facts with portsReady := none }) ?_).mono he
      (fun hn => absurd rfl hn)
    intro check hk
    cases check with
    | ports want => cases hk
    | _ => exact hk
  · rename_i hn
    exact h.mono he (fun _ => hx (by omega))

theorem both_eq {α : Type} [DecidableEq α] {x y : Option α} {v : α} (h : both x y = some v) :
    x = some v ∧ y = some v := by
  unfold both at h
  split at h
  · split at h
    · rename_i he
      cases h
      exact ⟨rfl, by rw [he]⟩
    · cases h
  · cases h

/-- What holds behind either arm holds where they join. -/
theorem Sat.meet_left {link : LinkType} {f g : Facts} (h : Sat pkt link f tags t) :
    Sat pkt link (f.meet g) tags t := by
  intro check hk
  cases check with
  | ethertype et => exact h (.ethertype et) (both_eq hk).1
  | ip4Proto n => exact h (.ip4Proto n) (both_eq hk).1
  | ip6Nh n => exact h (.ip6Nh n) (both_eq hk).1
  | ports want =>
    simp only [known, Facts.meet] at hk
    split at hk
    · rename_i a b ha _
      exact (h (.ports a) ha).ports_subset (join_subset hk).1
    · cases hk

theorem Sat.meet_right {link : LinkType} {f g : Facts} (h : Sat pkt link g tags t) :
    Sat pkt link (f.meet g) tags t := by
  intro check hk
  cases check with
  | ethertype et => exact h (.ethertype et) (both_eq hk).2
  | ip4Proto n => exact h (.ip4Proto n) (both_eq hk).2
  | ip6Nh n => exact h (.ip6Nh n) (both_eq hk).2
  | ports want =>
    simp only [known, Facts.meet] at hk
    split at hk
    · rename_i a b _ hb
      exact (h (.ports b) hb).ports_subset (join_subset hk).2
    · cases hk

/-- The port tests read X behind their own prologue. -/
theorem readsX_guard {p : Primitive} {link : LinkType} (hp : primOk p link = true)
    (hr : readsX p = true) : ∃ want, guardOf p = .ports want := by
  have ports : ∀ proto, guardOf p = portsGuard proto → (l4setFor proto).toOption.isSome = true →
      ∃ want, guardOf p = .ports want := by
    intro proto hg hs
    unfold portsGuard at hg
    cases hset : l4setFor proto with
    | error e => simp [hset, Except.toOption] at hs
    | ok want =>
      rw [hset] at hg
      exact ⟨want, hg⟩
  cases p with
  | port port dir proto =>
    have h := (Bool.and_eq_true_iff.mp hp).2
    exact ports proto rfl h
  | portRange lo hi dir proto =>
    have h := (Bool.and_eq_true_iff.mp hp).2
    exact ports proto rfl h
  | _ => cases hr

theorem asmPrimitive_fits {p : Primitive} (hp : primOk p ctx.link = true) (hok : ctx.Ok)
    (hsat : Sat pkt ctx.link ctx.facts tags t) (hf : freshGuard pkt (guardOf p) ctx tags) :
    ((traced pkt).cells.run (asmPrimitive p ctx).1.code 0 t).Fits (· = .packetLoad)
      (Sat pkt ctx.link (asmPrimitive p ctx).2.facts (guardTags (guardOf p) ctx tags))
      (fun _ => True) (leafVal pkt ctx.link p ctx.vlanDepth) := by
  have hg := asmGuard_falls (guardOf p) hok hsat hf
  have hcode : (asmPrimitive p ctx).1.code =
      (asmGuard (guardOf p) ctx).1.code ++ body p ctx.link ctx.vlanDepth := rfl
  rw [hcode]
  refine Drops.append (M := traced pkt) (P := (· = t)) (fun s hs => hs ▸ hg)
    (fun _ s hs => ?_) t rfl
  obtain ⟨hsat₁, hx⟩ := hs
  have hsolid := solid_body p ctx.link ctx.vlanDepth
  have hbody := (settled_body pkt p ctx.link ctx.vlanDepth).fits hsolid.shaped
    (portsX pkt ctx.link ctx.vlanDepth) s.regs (fun hr => by
      obtain ⟨want, hw⟩ := readsX_guard hp hr
      exact hx want hw)
  rw [← forget_run] at hbody
  refine ((fits_of_forget hbody).leaves (events_leaves _ 0 s)).mono (fun t' hfall => ?_)
    (fun _ _ => trivial)
  obtain ⟨hq, he⟩ := hfall
  show Sat pkt ctx.link ((asmGuard (guardOf p) ctx).2.after (body p ctx.link ctx.vlanDepth)).facts
    _ t'
  by_cases hquiet : quiet (body p ctx.link ctx.vlanDepth)
  · rw [after_quiet _ hquiet]
    exact hsat₁.mono he (fun _ => hq hquiet)
  · rw [after_loud _ hquiet]
    refine (Sat.subset hsat₁ (fun check hk => ?_)).mono he (fun hn => absurd rfl hn)
    cases check with
    | ports want => cases hk
    | _ => exact hk

theorem traced_jumps (pkt : Vm.Packet) : Jumps (traced pkt) (.ja 0) Slot.ja where
  act t := by
    have hmap : (traced pkt).act (.ja 0) t =
        (Vm.act pkt (.ja 0) t.regs).map (observe (.ja 0) t) := rfl
    have hja : Vm.act pkt (.ja 0) t.regs = .ok (.jump .ja t.regs) := (vm_jumps pkt).act t.regs
    have hc : isCondJump (.ja 0) = false := by decide
    rw [hmap, hja]
    simp only [Except.map, observe, hc]
    cases t with
    | mk regs last events => cases last <;> rfl

/-- The code of an expression has its value, and behind it the facts hold: by induction on the
expression, from what the packet's path has gone through. -/
theorem asm_fits (e : Expr) (hp : ∀ p ∈ e.leaves, primOk p ctx.link = true) (hok : ctx.Ok)
    (hsat : Sat pkt ctx.link ctx.facts tags t) (hf : FreshOn pkt mode e ctx tags) :
    ((traced pkt).cells.run (asm mode e ctx).1.code 0 t).Fits (· = .packetLoad)
      (Sat pkt ctx.link (asm mode e ctx).2.facts (exprTags pkt mode e ctx tags)) (fun _ => True)
      (value pkt ctx.link mode e ctx.vlanDepth) := by
  induction e generalizing ctx tags t with
  | primitive p => exact asmPrimitive_fits (hp p List.mem_cons_self) hok hsat hf
  | and l r hl hr =>
    obtain ⟨hlink, hdepth⟩ := asm_frame mode l ctx
    have hlinkR : (andRight mode l ctx).link = ctx.link := hlink
    have hdepthR : (andRight mode l ctx).vlanDepth = deeper l ctx.vlanDepth := by
      simp only [andRight, Ctx.bump, deeper, hdepth]
    have h₁ := hl (fun p h => hp p (List.mem_append_left _ h)) hok hsat hf.1
    refine Meets.seq (traced_no_exit pkt) (P := (· = t)) (fun s hs => hs ▸ h₁)
      (fun hv s hs => ?_) t rfl
    have h₂ := @hr (andRight mode l ctx) (exprTags pkt mode l ctx tags) s
      (fun p h => by rw [hlinkR]; exact hp p (List.mem_append_right _ h)) (asm_ok mode l hok)
      (by rw [hlinkR]; exact hs) (hf.2 hv)
    rw [hlinkR, hdepthR] at h₂
    exact h₂
  | or l r hl hr =>
    obtain ⟨hlink₀, hdepth₀⟩ := asmGuards_frame (frontGuards mode l r ctx.link) ctx
    have hok₀ : (orEntry mode l r ctx).Ok := asmGuards_ok _ hok
    obtain ⟨hlink₁, hdepth₁⟩ := asm_frame mode l (orEntry mode l r ctx)
    have hlinkR : (orRight mode l r ctx).link = ctx.link := hlink₁.trans hlink₀
    have hdepthR : (orRight mode l r ctx).vlanDepth = ctx.vlanDepth := hdepth₁.trans hdepth₀
    have hcode : (asm mode (.or l r) ctx).1.code =
        (asmGuards (frontGuards mode l r ctx.link) ctx).1.code ++
        Frag.alt Piece.jaCell (asm mode l (orEntry mode l r ctx)).1.code
          (asm mode r (orRight mode l r ctx)).1.code := rfl
    rw [hcode]
    have hg := asmGuards_falls _ hok hsat hf.1
    refine Drops.append (M := traced pkt) (P := (· = t)) (fun s hs => hs ▸ hg)
      (fun hv s hs => ?_) t rfl
    obtain ⟨hfl, hfr⟩ := hf.2 hv
    have h₁ := @hl (orEntry mode l r ctx) _ s
      (fun p h => by rw [show (orEntry mode l r ctx).link = ctx.link from hlink₀]
                     exact hp p (List.mem_append_left _ h)) hok₀
      (by rw [show (orEntry mode l r ctx).link = ctx.link from hlink₀]; exact hs) hfl
    rw [show (orEntry mode l r ctx).link = ctx.link from hlink₀,
      show (orEntry mode l r ctx).vlanDepth = ctx.vlanDepth from hdepth₀] at h₁
    have h₁' := (h₁.accepts.leaves (asm_leaves mode l (orEntry mode l r ctx) s)).mono
      (T := Sat pkt ctx.link (asm mode (.or l r) ctx).2.facts
        (exprTags pkt mode (.or l r) ctx tags))
      (G := Sat pkt ctx.link (orRight mode l r ctx).facts
        (guardsTags (frontGuards mode l r ctx.link) ctx tags))
      (fun t' hfall => by
        obtain ⟨⟨h, htrue⟩, -⟩ := hfall
        simp only [exprTags, htrue, if_true]
        exact h.meet_left)
      (fun t' hfall => by
        obtain ⟨-, he, hx⟩ := hfall
        have hs' : Sat pkt (orEntry mode l r ctx).link (orEntry mode l r ctx).facts
            (guardsTags (frontGuards mode l r ctx.link) ctx tags) s := by
          rw [show (orEntry mode l r ctx).link = ctx.link from hlink₀]
          exact hs
        have h := hs'.restore he hx
        rw [show (orEntry mode l r ctx).link = ctx.link from hlink₀] at h
        exact h)
    refine Meets.alt (traced_no_exit pkt) (traced_jumps pkt) (P := (· = s)) (fun u hu => hu ▸ h₁')
      (fun hfalse u hu => ?_) s rfl
    have h₂ := @hr (orRight mode l r ctx) _ u
      (fun p h => by rw [hlinkR]; exact hp p (List.mem_append_right _ h))
      (restore_ok hok₀ hlink₁) (by rw [hlinkR]; exact hu) (hfr hfalse)
    rw [hlinkR, hdepthR] at h₂
    refine h₂.mono (fun t' h => ?_) (fun _ h => h)
    have hne : ¬ value pkt ctx.link mode l ctx.vlanDepth = some true := by
      rw [hfalse]
      decide
    simp only [exprTags, if_neg hne]
    exact h.meet_right
  | not e ih =>
    have h₁ := ((ih hp hok hsat hf).leaves (asm_leaves mode e ctx t)).mono
      (T := fun _ => True) (G := Sat pkt ctx.link (asm mode (.not e) ctx).2.facts tags)
      (fun _ _ => trivial) (fun t' hfall => hsat.restore hfall.2.1 hfall.2.2)
    exact Meets.neg (traced_no_exit pkt) (traced_jumps pkt) (P := (· = t)) (fun s hs => hs ▸ h₁)
      t rfl

end Soundness

end PktBaffle.Proofs.Classic
