import PktBaffle.Proofs.Classic.Bodies

namespace PktBaffle.Proofs.Classic
open Bpf Forward PktBaffle.Classic

/-- The node stands in the tree at its address. -/
def In (root : Expr) (n : Node) : Prop := root.at? n.addr = some n.expr

theorem in_root (root : Expr) : In root ⟨[], root⟩ := rfl

theorem at?_append (root : Expr) (addr : Expr.Place) (c : Expr.Child) :
    root.at? (addr ++ [c]) = (root.at? addr).bind fun e => e.child c := by
  induction addr generalizing root with
  | nil =>
    show (root.child c).bind (fun e => e.at? []) = root.child c
    cases root.child c <;> rfl
  | cons d addr ih =>
    show (root.child d).bind (fun e => e.at? (addr ++ [c])) = ((root.child d).bind _).bind _
    rw [Option.bind_assoc]
    exact congrArg _ (funext ih)

theorem In.below {root : Expr} {n : Node} (h : In root n) {c : Expr.Child} {e : Expr}
    (hc : n.expr.child c = some e) : In root (.below n.addr c e) := by
  have hn : root.at? n.addr = some n.expr := h
  show root.at? (n.addr ++ [c]) = some e
  rw [at?_append, hn]
  exact hc

/-- Every remembered guard set is the one of the node at its address. -/
def MemoOk (root : Expr) (memo : GuardMemo) : Prop :=
  ∀ q ∈ memo, ∀ e, root.at? q.1 = some e → q.2 = required e

theorem memoOk_nil (root : Expr) : MemoOk root [] := by
  intro q hq
  cases hq

theorem MemoOk.cons {root : Expr} {memo : GuardMemo} (h : MemoOk root memo) {n : Node}
    (hn : In root n) : MemoOk root ((n.addr, required n.expr) :: memo) := by
  intro q hq e he
  rcases List.mem_cons.mp hq with rfl | hq
  · have hat : root.at? n.addr = some n.expr := hn
    rw [hat, Option.some.injEq] at he
    exact congrArg required he
  · exact h q hq e he

theorem MemoOk.lookup {root : Expr} {memo : GuardMemo} (h : MemoOk root memo) {n : Node}
    (hn : In root n) {g : GuardSet} (hg : memo.lookup n.addr = some g) : g = required n.expr := by
  obtain ⟨l, r, hsplit, -⟩ := List.lookup_eq_some_iff.mp hg
  have hmem : (n.addr, g) ∈ memo := by
    rw [hsplit]
    simp
  exact h _ hmem _ hn

/-- The turns that visit one node: they leave its guard set on top and cost no more than
its share of the fuel. -/
def Visits (root : Expr) (n : Node) : Prop :=
  ∀ todo done memo, MemoOk root memo → ∃ k memo', k ≤ guardFuel n.expr ∧ MemoOk root memo' ∧
    ∀ fuel, guardLoop (k + fuel) (.visit n :: todo) done memo =
      guardLoop fuel todo (required n.expr :: done) memo'

theorem guardLoop_step {step : GuardStep} {todo todo' : List GuardStep} {done done' : List GuardSet}
    {memo memo' : GuardMemo} (h : guardStep step todo done memo = .ok (todo', done', memo'))
    (fuel : Nat) :
    guardLoop (fuel + 1) (step :: todo) done memo = guardLoop fuel todo' done' memo' := by
  rw [guardLoop, h]
  rfl

section Visit

variable {root : Expr} {n : Node}

theorem visits_known {todo : List GuardStep} {done : List GuardSet} {memo : GuardMemo}
    {g : GuardSet} (h : MemoOk root memo) (hn : In root n) (hg : memo.lookup n.addr = some g)
    (fuel : Nat) : guardLoop (1 + fuel) (.visit n :: todo) done memo =
      guardLoop fuel todo (required n.expr :: done) memo := by
  have hstep : guardStep (.visit n) todo done memo = .ok (todo, g :: done, memo) := by
    simp only [guardStep, hg]
  rw [Nat.add_comm, guardLoop_step hstep, h.lookup hn hg]

/-- An operator: both operands, then the two results on top are combined. -/
theorem visits_node {nl nr : Node} (hn : In root n) (hl : Visits root nl) (hr : Visits root nr)
    (hfuel : guardFuel n.expr = 2 + guardFuel nl.expr + guardFuel nr.expr)
    (hvisit : ∀ todo done memo, memo.lookup n.addr = none → guardStep (.visit n) todo done memo =
      .ok (.visit nl :: .visit nr :: .combine n :: todo, done, memo))
    (hcombine : ∀ todo done memo,
      guardStep (.combine n) todo (required nr.expr :: required nl.expr :: done) memo =
        .ok (todo, required n.expr :: done, (n.addr, required n.expr) :: memo)) :
    Visits root n := by
  intro todo done memo hm
  cases hg : memo.lookup n.addr with
  | some g => exact ⟨1, memo, by omega, hm, visits_known hm hn hg⟩
  | none =>
    obtain ⟨n₁, memo₁, hn₁, hm₁, h₁⟩ := hl (.visit nr :: .combine n :: todo) done memo hm
    obtain ⟨n₂, memo₂, hn₂, hm₂, h₂⟩ :=
      hr (.combine n :: todo) (required nl.expr :: done) memo₁ hm₁
    refine ⟨2 + n₁ + n₂, (n.addr, required n.expr) :: memo₂, by omega, hm₂.cons hn,
      fun fuel => ?_⟩
    have hsplit : 2 + n₁ + n₂ + fuel = n₁ + (n₂ + (fuel + 1)) + 1 := by omega
    rw [hsplit, guardLoop_step (hvisit todo done memo hg), h₁, h₂,
      guardLoop_step (hcombine todo done memo₂)]

/-- A leaf of the walk. -/
theorem visits_leaf (hn : In root n) (hfuel : guardFuel n.expr = 1)
    (hvisit : ∀ todo done memo, memo.lookup n.addr = none → guardStep (.visit n) todo done memo =
      .ok (todo, required n.expr :: done, memo)) : Visits root n := by
  intro todo done memo hm
  refine ⟨1, memo, by omega, hm, fun fuel => ?_⟩
  cases hg : memo.lookup n.addr with
  | some g => exact visits_known hm hn hg fuel
  | none => rw [Nat.add_comm, guardLoop_step (hvisit todo done memo hg)]

theorem visits (e : Expr) {addr : Expr.Place} (hn : In root ⟨addr, e⟩) :
    Visits root ⟨addr, e⟩ := by
  induction e generalizing addr with
  | and l r hl hr =>
    exact visits_node hn (hl (hn.below (c := .left) rfl)) (hr (hn.below (c := .right) rfl)) rfl
      (fun todo done memo h => by simp only [guardStep, h, Node.below]) (fun _ _ _ => rfl)
  | or l r hl hr =>
    exact visits_node hn (hl (hn.below (c := .left) rfl)) (hr (hn.below (c := .right) rfl)) rfl
      (fun todo done memo h => by simp only [guardStep, h, Node.below]) (fun _ _ _ => rfl)
  | not e _ =>
    exact visits_leaf hn rfl fun todo done memo h => by simp only [guardStep, h, required]
  | primitive p =>
    exact visits_leaf hn rfl fun todo done memo h => by simp only [guardStep, h, required]

/-- The loop with its memo computes the recursion over the tree. -/
theorem requiredGuards_run (hn : In root n) {memo : GuardMemo} (h : MemoOk root memo) :
    ∃ memo', requiredGuards n memo = .ok (required n.expr, memo') ∧ MemoOk root memo' := by
  obtain ⟨k, memo', hk, hm, hrun⟩ := visits n.expr hn [] [] memo h
  refine ⟨memo', ?_, hm⟩
  have hl : guardLoop (guardFuel n.expr) [.visit n] [] memo = .ok ([required n.expr], memo') := by
    have hf := hrun (guardFuel n.expr - k)
    rw [Nat.add_sub_cancel' hk] at hf
    refine hf.trans ?_
    cases guardFuel n.expr - k <;> rfl
  unfold requiredGuards
  rw [hl]
  rfl

end Visit

theorem Piece.append_assoc (p q r : Piece) : (p.append q).append r = p.append (q.append r) := by
  simp only [Piece.append, List.append_assoc, List.map_append, List.map_map, List.length_append,
    Piece.mk.injEq, true_and, List.append_cancel_left_eq]
  apply List.map_congr_left
  intro a _
  rw [Function.comp, shift_shift]

theorem Piece.empty_append (p : Piece) : Piece.empty.append p = p := by
  have hid : shift 0 = id := by
    funext s
    simp [shift]
  simp [Piece.append, Piece.empty, hid]

theorem asmGuards_append (gs hs : List Guard) (ctx : Ctx) :
    asmGuards (gs ++ hs) ctx =
      ((asmGuards gs ctx).1.append (asmGuards hs (asmGuards gs ctx).2).1,
        (asmGuards hs (asmGuards gs ctx).2).2) := by
  induction gs generalizing ctx with
  | nil => simp [asmGuards, Piece.empty_append]
  | cons g gs ih => simp only [List.cons_append, asmGuards, ih, Piece.append_assoc]

theorem push_ethertype (ctx : Ctx) (i : Insn) :
    (ctx.push i).facts.ethertype = ctx.facts.ethertype := by
  unfold Ctx.push
  split <;> rfl

theorem after_ethertype (ctx : Ctx) (c : Code) :
    (ctx.after c).facts.ethertype = ctx.facts.ethertype := by
  induction c generalizing ctx with
  | nil => rfl
  | cons a c ih => rw [Ctx.after_cons, ih, push_ethertype]

section Kept

variable {ctx : Ctx} {v : UInt32}

theorem asmEthertype_kept (et : UInt32) (h : ctx.facts.ethertype = some v) :
    (asmEthertype et ctx).2.facts.ethertype = some v := by
  unfold asmEthertype
  split
  · split
    · exact h
    · simp [Ctx.withFacts, record, h]
  · exact h

theorem asmPortPrereqs_kept (want : L4Set) :
    (asmPortPrereqs want ctx).2.facts.ethertype = ctx.facts.ethertype := by
  have prologue : (asmPortPrologue want ctx).2.facts.ethertype = ctx.facts.ethertype := by
    unfold asmPortPrologue
    dsimp only
    split
    · exact after_ethertype _ _
    · split
      · exact after_ethertype _ _
      · exact after_ethertype _ _
  unfold asmPortPrereqs
  split
  · split
    · rfl
    · exact prologue
  · exact prologue

/-- An ethertype that is pinned stays pinned. -/
theorem asmGuard_kept (g : Guard) (h : ctx.facts.ethertype = some v) :
    (asmGuard g ctx).2.facts.ethertype = some v := by
  cases g with
  | none => exact h
  | ethertype et => exact asmEthertype_kept et h
  | ip4 n =>
    simp only [asmGuard, asmIp4L4]
    split <;> exact asmEthertype_kept 0x0800 h
  | ip6 n =>
    simp only [asmGuard, asmIp6L4]
    split <;> exact asmEthertype_kept 0x86dd h
  | ports set => exact (asmPortPrereqs_kept set).trans h

theorem asmGuards_frame (gs : List Guard) (ctx : Ctx) :
    (asmGuards gs ctx).2.link = ctx.link ∧ (asmGuards gs ctx).2.vlanDepth = ctx.vlanDepth := by
  induction gs generalizing ctx with
  | nil => exact ⟨rfl, rfl⟩
  | cons g gs ih =>
    obtain ⟨hl, hd⟩ := asmGuard_frame g ctx
    obtain ⟨hl', hd'⟩ := ih (asmGuard g ctx).2
    exact ⟨hl'.trans hl, hd'.trans hd⟩

theorem asmGuards_kept (gs : List Guard) (h : ctx.facts.ethertype = some v) :
    (asmGuards gs ctx).2.facts.ethertype = some v := by
  induction gs generalizing ctx with
  | nil => exact h
  | cons g gs ih => exact ih (asmGuard_kept g h)

theorem asmPrimitive_frame (p : Primitive) (ctx : Ctx) :
    (asmPrimitive p ctx).2.link = ctx.link ∧ (asmPrimitive p ctx).2.vlanDepth = ctx.vlanDepth := by
  obtain ⟨hl, hd⟩ := asmGuard_frame (guardOf p) ctx
  exact ⟨(Ctx.after_link _ _).trans hl, (Ctx.after_vlanDepth _ _).trans hd⟩

/-- Code comes back to the link type and the depth it started with. -/
theorem asm_frame (mode : HoistMode) (e : Expr) (ctx : Ctx) :
    (asm mode e ctx).2.link = ctx.link ∧ (asm mode e ctx).2.vlanDepth = ctx.vlanDepth := by
  induction e generalizing ctx with
  | primitive p => exact asmPrimitive_frame p ctx
  | and l r hl hr =>
    obtain ⟨h₁, d₁⟩ := hl ctx
    obtain ⟨h₂, d₂⟩ := hr ((asm mode l ctx).2.bump (leadsVlan l))
    refine ⟨h₂.trans h₁, ?_⟩
    simp only [asm, Ctx.unbump, d₂]
    cases leadsVlan l <;> simp [Ctx.bump, d₁]
  | or l r hl hr =>
    obtain ⟨h₀, d₀⟩ := asmGuards_frame (frontGuards mode l r ctx.link) ctx
    obtain ⟨h₁, d₁⟩ := hl (asmGuards (frontGuards mode l r ctx.link) ctx).2
    obtain ⟨h₂, d₂⟩ := hr ((asm mode l (asmGuards (frontGuards mode l r ctx.link) ctx).2).2.restore
      (asmGuards (frontGuards mode l r ctx.link) ctx).2)
    exact ⟨h₂.trans (h₁.trans h₀), d₂.trans (d₁.trans d₀)⟩
  | not e ih => exact ih ctx

theorem restore_ethertype (ctx entry : Ctx) :
    (ctx.restore entry).facts.ethertype = entry.facts.ethertype := by
  unfold Ctx.restore
  dsimp only
  split <;> rfl

theorem asm_kept (mode : HoistMode) (e : Expr) (h : ctx.facts.ethertype = some v) :
    (asm mode e ctx).2.facts.ethertype = some v := by
  induction e generalizing ctx with
  | primitive p => exact (after_ethertype _ _).trans (asmGuard_kept _ h)
  | and l r hl hr => exact hr (hl h)
  | or l r hl hr =>
    have h₀ := asmGuards_kept (frontGuards mode l r ctx.link) h
    have h₁ := hl h₀
    have h₂ := hr ((restore_ethertype
      (asm mode l (asmGuards (frontGuards mode l r ctx.link) ctx).2).2 _).trans h₀)
    simp only [asm, Ctx.withFacts, Facts.meet, h₁, h₂, both, if_true]
  | not e ih => exact (restore_ethertype _ _).trans h

end Kept

/-- On RawIp nothing takes the IPv4 fact away. -/
theorem asmGuard_ok (g : Guard) {ctx : Ctx} (h : ctx.Ok) : (asmGuard g ctx).2.Ok :=
  fun hl => asmGuard_kept g (h ((asmGuard_frame g ctx).1 ▸ hl))

theorem asmGuards_ok (gs : List Guard) {ctx : Ctx} (h : ctx.Ok) : (asmGuards gs ctx).2.Ok :=
  fun hl => asmGuards_kept gs (h ((asmGuards_frame gs ctx).1 ▸ hl))

theorem asm_ok (mode : HoistMode) (e : Expr) {ctx : Ctx} (h : ctx.Ok) : (asm mode e ctx).2.Ok :=
  fun hl => asm_kept mode e (h ((asm_frame mode e ctx).1 ▸ hl))

theorem bump_ok {ctx : Ctx} (h : ctx.Ok) (b : Bool) : (ctx.bump b).Ok := h

theorem restore_ok {ctx entry : Ctx} (h : entry.Ok) (hl : ctx.link = entry.link) :
    (ctx.restore entry).Ok :=
  fun hraw => (restore_ethertype ctx entry).trans (h (hl ▸ hraw))

theorem start_ok (link : LinkType) : (Ctx.start link).Ok := by
  intro h
  have hl : link = .rawIp := h
  subst hl
  rfl

section Hoist

variable {cg cg' : Codegen}

/-- A guard list the link layer can carry. -/
def GuardsOk (gs : List Guard) (link : LinkType) : Prop := ∀ g ∈ gs, guardOk g link = true

theorem guardsOk_append {gs hs : List Guard} {link : LinkType} :
    GuardsOk (gs ++ hs) link ↔ GuardsOk gs link ∧ GuardsOk hs link := by
  simp [GuardsOk, or_imp, forall_and]

/-- An emit function for guards: it emits the listed ones if the link layer can carry them
and is an error otherwise. -/
def Fronts (m : Gen (List Patch)) (cg : Codegen) (gs : List Guard) : Prop :=
  (GuardsOk gs cg.link ∧ ∃ f cg', m cg = .ok (f, cg') ∧
    Built cg cg' [] f (asmGuards gs (ctxOf cg)).1 (asmGuards gs (ctxOf cg)).2) ∨
  (¬ GuardsOk gs cg.link ∧ ∃ e, m cg = .error e)

theorem hoistGuard_fronts {α : Type} (guard : Option α) (emit : α → Gen Patches) (mk : α → Guard)
    (hmk : ∀ a, emit a = emitGuard (mk a)) (hok : (ctxOf cg).Ok) :
    Fronts (hoistGuard guard emit) cg (guard.map mk).toList := by
  cases guard with
  | none =>
    refine .inl ⟨fun g hg => absurd hg List.not_mem_nil, [], cg, rfl, Built.nil cg⟩
  | some a =>
    cases hg : guardOk (mk a) cg.link with
    | false =>
      obtain ⟨e, he⟩ := emitGuard_error hg
      refine .inr ⟨fun h => ?_, e, ?_⟩
      · rw [h (mk a) (by simp)] at hg
        cases hg
      · rw [← hmk] at he
        exact bind_error he
    | true =>
      obtain ⟨q, cg₂, hr, hs, hb⟩ := emitGuard_guards hg hok
      rw [← hmk] at hr
      refine .inl ⟨fun g hm => ?_, q.failure, cg₂, bind_run hr, ?_⟩
      · rw [show g = mk a by simpa using hm]
        exact hg
      · have hb' := hb.append (Built.nil cg₂)
        simp only [List.append_nil, hb.ctx] at hb'
        exact hb'

theorem Fronts.bind {m : Gen (List Patch)} {k : Gen (List Patch)} {gs hs : List Guard}
    (h₁ : Fronts m cg gs) (hok : (ctxOf cg).Ok)
    (h₂ : ∀ cg', (ctxOf cg').Ok → Fronts k cg' hs) :
    Fronts (m >>= fun f => k >>= fun g => pure (f ++ g)) cg (gs ++ hs) := by
  rcases h₁ with ⟨hg, f, cg₁, hr, hb⟩ | ⟨hg, e, he⟩
  · have ok₁ : (ctxOf cg₁).Ok := hb.ctx ▸ asmGuards_ok gs hok
    have hl : cg₁.link = cg.link := by
      have := (asmGuards_frame gs (ctxOf cg)).1
      rw [← hb.ctx] at this
      exact this
    rcases h₂ cg₁ ok₁ with ⟨hg', f', cg₂, hr', hb'⟩ | ⟨hg', e, he⟩
    · refine .inl ⟨guardsOk_append.mpr ⟨hg, hl ▸ hg'⟩, f ++ f', cg₂, ?_, ?_⟩
      · rw [bind_run hr, bind_run hr', pure_run]
      · have h := hb.append hb'
        rw [hb.ctx] at h
        rw [asmGuards_append]
        exact h
    · refine .inr ⟨fun h => hg' (hl ▸ (guardsOk_append.mp h).2), e, ?_⟩
      rw [bind_run hr, bind_error he]
  · exact .inr ⟨fun h => hg (guardsOk_append.mp h).1, e, bind_error he⟩

/-- The guards in front of an OR are emitted in the order they are listed. -/
theorem emitHoist_fronts (common : GuardSet) (hok : (ctxOf cg).Ok) :
    Fronts (emitHoist common) cg (hoisted common cg.link) := by
  have hether : ((if cg.link.etherProtoOffset.isSome = true then common.ethertype else none).map
      Guard.ethertype).toList = if cg.link.etherProtoOffset.isSome = true then
        (common.ethertype.map Guard.ethertype).toList else [] := by
    split <;> rfl
  have h₁ := hoistGuard_fronts
    (if cg.link.etherProtoOffset.isSome = true then common.ethertype else none)
    emitEthertype Guard.ethertype (fun _ => rfl) hok
  have h := ((h₁.bind hok (fun cg' ok' => hoistGuard_fronts common.ip4Proto emitIp4L4 Guard.ip4
    (fun _ => rfl) ok')).bind hok
    (fun cg' ok' => hoistGuard_fronts common.ip6Nh emitIp6L4 Guard.ip6
    (fun _ => rfl) ok')).bind hok
    (fun cg' ok' => hoistGuard_fronts common.portPrereqs emitPortPrereqsSet Guard.ports
    (fun _ => rfl) ok')
  rw [hether] at h
  have hrun : emitHoist common cg = (((hoistGuard
      (if cg.link.etherProtoOffset.isSome = true then common.ethertype else none) emitEthertype
      >>= fun f => hoistGuard common.ip4Proto emitIp4L4 >>= fun g => pure (f ++ g))
      >>= fun f => hoistGuard common.ip6Nh emitIp6L4 >>= fun g => pure (f ++ g))
      >>= fun f => hoistGuard common.portPrereqs emitPortPrereqsSet >>= fun g => pure (f ++ g))
      cg := by
    unfold emitHoist
    simp only [get_bind, bind_assoc, pure_bind]
  unfold Fronts at h ⊢
  rw [hrun]
  exact h

/-- What stands in front of an OR. -/
theorem emitOrFront_or (mode : HoistMode) {root : Expr} {l r : Node} {memo : GuardMemo}
    (hok : (ctxOf cg).Ok) (hl : In root l) (hr : In root r) (hm : MemoOk root memo) :
    let gs := frontGuards mode l.expr r.expr cg.link
    (GuardsOk gs cg.link ∧ ∃ f memo' cg', MemoOk root memo' ∧
      emitOrFront mode l r memo cg = .ok ((f, memo'), cg') ∧
      Built cg cg' [] f (asmGuards gs (ctxOf cg)).1 (asmGuards gs (ctxOf cg)).2) ∨
    (¬ GuardsOk gs cg.link ∧ ∃ e, emitOrFront mode l r memo cg = .error e) := by
  cases mode with
  | plain => exact .inl ⟨fun g hg => absurd hg List.not_mem_nil, [], memo, cg, hm, rfl, Built.nil cg⟩
  | hoist =>
    obtain ⟨memo₁, hr₁, hm₁⟩ := requiredGuards_run hl hm
    obtain ⟨memo₂, hr₂, hm₂⟩ := requiredGuards_run hr hm₁
    have hrun : emitOrFront .hoist l r memo cg =
        (emitHoist ((required l.expr).intersect (required r.expr)) >>= fun f =>
          pure (f, memo₂)) cg := by
      show (liftM (requiredGuards l memo) >>= fun q => liftM (requiredGuards r q.2) >>= fun q' =>
        emitHoist (q.1.intersect q'.1) >>= fun f => pure (f, q'.2)) cg = _
      rw [hr₁]
      show (liftM (requiredGuards r memo₁) >>= fun q' =>
        emitHoist ((required l.expr).intersect q'.1) >>= fun f => pure (f, q'.2)) cg = _
      rw [hr₂]
      rfl
    rw [hrun]
    rcases emitHoist_fronts ((required l.expr).intersect (required r.expr)) hok with
      ⟨hg, f, cg₁, hr, hb⟩ | ⟨hg, e, he⟩
    · exact .inl ⟨hg, f, memo₂, cg₁, hm₂, bind_run hr, hb⟩
    · exact .inr ⟨hg, e, bind_error he⟩

end Hoist

end PktBaffle.Proofs.Classic
